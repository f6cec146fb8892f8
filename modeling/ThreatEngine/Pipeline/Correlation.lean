import ThreatEngine.Detection.CepSharding
import ThreatEngine.Detection.FxCollisions
import ThreatEngine.Detection.KnownBad
import ThreatEngine.Pipeline.AlertIdentity
import ThreatEngine.Pipeline.Engines
import ThreatEngine.Pipeline.Sequential

/-! Correlation from end to end: what all workers together report about a source
is what one correlation engine would report that is given the accepted events of
the source alone, in the order of generation. -/
namespace ThreatEngine.Pipeline
open Queue Detection
variable {n : Nat} {F : Type} {H : Hasher} {find : OverlappingSearch}

/-- The events that a correlation engine has been asked about, each with its instant. -/
def correlated (log : List Entry) : List (Nat × NetworkEvent) :=
  log.filterMap fun
    | .asked .cep now event => some (now, event)
    | _ => none

/-- The correlation alerts about a source, without their ids. -/
def correlationAlerts (ip : UInt32) (alerts : List Alert) : List Alert :=
  alertsFor ip (alerts.filter fun a => a.detector = .cep)

/-- The accepted events of a source. -/
def acceptedFrom (ip : UInt32) (outcomes : List (NetworkEvent × Bool)) : List NetworkEvent :=
  ((outcomes.filter fun o => o.2).map Prod.fst).filter fun event => event.srcIp == ip

section Machines
variable [Float64 F]

theorem correlationAlerts_append (ip : UInt32) (as bs : List Alert) :
    correlationAlerts ip (as ++ bs) = correlationAlerts ip as ++ correlationAlerts ip bs := by
  simp [correlationAlerts, alertsFor]

/-- A question to a detector moves the correlation engine as its own machine moves. -/
theorem detect_cep (H : Hasher) (find : OverlappingSearch) (d : Engines F) (ip : UInt32)
    (kind : DetectorKind) (now : Nat) (event : NetworkEvent) :
    ((engines F H find).detect kind now event d).1.cep =
      (if kind = .cep then (d.cep.process now event).1 else d.cep) ∧
    correlationAlerts ip ((engines F H find).detect kind now event d).2 =
      if kind = .cep then alertsFor ip (d.cep.process now event).2 else [] := by
  have hissued := detect_issued find d event H kind now
  have hkeep : ∀ a ∈ ((engines F H find).detect kind now event d).2, a.detector = kind :=
    fun a ha => (hissued.marked a ha).1
  cases kind with
  | signature | anomaly =>
    refine ⟨rfl, ?_⟩
    rw [correlationAlerts, List.filter_eq_nil_iff.mpr fun a ha => by simp [hkeep a ha]]
    rfl
  | cep =>
    refine ⟨rfl, ?_⟩
    rw [correlationAlerts, List.filter_eq_self.mpr fun a ha => by simp [hkeep a ha]]
    rfl

/-- What the detectors of a worker report about a source is what their correlation engine reports. -/
theorem correlationAlerts_outputs (rules : List CepRule) (ip : UInt32) (d : Engines F)
    (log : List Entry) :
    correlationAlerts ip ((engines F H find).machine.outputs d (askedIn log)).flatten =
      ((singleMachine rules).outputs d.cep (correlated log)).flatMap (alertsFor ip) := by
  induction log generalizing d with
  | nil => rfl
  | cons x log ih =>
    cases x with
    | asked kind now event =>
      obtain ⟨hcep, halerts⟩ := detect_cep H find d ip kind now event
      have hrest := ih ((engines F H find).detect kind now event d).1
      change correlationAlerts ip (((engines F H find).detect kind now event d).2 ++
        ((engines F H find).machine.outputs ((engines F H find).detect kind now event d).1
          (askedIn log)).flatten) = _
      rw [correlationAlerts_append, halerts, hrest, hcep]
      cases kind <;> rfl
    | _ => exact ih d

end Machines

/-- The worker that the events of a source go to. -/
def home (n : Nat) [NeZero n] (ip : UInt32) : Fin n := Fin.ofNat n (fnv (octets ip)).toNat

section Logs

/-- The events of the questions to the correlation engine. -/
def correlationEvents (asked : List (DetectorKind × NetworkEvent)) : List NetworkEvent :=
  (asked.filter fun x => x.1 = .cep).map Prod.snd

theorem correlationEvents_questions (events : List NetworkEvent) :
    correlationEvents (events.flatMap questions) = events := by
  induction events with
  | nil => rfl
  | cons event events ih => exact congrArg (event :: ·) ih

theorem map_correlated (log : List Entry) : (correlated log).map Prod.snd =
    correlationEvents ((askedIn log).map fun x => (x.1, x.2.2)) := by
  induction log with
  | nil => rfl
  | cons x log ih =>
    cases x with
    | asked kind now event =>
      cases kind with
      | cep => exact congrArg (event :: ·) ih
      | _ => exact ih
    | _ => exact ih

theorem entriesOf_cons (w : Fin n) (x : Fin n × Entry) (log : List (Fin n × Entry)) :
    entriesOf w (x :: log) = if x.1 = w then x.2 :: entriesOf w log else entriesOf w log := by
  unfold entriesOf
  split <;> simp [*]

/-- What only one worker's entries contribute to. -/
theorem filterMap_entriesOf {β : Type} (f : Entry → Option β) {w : Fin n} {log : List (Fin n × Entry)}
    (h : ∀ v, v ≠ w → (entriesOf v log).filterMap f = []) :
    (log.map Prod.snd).filterMap f = (entriesOf w log).filterMap f := by
  induction log with
  | nil => rfl
  | cons x log ih =>
    have hrest := ih fun v hv => by
      have hnone := h v hv
      rw [entriesOf_cons] at hnone
      split at hnone
      · rw [List.filterMap_eq_nil_iff] at hnone ⊢
        exact fun e he => hnone e (List.mem_cons_of_mem _ he)
      · exact hnone
    rw [List.map_cons, entriesOf_cons]
    by_cases hx : x.1 = w
    · rw [if_pos hx, List.filterMap_cons, List.filterMap_cons, hrest]
    · have hnone := h x.1 hx
      rw [entriesOf_cons, if_pos rfl, List.filterMap_eq_nil_iff] at hnone
      rw [if_neg hx, List.filterMap_cons_none (hnone x.2 List.mem_cons_self), hrest]

/-- The entry of a question to the correlation engine about an event of a source. -/
def correlatedFrom (ip : UInt32) : Entry → Option (Nat × NetworkEvent)
  | .asked .cep now event => if event.srcIp == ip then some (now, event) else none
  | _ => none

/-- The entry of a correlation alert about a source. -/
def reportedOn (ip : UInt32) : Entry → Option Alert
  | .recorded a => if a.srcIp == ipToString ip ∧ a.detector = .cep then some a.body else none
  | _ => none

theorem filter_correlated (ip : UInt32) (log : List Entry) :
    (correlated log).filter (fromSource ip) = log.filterMap (correlatedFrom ip) := by
  rw [correlated, List.filter_filterMap]
  congr 1
  funext x
  cases x with
  | asked kind now event => cases kind <;> rfl
  | _ => rfl

theorem correlationAlerts_recordedIn (ip : UInt32) (log : List Entry) :
    correlationAlerts ip (recordedIn log) = log.filterMap (reportedOn ip) := by
  rw [correlationAlerts, alertsFor, List.filter_filter, recordedIn, List.filter_filterMap,
    List.map_filterMap]
  congr 1
  funext x
  cases x with
  | recorded a =>
    simp only [reportedOn, Option.filter, Bool.and_eq_true, decide_eq_true_eq]
    split <;> simp [*]
  | _ => rfl

variable [NeZero n]

theorem shard_of_mem_acceptedBy {w : Fin n} {outcomes : List (NetworkEvent × Bool)}
    {event : NetworkEvent} (h : event ∈ acceptedBy w outcomes) : event.shard n = w := by
  obtain ⟨o, ho, rfl⟩ := List.mem_map.mp h
  exact eq_of_beq (Bool.and_eq_true_iff.mp (List.mem_filter.mp ho).2).2

theorem filter_acceptedBy (ip : UInt32) (outcomes : List (NetworkEvent × Bool)) :
    (acceptedBy (home n ip) outcomes).filter (fun event => event.srcIp == ip) =
      acceptedFrom ip outcomes := by
  rw [acceptedBy, acceptedFrom, List.filter_map, List.filter_map, List.filter_filter, List.filter_filter]
  congr 1
  refine List.filter_congr fun o _ => ?_
  by_cases ho : o.1.srcIp = ip
  · simp [ho, home, shard_of_srcIp n ho]
  · have hother : (o.1.srcIp == ip) = false := beq_false_of_ne ho
    simp [hother]

end Logs

/-- What a run reports about a source, all workers taken together. -/
structure Correlates [NeZero n] (ip : UInt32) (s : State n (Engines F)) (log : List (Fin n × Entry)) :
    Prop where
  /-- The correlation alerts are those of one engine that is given the source's events alone. -/
  alerts : correlationAlerts ip (recordedIn (log.map Prod.snd) ++ (s.worker (home n ip)).pending) =
    ((singleMachine CepEngine.withDefaultRules.rules).outputs
      (singleMachine CepEngine.withDefaultRules.rules).init
        ((correlated (log.map Prod.snd)).filter (fromSource ip))).flatMap (alertsFor ip)
  /-- Those are the source's first accepted events, in the order of generation. -/
  order : ((correlated (log.map Prod.snd)).filter (fromSource ip)).map Prod.snd <+:
    acceptedFrom ip s.outcomes
  /-- And they are all of them once the source's worker has caught up. -/
  complete : s.worker (home n ip) = .waiting →
    (returned (s.queues (home n ip)).history).length = (acceptedBy (home n ip) s.outcomes).length →
    ((correlated (log.map Prod.snd)).filter (fromSource ip)).map Prod.snd = acceptedFrom ip s.outcomes

section Runs
variable [NeZero n] {s : State n (Engines F)} {log : List (Fin n × Entry)}

/-- The events that a worker has correlated, those that it has not correlated yet and the one in
its hand are the first accepted ones. -/
theorem Served.correlated_eq {D : Detectors (Engines F)} (h : Served D s log) (w : Fin n) :
    (correlated (entriesOf w log)).map Prod.snd ++ correlationEvents (s.worker w).unasked ++
      (s.worker w).popped = s.poppedBy w := by
  have hasked := congrArg correlationEvents (h.ledger w).asked
  rw [correlationEvents_questions] at hasked
  rw [← h.handled w, ← hasked, map_correlated]
  simp [correlationEvents]

theorem Served.correlated_prefix {D : Detectors (Engines F)} (h : Served D s log) (w : Fin n) :
    (correlated (entriesOf w log)).map Prod.snd <+: acceptedBy w s.outcomes := by
  have heq := h.correlated_eq w
  rw [List.append_assoc] at heq
  have hprefix := List.prefix_append ((correlated (entriesOf w log)).map Prod.snd)
    (correlationEvents (s.worker w).unasked ++ (s.worker w).popped)
  rw [heq] at hprefix
  exact hprefix.trans (List.take_prefix _ _)

/-- A worker is asked about no source but its own. -/
theorem Served.asked_home {D : Detectors (Engines F)} (h : Served D s log) {ip : UInt32}
    {w : Fin n} (hw : w ≠ home n ip) : (correlated (entriesOf w log)).filter (fromSource ip) = [] := by
  refine List.filter_eq_nil_iff.mpr fun x hx hip => hw ?_
  have hmem : x.2 ∈ acceptedBy w s.outcomes :=
    (h.correlated_prefix w).subset (List.mem_map_of_mem hx)
  exact (shard_of_mem_acceptedBy hmem).symm.trans (shard_of_srcIp n (beq_iff_eq.mp hip))

variable [Float64 F]

/-- What a worker reports about a source. -/
theorem Served.alerts_of_worker (h : Served (engines F H find) s log) (ip : UInt32) (w : Fin n) :
    correlationAlerts ip (recordedIn (entriesOf w log) ++ (s.worker w).pending) =
      ((singleMachine CepEngine.withDefaultRules.rules).outputs
        (singleMachine CepEngine.withDefaultRules.rules).init
          ((correlated (entriesOf w log)).filter (fromSource ip))).flatMap (alertsFor ip) := by
  rw [(h.ledger w).raised, ← single_eq_filtered]
  exact correlationAlerts_outputs _ ip _ _

omit [Float64 F] in
/-- Only one worker is asked about a source. -/
theorem Served.asked_once {D : Detectors (Engines F)} (h : Served D s log) (ip : UInt32) :
    (correlated (log.map Prod.snd)).filter (fromSource ip) =
      (correlated (entriesOf (home n ip) log)).filter (fromSource ip) := by
  rw [filter_correlated, filter_correlated]
  refine filterMap_entriesOf _ fun v hv => ?_
  rw [← filter_correlated]
  exact h.asked_home hv

/-- Only one worker reports about a source. -/
theorem Served.reported_once (h : Served (engines F H find) s log) (ip : UInt32) :
    correlationAlerts ip (recordedIn (log.map Prod.snd)) =
      correlationAlerts ip (recordedIn (entriesOf (home n ip) log)) := by
  rw [correlationAlerts_recordedIn, correlationAlerts_recordedIn]
  refine filterMap_entriesOf _ fun v hv => ?_
  have hnone := h.alerts_of_worker ip v
  rw [h.asked_home hv, correlationAlerts_append] at hnone
  rw [← correlationAlerts_recordedIn]
  exact (List.append_eq_nil_iff.mp hnone).1

variable {k : Nat}

theorem correlates_of_reachable (hk : 1 ≤ k) {x : State n (Engines F) × List (Fin n × Entry)}
    (hr : ((pipeline n (engines F H find) k).logged entries).Reachable x) (ip : UInt32) :
    Correlates ip x.1 x.2 := by
  have hserved := served_of_reachable hk hr
  have horder := (hserved.correlated_prefix (home n ip)).filter fun event => event.srcIp == ip
  have hstream : ((correlated (x.2.map Prod.snd)).filter (fromSource ip)).map Prod.snd =
      ((correlated (entriesOf (home n ip) x.2)).map Prod.snd).filter fun event => event.srcIp == ip := by
    rw [hserved.asked_once, List.filter_map]
    rfl
  rw [filter_acceptedBy] at horder
  refine ⟨?_, hstream ▸ horder, fun hwaiting hall => ?_⟩
  · rw [correlationAlerts_append, hserved.reported_once, ← correlationAlerts_append,
      hserved.alerts_of_worker, ← hserved.asked_once]
  · have heq := hserved.correlated_eq (home n ip)
    rw [hwaiting, State.poppedBy, hall, List.take_length] at heq
    rw [hstream, ← filter_acceptedBy (n := n), ← heq]
    simp [Worker.unasked, Worker.popped, correlationEvents]

/-- Whatever the threads do, a source is correlated as one engine on its accepted events alone
correlates it. -/
theorem correlated_end_to_end (hk : 1 ≤ k) {run : List (Action n)}
    {x : State n (Engines F) × List (Fin n × Entry)}
    (h : ((pipeline n (engines F H find) k).logged entries).exec
      ((pipeline n (engines F H find) k).logged entries).init run = some x) (ip : UInt32) :
    Correlates ip x.1 x.2 :=
  correlates_of_reachable hk ⟨run, h⟩ ip

end Runs

section Detection
variable {stream : List (Nat × NetworkEvent)} {ip : UInt32} {i j : Nat}

/-- A firing of the default rule is an alert about its event. -/
theorem alert_of_firedFor {m : Nat} (h : FiredFor CepEngine.withDefaultRules.rules 0 ip stream m) :
    ∃ t e, stream[m]? = some (t, e) ∧ (probeRule.alert e 0).body ∈
      ((singleMachine CepEngine.withDefaultRules.rules).outputs
        (singleMachine CepEngine.withDefaultRules.rules).init stream).flatMap (alertsFor ip) := by
  obtain ⟨hne, t, e, hx, hs⟩ := h
  have hr : CepEngine.withDefaultRules.rules[0]? = some probeRule := rfl
  obtain ⟨a, ha⟩ := List.exists_mem_of_ne_nil _ hne
  obtain ⟨id, hid⟩ := raised_eq hr hx
  obtain ⟨id', rfl⟩ := mem_alerts (hid ▸ ha)
  refine ⟨t, e, hx, List.mem_flatMap.mpr ⟨_, List.mem_of_getElem? (process_eq_raised _ hx), ?_⟩⟩
  refine List.mem_map.mpr ⟨probeRule.alert e id', List.mem_filter.mpr ⟨?_, ?_⟩, rfl⟩
  · exact List.mem_flatMap.mpr ⟨0, by decide, ha⟩
  · simp [CepRule.alert, hs]

/-- Some firing follows the probe and comes no later than the exploit. -/
theorem exists_firedFor (hmono : (stream.map Prod.fst).Pairwise (· ≤ ·)) (hij : i < j) {t t' : Nat}
    {e e' : NetworkEvent} (hi : stream[i]? = some (t, e)) (hs : e.srcIp = ip)
    (hsyn : e.isSyn = true) (hj : stream[j]? = some (t', e')) (hs' : e'.srcIp = ip)
    (hpasswd : Utf8.ascii "passwd" <:+: e'.payloadSample) (hwin : t' - t ≤ 5000000000) :
    ∃ m, i < m ∧ m ≤ j ∧ FiredFor CepEngine.withDefaultRules.rules 0 ip stream m := by
  by_cases hbefore : ∃ m, i < m ∧ m < j ∧ FiredFor CepEngine.withDefaultRules.rules 0 ip stream m
  · obtain ⟨m, him, hmj, hm⟩ := hbefore
    exact ⟨m, him, hmj.le, hm⟩
  · have hr : CepEngine.withDefaultRules.rules[0]? = some probeRule := rfl
    have hchain := chain_of_passwd hij hi hs hsyn hj hs' hpasswd hwin
    refine ⟨j, hij, le_rfl, hchain.raises hr le_rfl hmono fun o m ho hom hmj hm => ?_, t', e', hj, hs'⟩
    obtain rfl : i = o := by simpa using ho
    exact hbefore ⟨m, hom, hmj, hm⟩

variable [NeZero n] [Float64 F] {k : Nat}

/-- A probe and a later exploit of one source, asked about within five seconds, always raise the
default rule's alert on an event after the probe and no later than the exploit. -/
theorem exploit_reported (hk : 1 ≤ k) {run : List (Action n)}
    {x : State n (Engines F) × List (Fin n × Entry)}
    (h : ((pipeline n (engines F H find) k).logged entries).exec
      ((pipeline n (engines F H find) k).logged entries).init run = some x)
    (hstream : (correlated (x.2.map Prod.snd)).filter (fromSource ip) = stream)
    (hmono : (stream.map Prod.fst).Pairwise (· ≤ ·)) (hij : i < j) {t t' : Nat} {e e' : NetworkEvent}
    (hi : stream[i]? = some (t, e)) (hsyn : e.isSyn = true) (hj : stream[j]? = some (t', e'))
    (hpasswd : Utf8.ascii "passwd" <:+: e'.payloadSample) (hwin : t' - t ≤ 5000000000) :
    ∃ m t₁ e₁, i < m ∧ m ≤ j ∧ stream[m]? = some (t₁, e₁) ∧ (probeRule.alert e₁ 0).body ∈
      correlationAlerts ip (recordedIn (x.2.map Prod.snd) ++ (x.1.worker (home n ip)).pending) := by
  have hsource {m : Nat} {y : Nat × NetworkEvent} (hm : stream[m]? = some y) : y.2.srcIp = ip := by
    have hmem := List.mem_of_getElem? hm
    rw [← hstream] at hmem
    exact beq_iff_eq.mp (List.mem_filter.mp hmem).2
  obtain ⟨m, him, hmj, hm⟩ :=
    exists_firedFor hmono hij hi (hsource hi) hsyn hj (hsource hj) hpasswd hwin
  obtain ⟨t₁, e₁, hx, halert⟩ := alert_of_firedFor hm
  have hall := (correlates_of_reachable hk ⟨run, h⟩ ip).alerts
  rw [hstream] at hall
  exact ⟨m, t₁, e₁, him, hmj, hx, hall ▸ halert⟩

end Detection

/-- One worker is asked about a probe and, a second later, about an exploit by the same source. -/
def probedAndExploited : List (Action 1) :=
  .nextBatch [synEvent 42, payloadEvent 42] :: (pushOne 1 ++ pushOne 1 ++
    .pop 0 :: List.replicate 5 (.popStep 0 false) ++
    [.count 0, .detect 0 0, .detect 0 0, .detect 0 0, .done 0] ++
    .pop 0 :: List.replicate 5 (.popStep 0 false) ++
    [.count 0, .detect 0 1000000000, .fire 0, .store 0, .fire 0, .store 0,
      .detect 0 1000000000, .detect 0 1000000000])

theorem correlated_end_to_end_probedAndExploited :
    let x := (((pipeline 1 (engines Approximate fxWord findByEnd) 1).logged entries).exec
      ((pipeline 1 (engines Approximate fxWord findByEnd) 1).logged entries).init
        probedAndExploited).get (by decide +kernel)
    (correlationAlerts 42 (recordedIn (x.2.map Prod.snd) ++ (x.1.worker (home 1 42)).pending)).length = 1 ∧
      Correlates 42 x.1 x.2 := by
  intro x
  exact ⟨by decide +kernel, correlated_end_to_end le_rfl (Option.some_get _).symm 42⟩

theorem exploit_reported_probed :
    let x := (((pipeline 1 (engines Approximate fxWord findByEnd) 1).logged entries).exec
      ((pipeline 1 (engines Approximate fxWord findByEnd) 1).logged entries).init
        probedAndExploited).get (by decide +kernel)
    ∃ m t₁ e₁, 0 < m ∧ m ≤ 1 ∧
      [(0, synEvent 42), (1000000000, payloadEvent 42)][m]? = some (t₁, e₁) ∧
      (probeRule.alert e₁ 0).body ∈
        correlationAlerts 42 (recordedIn (x.2.map Prod.snd) ++ (x.1.worker (home 1 42)).pending) :=
  exploit_reported le_rfl (Option.some_get _).symm (by decide +kernel) (by decide) Nat.zero_lt_one
    rfl (by decide) rfl (by decide) (by decide)

end ThreatEngine.Pipeline
