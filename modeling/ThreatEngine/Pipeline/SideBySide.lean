import ThreatEngine.Detection.CepSharding
import ThreatEngine.Detection.PortCounters
import ThreatEngine.Detection.SynFlood
import ThreatEngine.Pipeline.AlertIdentity
import ThreatEngine.Pipeline.Engines
import ThreatEngine.Pipeline.Sequential

/-! A worker's detectors side by side: what each of them reports is what it would report alone
on the accepted events of the worker's shard. So floods and scans are reported whatever the
threads do. -/
namespace ThreatEngine.Pipeline
open Queue Detection Tumbling
variable {n : Nat} {δ σ : Type}

/-- The events that one detector has been asked about, each with its instant. -/
def askedOf (kind : DetectorKind) (asked : List (DetectorKind × Nat × NetworkEvent)) :
    List (Nat × NetworkEvent) :=
  asked.filterMap fun x => if x.1 = kind then some x.2 else none

/-- The alerts of one detector. -/
def alertsBy (kind : DetectorKind) (alerts : List Alert) : List Alert :=
  alerts.filter fun a => a.detector = kind

/-- What one of a worker's detectors is apart from the others. -/
structure Part (D : Detectors δ) (kind : DetectorKind)
    (M : Mealy.Machine σ (Nat × NetworkEvent) (List Alert)) (part : δ → σ) : Prop where
  fresh : part D.fresh = M.init
  step : ∀ d now event, part (D.detect kind now event d).1 = (M.step (part d) (now, event)).1 ∧
    alertsBy kind (D.detect kind now event d).2 = (M.step (part d) (now, event)).2
  other : ∀ d kind' now event, kind' ≠ kind → part (D.detect kind' now event d).1 = part d ∧
    alertsBy kind (D.detect kind' now event d).2 = []

section Parts
variable {D : Detectors δ} {kind : DetectorKind} {M : Mealy.Machine σ (Nat × NetworkEvent) (List Alert)}
  {part : δ → σ}

/-- The alerts of one detector among all answers. -/
theorem Part.alerts_eq (h : Part D kind M part) (asked : List (DetectorKind × Nat × NetworkEvent)) :
    alertsBy kind (D.machine.outputs D.fresh asked).flatten =
      (M.outputs M.init (askedOf kind asked)).flatten := by
  have hpart := Mealy.shown_eq_of_part (M := D.machine) (N := M) part
    (fun x => if x.1 = kind then some x.2 else none) (alertsBy kind) id ?_ ?_ D.fresh asked
  · rw [h.fresh] at hpart
    rw [alertsBy, List.filter_flatten, ← List.flatMap_def]
    exact hpart.trans List.flatMap_id
  · intro d ⟨kind', now, event⟩ x hx
    by_cases hk : kind' = kind
    · subst hk
      obtain rfl : (now, event) = x := by simpa using hx
      exact h.step d now event
    · simp [hk] at hx
  · intro d ⟨kind', now, event⟩ hx
    exact h.other d kind' now event fun hk => by simp [hk] at hx

end Parts

section Engines
variable {F : Type} [Float64 F] (H : Hasher) (find : OverlappingSearch)

theorem alertsBy_detect (kind kind' : DetectorKind) (now : Nat) (event : NetworkEvent) (d : Engines F) :
    alertsBy kind ((engines F H find).detect kind' now event d).2 =
      if kind' = kind then ((engines F H find).detect kind' now event d).2 else [] := by
  have hmarked := (detect_issued find d event H kind' now).marked
  split
  · next hk => exact List.filter_eq_self.mpr fun a ha => by simp [(hmarked a ha).1, hk]
  · next hk => exact List.filter_eq_nil_iff.mpr fun a ha => by simp [(hmarked a ha).1, hk]

theorem part_signature :
    Part (engines F H find) .signature (signatureMachine find) Engines.signature where
  fresh := rfl
  step d now event := ⟨rfl, (alertsBy_detect H find _ _ now event d).trans (if_pos rfl)⟩
  other d kind' now event hk := by
    refine ⟨?_, (alertsBy_detect H find _ _ now event d).trans (if_neg hk)⟩
    cases kind' with
    | signature => cases hk rfl
    | anomaly | cep => rfl

theorem part_anomaly :
    Part (engines F H find) .anomaly (anomalyMachine F H 5000000000 0) Engines.anomaly where
  fresh := rfl
  step d now event := ⟨rfl, (alertsBy_detect H find _ _ now event d).trans (if_pos rfl)⟩
  other d kind' now event hk := by
    refine ⟨?_, (alertsBy_detect H find _ _ now event d).trans (if_neg hk)⟩
    cases kind' with
    | anomaly => cases hk rfl
    | signature | cep => rfl

theorem part_cep : Part (engines F H find) .cep (singleMachine CepEngine.withDefaultRules.rules)
    Engines.cep where
  fresh := rfl
  step d now event := ⟨rfl, (alertsBy_detect H find _ _ now event d).trans (if_pos rfl)⟩
  other d kind' now event hk := by
    refine ⟨?_, (alertsBy_detect H find _ _ now event d).trans (if_neg hk)⟩
    cases kind' with
    | cep => cases hk rfl
    | signature | anomaly => rfl

end Engines

section Asked
variable {kind : DetectorKind}

theorem map_askedOf (asked : List (DetectorKind × Nat × NetworkEvent)) :
    (askedOf kind asked).map Prod.snd =
      ((asked.map fun x => (x.1, x.2.2)).filter fun x => x.1 = kind).map Prod.snd := by
  induction asked with
  | nil => rfl
  | cons x asked ih =>
    by_cases hx : x.1 = kind
    · simpa [askedOf, hx] using ih
    · simpa [askedOf, hx] using ih

/-- Every event raises one question to each detector. -/
theorem filter_questions (kind : DetectorKind) (events : List NetworkEvent) :
    ((events.flatMap questions).filter fun x => x.1 = kind).map Prod.snd = events := by
  induction events with
  | nil => rfl
  | cons event events ih =>
    rw [List.flatMap_cons, List.filter_append, List.map_append, ih]
    cases kind <;> rfl

variable [NeZero n] {D : Detectors δ} {s : State n δ} {log : List (Fin n × Entry)}

/-- A detector is asked about the first accepted events of the worker's shard, in order. -/
theorem Served.asked_prefix (h : Served D s log) (kind : DetectorKind) (w : Fin n) :
    (askedOf kind (askedIn (entriesOf w log))).map Prod.snd <+: acceptedBy w s.outcomes := by
  have hasked : (askedIn (entriesOf w log)).map (fun x => (x.1, x.2.2)) <+:
      (handledIn (entriesOf w log)).flatMap questions := (h.ledger w).asked ▸ List.prefix_append _ _
  have hhandled : handledIn (entriesOf w log) <+: acceptedBy w s.outcomes :=
    (h.handled w ▸ List.prefix_append _ _ : _ <+: s.poppedBy w).trans (List.take_prefix _ _)
  rw [map_askedOf]
  have hevents := (hasked.filter fun x => x.1 = kind).map Prod.snd
  rw [filter_questions] at hevents
  exact hevents.trans hhandled

end Asked

/-- One detector of one worker, as if it were alone. -/
structure ReportsAlone [NeZero n] (kind : DetectorKind)
    (M : Mealy.Machine σ (Nat × NetworkEvent) (List Alert)) (w : Fin n) (s : State n δ)
    (log : List (Fin n × Entry)) : Prop where
  /-- What it has reported is what its machine answers. -/
  alerts : alertsBy kind (recordedIn (entriesOf w log) ++ (s.worker w).pending) =
    (M.outputs M.init (askedOf kind (askedIn (entriesOf w log)))).flatten
  /-- What it has been asked about are the first accepted events of the shard. -/
  events : (askedOf kind (askedIn (entriesOf w log))).map Prod.snd <+: acceptedBy w s.outcomes

section Runs
variable [NeZero n] {k : Nat} {F : Type} {H : Hasher} {find : OverlappingSearch}

theorem Served.alone {D : Detectors δ} {s : State n δ} {log : List (Fin n × Entry)} (h : Served D s log)
    {kind : DetectorKind} {M : Mealy.Machine σ (Nat × NetworkEvent) (List Alert)} {part : δ → σ}
    (hp : Part D kind M part) (w : Fin n) : ReportsAlone kind M w s log :=
  ⟨by rw [(h.ledger w).raised]; exact hp.alerts_eq _, h.asked_prefix kind w⟩

variable [Float64 F] {x : State n (Engines F) × List (Fin n × Entry)}

/-- Whatever the threads do, every detector of every worker reports what it would report if it were
alone and given the accepted events of the worker's shard. -/
theorem detectors_alone (hk : 1 ≤ k) {run : List (Action n)}
    (h : ((pipeline n (engines F H find) k).logged entries).exec
      ((pipeline n (engines F H find) k).logged entries).init run = some x) (w : Fin n) :
    ReportsAlone .signature (signatureMachine find) w x.1 x.2 ∧
      ReportsAlone .anomaly (anomalyMachine F H 5000000000 0) w x.1 x.2 ∧
      ReportsAlone .cep (singleMachine CepEngine.withDefaultRules.rules) w x.1 x.2 := by
  have hserved := served_of_reachable hk ⟨run, h⟩
  exact ⟨hserved.alone (part_signature H find) w, hserved.alone (part_anomaly H find) w,
    hserved.alone (part_cep H find) w⟩

/-- The second of two workers has recorded two alerts of its signature detector. -/
theorem detectors_alone_otherMillisecond :
    let x := (((pipeline 2 (engines Approximate fxWord findByEnd) 1).logged entries).exec
      ((pipeline 2 (engines Approximate fxWord findByEnd) 1).logged entries).init
        otherMillisecond).get (by decide +kernel)
    (recordedIn (entriesOf 1 x.2)).map Alert.id = [1, 2] ∧
      ReportsAlone .signature (signatureMachine findByEnd) 1 x.1 x.2 ∧
      ReportsAlone .anomaly (anomalyMachine Approximate fxWord 5000000000 0) 1 x.1 x.2 ∧
      ReportsAlone .cep (singleMachine CepEngine.withDefaultRules.rules) 1 x.1 x.2 := by
  intro x
  exact ⟨by decide +kernel, detectors_alone le_rfl (Option.some_get _).symm 1⟩

/-- Every alert of an event is about its source. -/
theorem about_of_inspect {d : WindowedAnomalyDetector F} {event : NetworkEvent} {alert : Alert}
    (h : alert ∈ (d.inspect H event).2) :
    alert.srcIp = ipToString event.srcIp ∧ alert.timestampMs = event.timestampMs := by
  refine ⟨?_, ((inspect_numbered d event).2.2.2 alert h).2.1⟩
  rw [inspect_eq] at h
  obtain h | h := List.mem_append.mp h
  · exact (mem_raised h).1 ▸ rfl
  · exact (mem_raised h).1 ▸ rfl

/-- The events that the anomaly detector of a worker has been asked about. -/
def observedBy (w : Fin n) (log : List (Fin n × Entry)) : List (Nat × NetworkEvent) :=
  askedOf .anomaly (askedIn (entriesOf w log))

/-- A worker has recorded an alert of a rule about a source, or is about to record it, and the alert
is on one of the events from `a` to `b`. -/
def Reported (rule : String) (ip : UInt32) (w : Fin n) (x : State n (Engines F) × List (Fin n × Entry))
    (a b : Nat) : Prop :=
  ∃ j y, a ≤ j ∧ j < b ∧ (observedBy w x.2)[j]? = some y ∧ y.2.srcIp = ip ∧
    ∃ alert ∈ recordedIn (entriesOf w x.2) ++ (x.1.worker w).pending,
      isAbout rule ip alert = true ∧ alert.timestampMs = y.2.timestampMs

/-- What the detector has answered in a window is reported. -/
theorem reported_of_answer (hserved : Served (engines F H find) x.1 x.2) {w : Fin n} {rule : String}
    {ip : UInt32} {a b : Nat}
    (hsome : alertsOf rule ip (slice (observed F H 5000000000 0 (observedBy w x.2)) a b) ≠ []) :
    Reported rule ip w x a b := by
  obtain ⟨alert, halert⟩ := List.exists_mem_of_ne_nil _ hsome
  obtain ⟨hmem, habout⟩ := List.mem_filter.mp halert
  obtain ⟨answer, hanswer, hin⟩ := List.mem_flatten.mp hmem
  obtain ⟨j, haj, hjb, hj⟩ := exists_of_mem_slice hanswer
  obtain ⟨y, hy⟩ : ∃ y, (observedBy w x.2)[j]? = some y := by
    have hlt := (List.getElem?_eq_some_iff.mp hj).1
    rw [observed, Mealy.length_outputs] at hlt
    exact ⟨_, List.getElem?_eq_getElem hlt⟩
  have hstep : answer = _ := Option.some.inj (hj.symm.trans (output_at (W := windowed F H 5000000000 0) hy))
  obtain ⟨hsrc, htime⟩ := about_of_inspect (hstep ▸ hin)
  obtain ⟨-, hip⟩ := Bool.and_eq_true_iff.mp habout
  refine ⟨j, y, haj, hjb, hy, ipToString_inj.mp (hsrc.symm.trans (eq_of_beq hip)), alert, ?_, habout, htime⟩
  have hreport := (hserved.alone (part_anomaly H find) w).alerts
  have hall : alert ∈ (observed F H 5000000000 0 (observedBy w x.2)).flatten :=
    List.mem_flatten.mpr ⟨answer, List.mem_of_getElem? hj, hin⟩
  exact (List.mem_filter.mp (hreport ▸ hall)).1

/-- Whatever the threads do, fifty SYNs of a source in one window of its worker's detector are
reported. -/
theorem flood_reported (hk : 1 ≤ k) {run : List (Action n)}
    (h : ((pipeline n (engines F H find) k).logged entries).exec
      ((pipeline n (engines F H find) k).logged entries).init run = some x) {w : Fin n} {a b : Nat}
    (seg : (windowed F H 5000000000 0).Segment (observedBy w x.2) a b) {ip : UInt32}
    (hsyns : 50 ≤ ((slice (observedBy w x.2) a b).map Prod.snd).countP (isSynOf ip)) :
    Reported "syn-flood-anomaly" ip w x a b :=
  reported_of_answer (served_of_reachable hk ⟨run, h⟩) (alerted_of_syns seg hsyns)

/-- So is a source whose port counter is at the threshold on one of its events, in whatever
floating-point arithmetic, and no later than this event. -/
theorem scan_reported (hk : 1 ≤ k) {run : List (Action n)}
    (h : ((pipeline n (engines F H find) k).logged entries).exec
      ((pipeline n (engines F H find) k).logged entries).init run = some x) {w : Fin n} {a b j : Nat}
    (seg : (windowed F H 5000000000 0).Segment (observedBy w x.2) a b) (haj : a ≤ j) (hjb : j < b)
    {y : Nat × NetworkEvent} (hy : (observedBy w x.2)[j]? = some y)
    (hports : Float64.le 25.0 ((portCounter H y.2.srcIp
      ((slice (observedBy w x.2) a (j + 1)).map Prod.snd)).estimate F) = true) :
    Reported "port-scan-anomaly" y.2.srcIp w x a (j + 1) :=
  reported_of_answer (served_of_reachable hk ⟨run, h⟩) (alerted_of_portCounter seg haj hjb hy hports)

end Runs

/-- One event goes through the queue, and to the first two detectors. -/
def inspectOne : List (Action 1) :=
  pushOne 1 ++ .pop 0 :: (List.replicate 5 (.popStep 0 false) ++ [.count 0, .detect 0 0, .detect 0 0])

/-- Fifty SYNs of one source. -/
def fiftySyns : List (Action 1) :=
  .nextBatch (List.replicate 50 (synEvent 42)) ::
    ((List.replicate 49 (inspectOne ++ [.detect 0 0, .done 0])).flatten ++ inspectOne)

set_option maxRecDepth 10000 in
theorem flood_reported_fiftySyns :
    let x := (((pipeline 1 (engines (Constant false) constantHasher findByEnd) 1).logged entries).exec
      ((pipeline 1 (engines (Constant false) constantHasher findByEnd) 1).logged entries).init
        fiftySyns).get (by decide +kernel)
    Reported "syn-flood-anomaly" 42 0 x 0 50 := by
  intro x
  have hobserved : observedBy 0 x.2 = List.replicate 50 (0, synEvent 42) := by decide +kernel
  have seg : (windowed (Constant false) constantHasher 5000000000 0).Segment (observedBy 0 x.2) 0 50 :=
    hobserved ▸ segment_of_early fun y hy => by
      rw [List.eq_of_mem_replicate hy]
      decide +kernel
  exact flood_reported le_rfl (Option.some_get _).symm seg (by rw [hobserved]; decide +kernel)

/-- Twenty-five ports of one source, in as many buckets. -/
def portsScanned : List (Action 1) :=
  .nextBatch (portWalk.map Prod.snd) ::
    ((List.replicate 24 (inspectOne ++ [.detect 0 0, .done 0])).flatten ++ inspectOne)

set_option maxRecDepth 10000 in
theorem observedBy_portsScanned :
    (((pipeline 1 (engines Approximate spreadHasher findByEnd) 1).logged entries).exec
      ((pipeline 1 (engines Approximate spreadHasher findByEnd) 1).logged entries).init
        portsScanned).map (fun x => observedBy 0 x.2) = some portWalk := by
  decide +kernel

theorem scan_reported_portsScanned : ∃ x,
    ((pipeline 1 (engines Approximate spreadHasher findByEnd) 1).logged entries).exec
      ((pipeline 1 (engines Approximate spreadHasher findByEnd) 1).logged entries).init
        portsScanned = some x ∧
    Reported "port-scan-anomaly" 42 0 x 0 25 := by
  obtain ⟨x, hrun, hobserved⟩ := Option.map_eq_some_iff.mp observedBy_portsScanned
  have seg : (windowed Approximate spreadHasher 5000000000 0).Segment (observedBy 0 x.2) 0 25 :=
    hobserved ▸ segment_of_early fun y hy => by
      obtain ⟨port, -, rfl⟩ := List.mem_map.mp hy
      exact show 0 - 0 < 5000000000 by decide
  have hlast : (observedBy 0 x.2)[24]? = some (0, { synEvent 42 with dstPort := 24 }) := by
    rw [hobserved]
    rfl
  exact ⟨x, hrun, scan_reported le_rfl hrun seg (by decide) (by decide) hlast (by
    rw [hobserved]
    decide +kernel)⟩

end ThreatEngine.Pipeline
