import ThreatEngine.Detection.FxCollisions
import ThreatEngine.Detection.KnownBad
import ThreatEngine.Pipeline.Engines
import ThreatEngine.Pipeline.Reporting

/-! The key by which captured alerts are told apart. Every detector of every
worker counts for itself, so keys are unique only while no two workers give the
same id to alerts of one rule and one millisecond. -/
namespace ThreatEngine.Pipeline
open Detection
open scoped Queue

/-- `(a["id"], a["detector"], a["rule_name"], a["timestamp_ms"])`. -/
def alertKey (a : Alert) : UInt64 × DetectorKind × String × Int :=
  (a.id, a.detector, a.ruleName, a.timestampMs)

section Raised
variable {n : Nat} {δ : Type}

/-- The alert that a step passes to `record_alert`, with its worker. -/
def recordedAlerts (s : State n δ) : Action n → List (Fin n × Alert)
  | .fire w => ((s.worker w).pending.take 1).map fun a => (w, a)
  | _ => []

/-- The alerts that a worker's detectors have raised: those recorded and those that it still holds. -/
def raisedBy (x : State n δ × List (Fin n × Alert)) (w : Fin n) : List Alert :=
  (x.2.filter fun r => r.1 = w).map Prod.snd ++ (x.1.worker w).pending

/-- A worker that passes on `emitted` and goes on with what its detectors have added to the rest. -/
theorem raisedBy_setWorker (s : State n δ) (log : List (Fin n × Alert)) (w : Fin n) (c : Worker)
    (emitted alerts : List Alert) (h : emitted ++ c.pending = (s.worker w).pending ++ alerts)
    (v : Fin n) :
    raisedBy (s.setWorker w c, log ++ emitted.map fun a => (w, a)) v =
      if v = w then raisedBy (s, log) v ++ alerts else raisedBy (s, log) v := by
  simp only [raisedBy, State.setWorker, List.filter_append, List.map_append]
  split
  · next hv =>
    subst hv
    have hall : (emitted.map fun a => (v, a)).filter (fun r => r.1 = v) =
        emitted.map fun a => (v, a) :=
      List.filter_eq_self.mpr fun r hr => by
        obtain ⟨a, _, rfl⟩ := List.mem_map.mp hr
        exact decide_eq_true rfl
    have hsnd : (emitted.map fun a => (v, a)).map Prod.snd = emitted := by
      rw [List.map_map]
      exact List.map_id emitted
    rw [hall, hsnd, Function.update_self, List.append_assoc, h, List.append_assoc]
  · next hv =>
    have hnone : (emitted.map fun a => (w, a)).filter (fun r => r.1 = v) = [] :=
      List.filter_eq_nil_iff.mpr fun r hr => by
        obtain ⟨a, _, rfl⟩ := List.mem_map.mp hr
        exact fun he => hv (of_decide_eq_true he).symm
    rw [hnone, List.map_nil, List.append_nil, Function.update_of_ne hv]

variable [NeZero n] {D : Detectors δ} {s u : State n δ} {a : Action n}

/-- The step lemma: only detectors raise alerts, and only those of their worker. -/
theorem raisedBy_of_step (log : List (Fin n × Alert)) (hs : step D s a = some u) :
    u.detectors = s.detectors ∧
      (∀ v, raisedBy (u, log ++ recordedAlerts s a) v = raisedBy (s, log) v) ∨
    ∃ w now event kind kinds, a = .detect w now ∧ s.worker w = .detecting event (kind :: kinds) [] ∧
      u.detectors = Function.update s.detectors w (D.detect kind now event (s.detectors w)).1 ∧
      ∀ v, raisedBy (u, log ++ recordedAlerts s a) v =
        if v = w then raisedBy (s, log) v ++ (D.detect kind now event (s.detectors w)).2
        else raisedBy (s, log) v := by
  cases report_of_step hs with
  | quiet a u ha h =>
    have hlog : recordedAlerts s a = [] := by
      cases a <;> first | rfl | cases ha
    refine .inl ⟨h.detectors, fun v => ?_⟩
    have hpending : (u.worker v).pending = (s.worker v).pending := congrFun h.pending v
    simp only [raisedBy, hlog, List.append_nil, hpending]
  | detect w now event kind kinds h =>
    refine .inr ⟨w, now, event, kind, kinds, rfl, h, rfl, fun v => ?_⟩
    exact raisedBy_setWorker s log w _ [] _ (by rw [h]; rfl) v
  | fire w event kinds alert alerts h =>
    refine .inl ⟨rfl, fun v => ?_⟩
    have hlog : recordedAlerts s (.fire w) = [alert].map fun a => (w, a) := by
      rw [recordedAlerts, h]; rfl
    have hmove := raisedBy_setWorker s log w (.storing event kinds alert alerts) [alert] []
      (by rw [h]; simp [Worker.pending]) v
    rw [List.append_nil, ite_self] at hmove
    rw [hlog]
    exact hmove
  | store w event kinds alert alerts h =>
    refine .inl ⟨rfl, fun v => ?_⟩
    have hmove := raisedBy_setWorker s log w (.detecting event kinds alerts) [] []
      (by rw [h]; simp [Worker.pending]) v
    rw [List.append_nil, ite_self] at hmove
    exact hmove

end Raised

section Identity
variable {n : Nat} {F : Type} {find : OverlappingSearch}

def ofKind (kind : DetectorKind) (alerts : List Alert) : List Alert :=
  alerts.filter fun a => a.detector = kind

/-- When a worker hands an event to a detector, no other worker's detector of the
same kind has raised an alert on an event of the same millisecond, of a rule that
the event can fire, with an id that this detector may give now; and the ids of
this detector do not wrap. -/
def NoClash (find : OverlappingSearch) (x : State n (Engines F) × List (Fin n × Alert)) :
    Action n → Prop
  | .detect w _ => ∀ event kind kinds, x.1.worker w = .detecting event (kind :: kinds) [] →
      (ofKind kind (raisedBy x w)).length + (x.1.detectors w).atMost find event kind ≤ 2 ^ 64 ∧
      ∀ v, v ≠ w → ∀ a ∈ raisedBy x v, a.detector = kind → a.timestampMs = event.timestampMs →
        (x.1.detectors w).canFire find event a.ruleName kind →
        (x.1.detectors w).atMost find event kind ≤ (a.id - (x.1.detectors w).nextId kind).toNat
  | _ => True

/-- The same as a check. -/
def clashFree (find : OverlappingSearch) (x : State n (Engines F) × List (Fin n × Alert)) :
    Action n → Bool
  | .detect w _ =>
    match x.1.worker w with
    | .detecting event (kind :: _) [] =>
      decide ((ofKind kind (raisedBy x w)).length + (x.1.detectors w).atMost find event kind ≤ 2 ^ 64) &&
        decide (∀ v, v ≠ w → ∀ a ∈ raisedBy x v, a.detector = kind → a.timestampMs = event.timestampMs →
          (x.1.detectors w).canFire find event a.ruleName kind →
          (x.1.detectors w).atMost find event kind ≤ (a.id - (x.1.detectors w).nextId kind).toNat)
    | _ => true
  | _ => true

theorem noClash_of_clashFree {x : State n (Engines F) × List (Fin n × Alert)} {a : Action n}
    (h : clashFree find x a = true) : NoClash find x a := by
  cases a with
  | detect w now =>
    intro event kind kinds hw
    simp only [clashFree, hw, Bool.and_eq_true, decide_eq_true_eq] at h
    exact h
  | _ => trivial

/-- The invariant: every detector's alerts are numbered in the order in which it has
raised them, and no two workers have raised alerts with one key. -/
structure Identified (x : State n (Engines F) × List (Fin n × Alert)) : Prop where
  numbered : ∀ w kind, NumberedFrom 1 (ofKind kind (raisedBy x w))
  next : ∀ w kind, (x.1.detectors w).nextId kind = 1 + (ofKind kind (raisedBy x w)).length.toUInt64
  bounded : ∀ w kind, (ofKind kind (raisedBy x w)).length ≤ 2 ^ 64
  apart : ∀ v w, v ≠ w → ∀ a ∈ raisedBy x v, ∀ b ∈ raisedBy x w, alertKey a ≠ alertKey b

theorem Issued.ofKind {d : Engines F} {event : NetworkEvent} {kind : DetectorKind}
    {alerts : List Alert}
    (h : Issued find d event kind alerts) (kind' : DetectorKind) :
    ofKind kind' alerts = if kind' = kind then alerts else [] := by
  unfold Pipeline.ofKind
  split
  · next hk => exact List.filter_eq_self.mpr fun a ha =>
      decide_eq_true ((h.marked a ha).1.trans hk.symm)
  · next hk =>
    exact List.filter_eq_nil_iff.mpr fun a ha he =>
      hk ((of_decide_eq_true he).symm.trans (h.marked a ha).1)

/-- An alert whose id is out of reach has another key than all that are raised now. -/
theorem Issued.key_ne {d : Engines F} {event : NetworkEvent} {kind : DetectorKind}
    {alerts : List Alert}
    (h : Issued find d event kind alerts) (hmost : d.atMost find event kind ≤ 2 ^ 64) {a b : Alert}
    (hfar : a.detector = kind → a.timestampMs = event.timestampMs →
      d.canFire find event a.ruleName kind →
      d.atMost find event kind ≤ (a.id - d.nextId kind).toNat) (hb : b ∈ alerts) :
    alertKey a ≠ alertKey b := by
  intro he
  obtain ⟨hdetector, htime, hfire⟩ := h.marked b hb
  simp only [alertKey, Prod.mk.injEq] at he
  obtain ⟨hid, hkind, hrule, hms⟩ := he
  have hnear := h.numbered.offset_lt (h.length_le.trans hmost) hb
  have hfar := hfar (hkind.trans hdetector) (hms.trans htime) (hrule ▸ hfire)
  rw [hid] at hfar
  have := h.length_le
  omega

/-- The alerts of one worker. -/
theorem Identified.keys_of_worker {x : State n (Engines F) × List (Fin n × Alert)}
    (hi : Identified x) (w : Fin n) :
    (raisedBy x w).Pairwise fun a b => alertKey a ≠ alertKey b := by
  rw [List.pairwise_iff_getElem]
  intro i j hi' hj hij he
  have hids := (hi.numbered w (raisedBy x w)[i].detector).nodup (hi.bounded w _)
  rw [ofKind, List.Nodup, List.pairwise_map, List.pairwise_filter, List.pairwise_iff_getElem] at hids
  simp only [alertKey, Prod.mk.injEq] at he
  exact hids i j hi' hj hij (decide_eq_true rfl) (decide_eq_true he.2.1.symm) he.1

/-- The alerts that all workers have recorded. -/
theorem Identified.keys {x : State n (Engines F) × List (Fin n × Alert)} (hi : Identified x) :
    (x.2.map fun r => alertKey r.2).Nodup := by
  rw [List.Nodup, List.pairwise_map, List.pairwise_iff_getElem]
  intro i j hi' hj hij
  have hmem (m : Nat) (hm : m < x.2.length) : x.2[m].2 ∈ raisedBy x x.2[m].1 :=
    List.mem_append_left _ (List.mem_map.mpr
      ⟨x.2[m], List.mem_filter.mpr ⟨List.getElem_mem hm, decide_eq_true rfl⟩, rfl⟩)
  by_cases hw : x.2[i].1 = x.2[j].1
  · have hworker := (List.pairwise_append.mp (hi.keys_of_worker x.2[i].1)).1
    rw [List.pairwise_map, List.pairwise_filter, List.pairwise_iff_getElem] at hworker
    exact hworker i j hi' hj hij (decide_eq_true rfl) (decide_eq_true hw.symm)
  · exact hi.apart _ _ hw _ (hmem i hi') _ (hmem j hj)

variable [NeZero n] [Float64 F] {H : Hasher} {s u : State n (Engines F)}
    {log : List (Fin n × Alert)} {a : Action n}

theorem Identified.step (hi : Identified (s, log)) (hok : NoClash find (s, log) a)
    (hs : step (engines F H find) s a = some u) : Identified (u, log ++ recordedAlerts s a) := by
  obtain ⟨hdetectors, hraised⟩ | ⟨w, now, event, kind, kinds, rfl, hw, hdetectors, hraised⟩ :=
    raisedBy_of_step log hs
  · refine ⟨fun w kind => ?_, fun w kind => ?_, fun w kind => ?_, fun v w hne => ?_⟩
    · rw [hraised]
      exact hi.numbered w kind
    · rw [hraised, hdetectors]
      exact hi.next w kind
    · rw [hraised]
      exact hi.bounded w kind
    · rw [hraised, hraised]
      exact hi.apart v w hne
  · have hissued := detect_issued find (s.detectors w) event H kind now
    obtain ⟨hmost, hfar⟩ := hok event kind kinds hw
    generalize hnew :
      ((engines F H find).detect kind now event (s.detectors w)).2 = new at hraised hissued
    have hof (v kind') : ofKind kind' (raisedBy (u, log ++ recordedAlerts s (.detect w now)) v) =
        if v = w ∧ kind' = kind then ofKind kind (raisedBy (s, log) w) ++ new
        else ofKind kind' (raisedBy (s, log) v) := by
      rw [hraised]
      by_cases hv : v = w
      · by_cases hk : kind' = kind
        · simp only [hv, hk, ofKind, List.filter_append, and_self, if_true]
          exact congrArg _ ((hissued.ofKind kind).trans (if_pos rfl))
        · have hnone : ofKind kind' new = [] := (hissued.ofKind kind').trans (if_neg hk)
          simp only [ofKind] at hnone
          simp [hv, hk, ofKind, hnone]
      · simp [hv]
    have hnext (v kind') : (u.detectors v).nextId kind' =
        if v = w ∧ kind' = kind then (s.detectors w).nextId kind + new.length.toUInt64
        else (s.detectors v).nextId kind' := by
      rw [hdetectors]
      by_cases hv : v = w
      · rw [hv, Function.update_self, detect_nextId, hnew]
        simp
      · simp [hv]
    have hlen : (ofKind kind (raisedBy (s, log) w)).length + new.length ≤ 2 ^ 64 :=
      (Nat.add_le_add_left hissued.length_le _).trans hmost
    have hfresh (v) (hv : v ≠ w) (a) (ha : a ∈ raisedBy (s, log) v) (b) (hb : b ∈ new) :
        alertKey a ≠ alertKey b :=
      hissued.key_ne ((Nat.le_add_left _ _).trans hmost) (hfar v hv a ha) hb
    refine ⟨fun v kind' => ?_, fun v kind' => ?_, fun v kind' => ?_, fun v v' hne a ha b hb => ?_⟩
    · rw [hof]
      split
      · refine (hi.numbered w kind).append ?_
        rw [← hi.next w kind]
        exact hissued.numbered
      · exact hi.numbered v kind'
    · rw [hof, hnext]
      split
      · rw [hi.next w kind, List.length_append, add_offset]
      · exact hi.next v kind'
    · rw [hof]
      split
      · rw [List.length_append]
        exact hlen
      · exact hi.bounded v kind'
    · rw [hraised] at ha hb
      by_cases hv : v = w
      · subst hv
        rw [if_neg (Ne.symm hne)] at hb
        rw [if_pos rfl] at ha
        obtain hold | hnow := List.mem_append.mp ha
        · exact hi.apart v v' hne a hold b hb
        · exact (hfresh v' (Ne.symm hne) b hb a hnow).symm
      · rw [if_neg hv] at ha
        split at hb
        · next hv' =>
          obtain hold | hnow := List.mem_append.mp hb
          · exact hi.apart v v' hne a ha b hold
          · exact hfresh v hv a ha b hnow
        · exact hi.apart v v' hne a ha b hb

theorem identified_init (H : Hasher) (find : OverlappingSearch) (k : Nat) :
    Identified ((pipeline n (engines F H find) k).init, []) where
  numbered _ _ := numberedFrom_nil 1
  next _ kind := nextId_fresh H find kind
  bounded _ _ := Nat.zero_le _
  apart _ _ _ _ ha := absurd ha List.not_mem_nil

variable {k : Nat}

/-- In a run without clashes no two alerts passed to `record_alert` have the same key. -/
theorem alert_identity {run : List (Action n)} {x : State n (Engines F) × List (Fin n × Alert)}
    (hclear : ((pipeline n (engines F H find) k).logged recordedAlerts).Throughout (NoClash find) run)
    (hexec : ((pipeline n (engines F H find) k).logged recordedAlerts).exec
      ((pipeline n (engines F H find) k).logged recordedAlerts).init run = some x) :
    (x.2.map fun r => alertKey r.2).Nodup := by
  refine Identified.keys (hclear.rule (identified_init H find k) (fun x a y hx hok hs => ?_) hexec)
  obtain ⟨s, log⟩ := x
  obtain ⟨u, log'⟩ := y
  obtain rfl : log' = log ++ recordedAlerts s a := (Guarded.logged_step hs).2
  exact hx.step hok (Guarded.logged_step hs).1

end Identity

/-- One worker and one event. -/
def oneRecord : List (Action 1) := .nextBatch [cmdEvent 1] :: (pushOne 1 ++ recordOne 0)

/-- Each of two workers finds the same signature, in different milliseconds, and then one finds it
again in the millisecond of the other, under its next id. -/
def otherMillisecond : List (Action 2) :=
  .nextBatch [cmdEvent 1, { cmdEvent 2 with timestampMs := 1 }, cmdEvent 2] ::
    (pushOne 2 ++ pushOne 2 ++ recordOne 0 ++ recordOne 1 ++ goOn 1 ++ pushOne 2 ++ recordOne 1)

theorem alert_identity_otherMillisecond :
    let S := (pipeline 2 (engines Approximate fxWord findByEnd) 1).logged recordedAlerts
    let x := (S.exec S.init otherMillisecond).get (by decide +kernel)
    x.2.map (fun r => (r.1, r.2.ruleName, r.2.id, r.2.timestampMs)) =
      [(0, "windows-cmd-exec", 1, 0), (1, "windows-cmd-exec", 1, 1), (1, "windows-cmd-exec", 2, 0)] ∧
    (x.2.map fun r => alertKey r.2).Nodup := by
  intro S x
  have hchecks : S.checks (clashFree findByEnd) S.init otherMillisecond = true := by decide +kernel
  have hclear : S.Throughout (NoClash findByEnd) otherMillisecond := fun pre a post y hrun hpre =>
    noClash_of_clashFree (Guarded.throughout_of_checks hchecks pre a post y hrun hpre)
  exact ⟨by decide +kernel, alert_identity hclear (Option.some_get _).symm⟩

/-- Two workers each find the same signature in an event of the same millisecond. -/
def sameMillisecond : List (Action 2) :=
  .nextBatch [cmdEvent 1, cmdEvent 2] :: (pushOne 2 ++ pushOne 2 ++ recordOne 0 ++ recordOne 1)

/-- What they record. -/
def sameKey : List (Fin 2 × Alert) :=
  [(0, SignatureDetector.withDefaultRules.alert (cmdEvent 1) 1 ⟨3, by decide⟩),
    (1, SignatureDetector.withDefaultRules.alert (cmdEvent 2) 1 ⟨3, by decide⟩)]

theorem recorded_sameMillisecond :
    (((pipeline 2 (engines ℝ fxWord findByEnd) 1).logged recordedAlerts).exec
      ((pipeline 2 (engines ℝ fxWord findByEnd) 1).logged recordedAlerts).init sameMillisecond).map
        Prod.snd =
        some sameKey := by
  decide +kernel

theorem keys_repeat : ¬ ∀ find : OverlappingSearch, find.Complete →
    ∀ (n : Nat) [NeZero n] (k : Nat) (run : List (Action n))
      (x : State n (Engines ℝ) × List (Fin n × Alert)),
    ((pipeline n (engines ℝ fxWord find) k).logged recordedAlerts).exec
      ((pipeline n (engines ℝ fxWord find) k).logged recordedAlerts).init run = some x →
    ∀ r ∈ x.2, ∀ r' ∈ x.2, alertKey r.2 = alertKey r'.2 → r.2 = r'.2 := by
  intro hall
  obtain ⟨x, hexec, hx⟩ := Option.map_eq_some_iff.mp recorded_sameMillisecond
  have hmem (r : Fin 2 × Alert) (hr : r ∈ sameKey) : r ∈ x.2 := hx ▸ hr
  have heq := hall findByEnd findByEnd_complete 2 1 sameMillisecond x hexec
    _ (hmem _ List.mem_cons_self) _ (hmem _ (List.mem_cons_of_mem _ List.mem_cons_self)) rfl
  exact absurd heq (by decide +kernel)

end ThreatEngine.Pipeline
