import Mathlib.Algebra.BigOperators.Group.Finset.Piecewise
import Mathlib.Data.List.DropRight
import ThreatEngine.Lib.Exchange
import ThreatEngine.Pipeline.Reporting

/-! The alert store under any number of recording threads and any reads. The
store is the tail of what has been pushed; every read is the tail of that. -/
namespace ThreatEngine.Pipeline
open scoped Queue
variable {n : Nat} {ι δ : Type}

/-- `AppState::new`. -/
def AppState.new (n capacity : Nat) (h : 0 < capacity) : AppState n where
  queues := fun _ => .init capacity h
  alerts := []
  eventsProcessed := 0
  eventsDropped := 0
  alertsFired := 0

/-- The `/alerts` handler, under the lock. -/
def AppState.readAlerts (app : AppState n) (limit : Option Nat) : List Alert :=
  app.alerts.reverse.take (min (limit.getD 200) 5000)

/-- A read: its limit, what had been pushed when it was made, and its answer. -/
structure AlertsRead where
  limit : Option Nat
  seen : List Alert
  answer : List Alert

/-- The store among threads that are outside `record_alert` or have counted an
alert that they have not stored yet. The lists `pushed` and `reads` only observe. -/
structure History (ι : Type) (n : Nat) where
  app : AppState n
  recording : ι → Option Alert
  pushed : List Alert
  reads : List AlertsRead

inductive HistoryAction (ι : Type) where
  | count (i : ι) (alert : Alert)
  | store (i : ι)
  | read (limit : Option Nat)

def History.step [DecidableEq ι] (h : History ι n) : HistoryAction ι → Option (History ι n)
  | .count i alert =>
    match h.recording i with
    | none =>
      some { h with
        app := h.app.countAlert
        recording := Function.update h.recording i (some alert) }
    | some _ => none
  | .store i =>
    match h.recording i with
    | some alert =>
      some { h with
        app := h.app.storeAlert alert
        recording := Function.update h.recording i none
        pushed := h.pushed ++ [alert] }
    | none => none
  | .read limit => some { h with reads := h.reads ++ [⟨limit, h.pushed, h.app.readAlerts limit⟩] }

/-- The threads `ι` around a new `AppState`. -/
def alertHistory (ι : Type) [DecidableEq ι] (n capacity : Nat) (h : 0 < capacity) :
    Guarded.System (History ι n) (HistoryAction ι) where
  init := ⟨.new n capacity h, fun _ => none, [], []⟩
  step := History.step

/-- Pushing onto the last `cap` entries and dropping the first beyond `cap`
leaves the last `cap` entries. -/
theorem rtake_push {β : Type*} {cap : Nat} (hcap : 0 < cap) (l : List β) (x : β) :
    (if cap < (l.rtake cap ++ [x]).length then (l.rtake cap ++ [x]).tail else l.rtake cap ++ [x]) =
      (l ++ [x]).rtake cap := by
  have hlen : (l.rtake cap ++ [x]).length = min cap l.length + 1 := by
    rw [List.rtake, List.length_append, List.length_drop, List.length_singleton]
    omega
  have hle : l.length - cap ≤ l.length := Nat.sub_le _ _
  have happ : l.rtake cap ++ [x] = (l ++ [x]).drop (l.length - cap) := by
    rw [List.rtake, List.drop_append_of_le_length hle]
  rw [hlen]
  split
  · next hfull =>
    rw [happ, List.tail_drop, List.rtake, List.length_append, List.length_singleton]
    congr 1
    omega
  · next hroom =>
    rw [happ, List.rtake, List.length_append, List.length_singleton]
    congr 1
    omega

theorem length_rtake {β : Type*} (l : List β) (cap : Nat) :
    (l.rtake cap).length = min l.length cap := by
  rw [List.rtake, List.length_drop]
  omega

section History
variable [Fintype ι] [DecidableEq ι]

/-- The invariant. -/
structure Kept (h : History ι n) : Prop where
  alerts : h.app.alerts = h.pushed.rtake alertHistoryCap
  fired : h.app.alertsFired = h.pushed.length + ∑ i, (h.recording i).isSome.toNat
  reads : ∀ r ∈ h.reads, r.seen <+: h.pushed ∧
    r.answer = r.seen.reverse.take (min (r.limit.getD 200) alertHistoryCap)

variable {h u : History ι n}

theorem sum_recording_update (recording : ι → Option Alert) (i : ι) (r : Option Alert) :
    ∑ j, (Function.update recording i r j).isSome.toNat + (recording i).isSome.toNat =
      ∑ j, (recording j).isSome.toNat + r.isSome.toNat :=
  Exchange.sum_update_add (fun r => r.isSome.toNat) recording i r

omit [Fintype ι] [DecidableEq ι] in
/-- What a read finds in a store that is the tail of what has been pushed. -/
theorem readAlerts_eq (halerts : h.app.alerts = h.pushed.rtake alertHistoryCap)
    (limit : Option Nat) :
    h.app.readAlerts limit = h.pushed.reverse.take (min (limit.getD 200) alertHistoryCap) := by
  rw [AppState.readAlerts, halerts, List.rtake_eq_reverse_take_reverse, List.reverse_reverse, List.take_take,
    alertHistoryCap, min_assoc, min_self]

/-- The step lemma. -/
theorem Kept.step (hk : Kept h) {a : HistoryAction ι} (hs : h.step a = some u) : Kept u := by
  cases a with
  | count i alert =>
    simp only [History.step] at hs
    split at hs
    · next hi =>
      obtain rfl := Option.some.inj hs
      have hsum := sum_recording_update h.recording i (some alert)
      have hfired := hk.fired
      rw [hi] at hsum
      refine ⟨hk.alerts, ?_, hk.reads⟩
      simp only [AppState.countAlert, Option.isSome_none, Option.isSome_some, Bool.toNat_false,
        Bool.toNat_true] at hsum ⊢
      omega
    · cases hs
  | store i =>
    simp only [History.step] at hs
    split at hs
    · next alert hi =>
      obtain rfl := Option.some.inj hs
      have hsum := sum_recording_update h.recording i none
      have hfired := hk.fired
      rw [hi] at hsum
      refine ⟨?_, ?_, fun r hr => ?_⟩
      · rw [← rtake_push (by decide), ← hk.alerts]
        rfl
      · simp only [AppState.storeAlert, List.length_append, List.length_singleton, Option.isSome_none,
          Option.isSome_some, Bool.toNat_false, Bool.toNat_true] at hsum ⊢
        omega
      · obtain ⟨hpre, hanswer⟩ := hk.reads r hr
        exact ⟨hpre.trans (List.prefix_append _ _), hanswer⟩
    · cases hs
  | read limit =>
    obtain rfl := Option.some.inj hs
    refine ⟨hk.alerts, hk.fired, fun r hr => ?_⟩
    obtain hold | hnew := List.mem_append.mp hr
    · exact hk.reads r hold
    · obtain rfl := List.mem_singleton.mp hnew
      exact ⟨List.prefix_refl _, readAlerts_eq hk.alerts limit⟩

theorem kept_of_reachable {n capacity : Nat} {hc : 0 < capacity} {h : History ι n}
    (hr : (alertHistory ι n capacity hc).Reachable h) : Kept h := by
  refine hr.rule (P := Kept) ⟨?_, ?_, by simp [alertHistory]⟩ fun h a u _ ih hs => ih.step hs
  · simp [alertHistory, AppState.new]
  · simp [alertHistory, AppState.new]

/-- In every interleaving: the store is the last 5000 alerts pushed, a read is
the last alerts pushed when it was made, newest first, and the counter is ahead
of the pushes by the calls that have counted and not stored. -/
theorem alert_history {n capacity : Nat} {hc : 0 < capacity} {h : History ι n}
    (hr : (alertHistory ι n capacity hc).Reachable h) :
    (h.app.alerts = h.pushed.rtake 5000 ∧ h.app.alerts.length = min h.pushed.length 5000) ∧
    (∀ r ∈ h.reads, r.seen <+: h.pushed ∧
      r.answer = r.seen.reverse.take (min (r.limit.getD 200) 5000) ∧
      r.answer.length = min (min (r.limit.getD 200) 5000) r.seen.length) ∧
    (∀ limit, h.app.readAlerts limit = h.pushed.reverse.take (min (limit.getD 200) 5000)) ∧
    h.pushed.length ≤ h.app.alertsFired ∧
    ((∀ i, h.recording i = none) → h.app.alertsFired = h.pushed.length) := by
  have hk := kept_of_reachable hr
  refine ⟨⟨hk.alerts, ?_⟩, fun r hm => ?_, readAlerts_eq hk.alerts, ?_, fun hidle => ?_⟩
  · rw [hk.alerts, length_rtake, alertHistoryCap]
  · obtain ⟨hpre, hanswer⟩ := hk.reads r hm
    refine ⟨hpre, hanswer, ?_⟩
    simp only [hanswer, List.length_take, List.length_reverse, alertHistoryCap]
  · rw [hk.fired]
    exact Nat.le_add_right _ _
  · rw [hk.fired]
    simp [hidle]

/-- An alert that says nothing but its number. -/
def numbered (id : UInt64) : Alert := ⟨id, 0, "", .low, "", "", "", .signature⟩

/-- Two threads that both count before either stores, and two reads. -/
def overlapping : List (HistoryAction (Fin 2)) :=
  [.count 0 (numbered 1), .count 1 (numbered 2), .store 1, .read none, .store 0, .read (some 1)]

/-- The history afterwards. -/
def overlapped : History (Fin 2) 2 where
  app := (((AppState.new 2 1 one_pos).countAlert.countAlert).storeAlert (numbered 2)).storeAlert
    (numbered 1)
  recording := Function.update (Function.update (Function.update (Function.update (fun _ => none)
    0 (some (numbered 1))) 1 (some (numbered 2))) 1 none) 0 none
  pushed := [numbered 2, numbered 1]
  reads := [⟨none, [numbered 2], [numbered 2]⟩, ⟨some 1, [numbered 2, numbered 1], [numbered 1]⟩]

theorem alert_history_overlapped :
    overlapped.app.readAlerts (some 1) = [numbered 1] ∧ overlapped.app.alertsFired = 2 := by
  have hr : (alertHistory (Fin 2) 2 1 one_pos).Reachable overlapped := ⟨overlapping, rfl⟩
  have hall := alert_history hr
  exact ⟨hall.2.2.1 (some 1), hall.2.2.2.2 (by decide)⟩

end History

section Pipeline

/-- The alerts that a step of the pipeline stores. -/
def storedAlerts (s : State n δ) : Action n → List Alert
  | .store w => (s.worker w).recording.toList
  | _ => []

/-- The alert store of a pipeline whose steps have stored `pushed`. -/
def historyOf (capacity : Nat) (hc : 0 < capacity) (x : State n δ × List Alert) :
    History (Fin n) n where
  app := { AppState.new n capacity hc with alerts := x.1.alerts, alertsFired := x.1.alertsFired }
  recording w := (x.1.worker w).recording
  pushed := x.2
  reads := []

variable [NeZero n] {D : Detectors δ} {k : Nat}

/-- The pipeline's workers are recording threads of the alert history. -/
theorem history_of_pipeline {x : State n δ × List Alert}
    (hr : ((pipeline n D k).logged storedAlerts).Reachable x) :
    (alertHistory (Fin n) n (2 ^ k) (Nat.two_pow_pos k)).Reachable
      (historyOf (2 ^ k) (Nat.two_pow_pos k) x) := by
  refine Guarded.System.Reachable.project (historyOf (2 ^ k) (Nat.two_pow_pos k))
    (Guarded.System.Reachable.start (alertHistory (Fin n) n (2 ^ k) (Nat.two_pow_pos k)))
    (fun x a y _ hs => ?_) hr
  obtain ⟨s, pushed⟩ := x
  obtain ⟨u, pushed'⟩ := y
  have hstep : step D s a = some u := (Guarded.logged_step hs).1
  obtain rfl : pushed' = pushed ++ storedAlerts s a := (Guarded.logged_step hs).2
  cases report_of_step hstep with
  | quiet a u ha h =>
    left
    have hlog : storedAlerts s a = [] := by
      cases a <;> first | rfl | cases ha
    simp only [historyOf, h.alerts, h.fired, h.recording, hlog, List.append_nil]
  | detect w now event kind kinds h =>
    left
    have hsame :
        Worker.recording (.detecting event kinds (D.detect kind now event (s.detectors w)).2) =
        (s.worker w).recording := by rw [h]; rfl
    simp only [historyOf, storedAlerts, List.append_nil, recording_setWorker, hsame]
    rw [Function.update_eq_self w fun v => (s.worker v).recording]
    rfl
  | fire w event kinds alert alerts h =>
    refine .inr ⟨.count w alert, ?_⟩
    have hnone : (s.worker w).recording = none := by rw [h]; rfl
    simp only [alertHistory, History.step, historyOf, hnone, storedAlerts, List.append_nil,
      recording_setWorker]
    rfl
  | store w event kinds alert alerts h =>
    refine .inr ⟨.store w, ?_⟩
    have hsome : (s.worker w).recording = some alert := by rw [h]; rfl
    simp only [alertHistory, History.step, historyOf, hsome, storedAlerts, recording_setWorker]
    rfl

/-- Whatever the threads do, the store holds the last 5000 alerts stored, and the
counter is ahead of them by the workers that have counted and not stored. -/
theorem pipeline_alert_store {s : State n δ} (hr : (pipeline n D k).Reachable s) :
    ∃ stored : List Alert, s.alerts = stored.rtake alertHistoryCap ∧
      s.alertsFired = stored.length + ∑ w, (s.worker w).recording.isSome.toNat := by
  obtain ⟨stored, hlog⟩ := hr.log storedAlerts
  have hk := kept_of_reachable (history_of_pipeline hlog)
  exact ⟨stored, hk.alerts, hk.fired⟩

end Pipeline

end ThreatEngine.Pipeline
