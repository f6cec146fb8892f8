import Mathlib.Data.List.Basic
import Mathlib.Logic.Function.Basic
import ThreatEngine.Lib.Guarded
import ThreatEngine.Queue.Call

/-! One queue shared by any number of threads under sequential consistency.
A thread may start any call whenever its last one has returned, and the
scheduler picks which thread takes the next atomic step. The history only
observes the steps; no step reads it. -/
namespace ThreatEngine.Queue

/-- In runs that are followed step by step, the numbers of one and of two threads rest on these. -/
scoped instance (priority := 1100) oneThread : NeZero 1 := ⟨Nat.one_ne_zero⟩
scoped instance (priority := 1100) twoThreads : NeZero 2 := ⟨Nat.succ_ne_zero 1⟩

variable {ι α : Type*} [DecidableEq ι]

inductive Event (ι α : Type*) where
  | pushClaim (t : ι) (pos : Nat) (item : α)
  | write (t : ι) (pos : Nat) (item : α)
  | pushOk (t : ι) (pos : Nat)
  | popClaim (t : ι) (pos : Nat)
  | take (t : ι) (pos : Nat) (item : Option α)
  | popOk (t : ι) (pos : Nat) (item : Option α)
  deriving DecidableEq

/-- What the history records of one atomic step. -/
def observe (t : ι) : Call α → Call α → List (Event ι α)
  | .pushCas _ _, .pushWrite item pos => [.pushClaim t pos item]
  | .pushWrite item pos, .pushStore _ => [.write t pos item]
  | .pushStore _, .pushOk pos => [.pushOk t pos]
  | .popCas _, .popTake pos => [.popClaim t pos]
  | .popTake pos, .popStore _ item => [.take t pos item]
  | .popStore _ _, .popOk pos item => [.popOk t pos item]
  | _, _ => []

structure State (ι α : Type*) where
  queue : MpmcQueue α
  call : ι → Call α
  history : List (Event ι α)

inductive Action (ι α : Type*) where
  | call (t : ι) (op : Op α)
  | step (t : ι) (spurious : Bool)
  deriving DecidableEq

def State.init (capacity : Nat) (h : 0 < capacity) : State ι α where
  queue := .ofCapacity capacity h
  call := fun _ => .idle
  history := []

def State.step (s : State ι α) : Action ι α → Option (State ι α)
  | .call t op =>
    if (s.call t).finished then some { s with call := Function.update s.call t op.start } else none
  | .step t spurious =>
    ((s.call t).step .unbounded spurious s.queue).map fun r =>
      { queue := r.1
        call := Function.update s.call t r.2
        history := s.history ++ observe t (s.call t) r.2 }

/-- The threads around a queue of capacity `2 ^ k`. -/
def threads (ι α : Type*) [DecidableEq ι] (k : Nat) : Guarded.System (State ι α) (Action ι α) where
  init := State.init (2 ^ k) (Nat.two_pow_pos k)
  step := State.step

/-- The items of successful push claims, in claim order. -/
def accepted (h : List (Event ι α)) : List α :=
  h.filterMap fun
    | .pushClaim _ _ item => some item
    | _ => none

/-- The results of completed pops, in the order of completion. -/
def returned (h : List (Event ι α)) : List (Nat × Option α) :=
  h.filterMap fun
    | .popOk _ pos item => some (pos, item)
    | _ => none

def pushClaims (h : List (Event ι α)) : List Nat :=
  h.filterMap fun
    | .pushClaim _ pos _ => some pos
    | _ => none

def popClaims (h : List (Event ι α)) : List Nat :=
  h.filterMap fun
    | .popClaim _ pos => some pos
    | _ => none

/-- The atomic steps over unbounded counters, each with what its guard says. -/
inductive Move (q : MpmcQueue α) : Call α → MpmcQueue α → Call α → Prop where
  | pushLoad (x) : Move q (.pushLoad x) q (.pushSeq x q.enqueuePos)
  | pushFree (x pos) (h : (q.slot pos).sequence = pos) : Move q (.pushSeq x pos) q (.pushCas x pos)
  | pushFull (x pos) (h : (q.slot pos).sequence < pos) : Move q (.pushSeq x pos) q (.pushFull x)
  | pushStale (x pos) (h : pos < (q.slot pos).sequence) : Move q (.pushSeq x pos) q (.pushLoad x)
  | pushClaim (x pos) (h : q.enqueuePos = pos) :
      Move q (.pushCas x pos) { q with enqueuePos := pos + 1 } (.pushWrite x pos)
  | pushRetry (x pos) : Move q (.pushCas x pos) q (.pushSeq x q.enqueuePos)
  | write (x pos) : Move q (.pushWrite x pos) (q.storeValue pos (some x)) (.pushStore pos)
  | publish (pos) : Move q (.pushStore pos) (q.storeSequence pos (pos + 1)) (.pushOk pos)
  | popLoad : Move q .popLoad q (.popSeq q.dequeuePos)
  | popReady (pos) (h : (q.slot pos).sequence = pos + 1) : Move q (.popSeq pos) q (.popCas pos)
  | popEmpty (pos) (h : (q.slot pos).sequence ≤ pos) : Move q (.popSeq pos) q .popEmpty
  | popStale (pos) (h : pos + 1 < (q.slot pos).sequence) : Move q (.popSeq pos) q .popLoad
  | popClaim (pos) (h : q.dequeuePos = pos) :
      Move q (.popCas pos) { q with dequeuePos := pos + 1 } (.popTake pos)
  | popRetry (pos) : Move q (.popCas pos) q (.popSeq q.dequeuePos)
  | take (pos) : Move q (.popTake pos) (q.storeValue pos none) (.popStore pos (q.slot pos).value)
  | release (pos) (r : Option α) :
      Move q (.popStore pos r) (q.storeSequence pos (pos + (q.mask + 1))) (.popOk pos r)

theorem pushDiff_unbounded (seq pos : Nat) : pushDiff .unbounded seq pos = (seq : Int) - pos := rfl

theorem popDiff_unbounded (seq pos : Nat) :
    popDiff .unbounded seq pos = (seq : Int) - (pos + 1) := rfl

theorem move_of_step {b : Bool} {q q' : MpmcQueue α} {c c' : Call α}
    (h : c.step .unbounded b q = some (q', c')) : Move q c q' c' := by
  cases c with
  | pushLoad x =>
    obtain ⟨rfl, rfl⟩ := by simpa [Call.step] using h
    exact .pushLoad x
  | pushSeq x pos =>
    simp only [Call.step] at h
    split at h
    · next h0 =>
      rw [pushDiff_unbounded] at h0
      obtain ⟨rfl, rfl⟩ := by simpa using h
      exact .pushFree x pos (by omega)
    · next h0 =>
      rw [pushDiff_unbounded] at h0
      split at h
      · next h1 =>
        rw [pushDiff_unbounded] at h1
        obtain ⟨rfl, rfl⟩ := by simpa using h
        exact .pushFull x pos (by omega)
      · next h1 =>
        rw [pushDiff_unbounded] at h1
        obtain ⟨rfl, rfl⟩ := by simpa using h
        exact .pushStale x pos (by omega)
  | pushCas x pos =>
    simp only [Call.step, Wrap.unbounded, id] at h
    split at h
    · next hc =>
      obtain ⟨rfl, rfl⟩ := by simpa using h
      exact .pushClaim x pos hc.2
    · obtain ⟨rfl, rfl⟩ := by simpa using h
      exact .pushRetry x pos
  | pushWrite x pos =>
    obtain ⟨rfl, rfl⟩ := by simpa [Call.step] using h
    exact .write x pos
  | pushStore pos =>
    obtain ⟨rfl, rfl⟩ := by simpa [Call.step, Wrap.unbounded] using h
    exact .publish pos
  | popLoad =>
    obtain ⟨rfl, rfl⟩ := by simpa [Call.step] using h
    exact .popLoad
  | popSeq pos =>
    simp only [Call.step] at h
    split at h
    · next h0 =>
      rw [popDiff_unbounded] at h0
      obtain ⟨rfl, rfl⟩ := by simpa using h
      exact .popReady pos (by omega)
    · next h0 =>
      rw [popDiff_unbounded] at h0
      split at h
      · next h1 =>
        rw [popDiff_unbounded] at h1
        obtain ⟨rfl, rfl⟩ := by simpa using h
        exact .popEmpty pos (by omega)
      · next h1 =>
        rw [popDiff_unbounded] at h1
        obtain ⟨rfl, rfl⟩ := by simpa using h
        exact .popStale pos (by omega)
  | popCas pos =>
    simp only [Call.step, Wrap.unbounded, id] at h
    split at h
    · next hc =>
      obtain ⟨rfl, rfl⟩ := by simpa using h
      exact .popClaim pos hc.2
    · obtain ⟨rfl, rfl⟩ := by simpa using h
      exact .popRetry pos
  | popTake pos =>
    obtain ⟨rfl, rfl⟩ := by simpa [Call.step] using h
    exact .take pos
  | popStore pos r =>
    obtain ⟨rfl, rfl⟩ := by simpa [Call.step, Wrap.unbounded, Nat.add_assoc] using h
    exact .release pos r
  | idle => simp [Call.step] at h
  | pushOk pos => simp [Call.step] at h
  | pushFull x => simp [Call.step] at h
  | popOk pos r => simp [Call.step] at h
  | popEmpty => simp [Call.step] at h

/-- The two kinds of transition of the system, as a caller of the step lemma sees them. -/
theorem step_cases {s u : State ι α} {a : Action ι α} (h : s.step a = some u) :
    (∃ t op, a = .call t op ∧ (s.call t).finished = true ∧
      u = { s with call := Function.update s.call t op.start }) ∨
    (∃ t b q' c', a = .step t b ∧ Move s.queue (s.call t) q' c' ∧
      u = ⟨q', Function.update s.call t c', s.history ++ observe t (s.call t) c'⟩) := by
  cases a with
  | call t op =>
    by_cases hf : (s.call t).finished = true
    · exact Or.inl ⟨t, op, rfl, hf, by simpa [State.step, hf] using h.symm⟩
    · simp [State.step, hf] at h
  | step t b =>
    obtain ⟨⟨q', c'⟩, hr, rfl⟩ := Option.map_eq_some_iff.mp h
    exact Or.inr ⟨t, b, q', c', rfl, move_of_step hr, rfl⟩

end ThreatEngine.Queue
