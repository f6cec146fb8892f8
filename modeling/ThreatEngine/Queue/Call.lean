import ThreatEngine.Queue.Ring

/-! `push` and `pop` as programs of atomic steps: one constructor of `Call` for
every point at which a thread is about to load, compare-exchange, write, take
or store, and one for every return. Computation between two atomic operations
belongs to the earlier one. -/
namespace ThreatEngine.Queue
variable {α : Type*}

inductive Op (α : Type*) where
  | push (item : α)
  | pop
  deriving DecidableEq

/-- What a call returns: `Result<(), T>` for `push`, `Option<T>` for `pop`. -/
inductive Result (α : Type*) where
  | pushed (r : Except α Unit)
  | popped (r : Option α)
  deriving DecidableEq

/-- The program counter of one thread, with the locals that are alive there. -/
inductive Call (α : Type*) where
  | idle
  | pushLoad (item : α)
  | pushSeq (item : α) (pos : Nat)
  | pushCas (item : α) (pos : Nat)
  | pushWrite (item : α) (pos : Nat)
  | pushStore (pos : Nat)
  | pushOk (pos : Nat)
  | pushFull (item : α)
  | popLoad
  | popSeq (pos : Nat)
  | popCas (pos : Nat)
  | popTake (pos : Nat)
  | popStore (pos : Nat) (item : Option α)
  | popOk (pos : Nat) (item : Option α)
  | popEmpty
  deriving DecidableEq

def Op.start : Op α → Call α
  | .push item => .pushLoad item
  | .pop => .popLoad

def Call.result : Call α → Option (Result α)
  | .pushOk _ => some (.pushed (.ok ()))
  | .pushFull item => some (.pushed (.error item))
  | .popOk _ item => some (.popped item)
  | .popEmpty => some (.popped none)
  | _ => none

/-- No operation of the call is left to run. -/
def Call.finished : Call α → Bool
  | .idle | .pushOk _ | .pushFull _ | .popOk _ _ | .popEmpty => true
  | _ => false

/-- `seq as isize - pos as isize`. -/
def pushDiff (A : Wrap) (seq pos : Nat) : Int :=
  A.isize (A.isize seq - A.isize pos)

/-- `seq as isize - (pos as isize + 1)`. -/
def popDiff (A : Wrap) (seq pos : Nat) : Int :=
  A.isize (A.isize seq - A.isize (A.isize pos + 1))

/-- One atomic operation of a call. `spurious` lets the weak compare-exchange
fail although the position has not moved. -/
def Call.step (A : Wrap) (spurious : Bool) (q : MpmcQueue α) :
    Call α → Option (MpmcQueue α × Call α)
  | .pushLoad item => some (q, .pushSeq item q.enqueuePos)
  | .pushSeq item pos =>
    let diff := pushDiff A (q.slot pos).sequence pos
    if diff = 0 then some (q, .pushCas item pos)
    else if diff < 0 then some (q, .pushFull item)
    else some (q, .pushLoad item)
  | .pushCas item pos =>
    if spurious = false ∧ q.enqueuePos = pos then
      some ({ q with enqueuePos := A.usize (pos + 1) }, .pushWrite item pos)
    else some (q, .pushSeq item q.enqueuePos)
  | .pushWrite item pos => some (q.storeValue pos (some item), .pushStore pos)
  | .pushStore pos => some (q.storeSequence pos (A.usize (pos + 1)), .pushOk pos)
  | .popLoad => some (q, .popSeq q.dequeuePos)
  | .popSeq pos =>
    let diff := popDiff A (q.slot pos).sequence pos
    if diff = 0 then some (q, .popCas pos)
    else if diff < 0 then some (q, .popEmpty)
    else some (q, .popLoad)
  | .popCas pos =>
    if spurious = false ∧ q.dequeuePos = pos then
      some ({ q with dequeuePos := A.usize (pos + 1) }, .popTake pos)
    else some (q, .popSeq q.dequeuePos)
  | .popTake pos => some (q.storeValue pos none, .popStore pos (q.slot pos).value)
  | .popStore pos item =>
    some (q.storeSequence pos (A.usize (A.usize (pos + q.mask) + 1)), .popOk pos item)
  | .idle | .pushOk _ | .pushFull _ | .popOk _ _ | .popEmpty => none

/-- The position a push holds between its compare-exchange and its sequence store. -/
def Call.pushing : Call α → Option Nat
  | .pushWrite _ pos | .pushStore pos => some pos
  | _ => none

/-- The position a pop holds between its compare-exchange and its sequence store. -/
def Call.popping : Call α → Option Nat
  | .popTake pos | .popStore pos _ => some pos
  | _ => none

theorem step_eq_none_iff (A : Wrap) (b : Bool) (q : MpmcQueue α) (c : Call α) :
    c.step A b q = none ↔ c.finished = true := by
  cases c <;> simp only [Call.step, Call.finished] <;> (try split) <;> (try split) <;> simp

end ThreatEngine.Queue
