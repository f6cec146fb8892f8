import Mathlib.Data.List.Basic
import ThreatEngine.Lib.Residue

/-! The bounded ring buffer of `queue.rs`: every slot carries its own sequence
number, and a slot is found by masking a position. -/
namespace ThreatEngine.Queue
variable {α : Type*}

/-- How the results of `usize` and of `isize` operations are reduced. -/
structure Wrap where
  usize : Nat → Nat
  isize : Int → Int

def Wrap.unbounded : Wrap := ⟨id, id⟩

/-- A release build on a `w`-bit target: two's complement wrap-around. -/
def Wrap.release (w : Nat) : Wrap := ⟨fun n => n % 2 ^ w, fun x => Int.bmod x (2 ^ w)⟩

structure Slot (α : Type*) where
  sequence : Nat
  value : Option α
  deriving DecidableEq

/-- `inBounds` is what makes every masked index valid. -/
structure MpmcQueue (α : Type*) where
  buffer : List (Slot α)
  mask : Nat
  enqueuePos : Nat
  dequeuePos : Nat
  inBounds : mask < buffer.length

/-- What `new` builds once its assertion has passed. -/
def MpmcQueue.ofCapacity (capacity : Nat) (h : 0 < capacity) : MpmcQueue α where
  buffer := (List.range capacity).map fun i => ⟨i, none⟩
  mask := capacity - 1
  enqueuePos := 0
  dequeuePos := 0
  inBounds := by simpa using Nat.sub_lt h Nat.one_pos

/-- `none` is the failed assertion "capacity must be a power of two". -/
def MpmcQueue.new (capacity : Nat) : Option (MpmcQueue α) :=
  if h : capacity.isPowerOfTwo then some (.ofCapacity capacity (Nat.pos_of_isPowerOfTwo h)) else none

theorem MpmcQueue.index_lt (q : MpmcQueue α) (pos : Nat) : pos &&& q.mask < q.buffer.length :=
  Nat.lt_of_le_of_lt Nat.and_le_right q.inBounds

/-- `&self.buffer[pos & self.mask]`. -/
def MpmcQueue.slot (q : MpmcQueue α) (pos : Nat) : Slot α :=
  q.buffer.get ⟨pos &&& q.mask, q.index_lt pos⟩

def MpmcQueue.setSlot (q : MpmcQueue α) (pos : Nat) (s : Slot α) : MpmcQueue α :=
  { q with
    buffer := q.buffer.set (pos &&& q.mask) s
    inBounds := by simpa using q.inBounds }

/-- `slot.sequence.store(n)`. -/
def MpmcQueue.storeSequence (q : MpmcQueue α) (pos n : Nat) : MpmcQueue α :=
  q.setSlot pos { q.slot pos with sequence := n }

/-- `*slot.value.get() = v`. -/
def MpmcQueue.storeValue (q : MpmcQueue α) (pos : Nat) (v : Option α) : MpmcQueue α :=
  q.setSlot pos { q.slot pos with value := v }

@[simp] theorem storeSequence_mask (q : MpmcQueue α) (pos n : Nat) :
    (q.storeSequence pos n).mask = q.mask := rfl

@[simp] theorem storeSequence_enqueuePos (q : MpmcQueue α) (pos n : Nat) :
    (q.storeSequence pos n).enqueuePos = q.enqueuePos := rfl

@[simp] theorem storeSequence_dequeuePos (q : MpmcQueue α) (pos n : Nat) :
    (q.storeSequence pos n).dequeuePos = q.dequeuePos := rfl

@[simp] theorem storeValue_mask (q : MpmcQueue α) (pos : Nat) (v : Option α) :
    (q.storeValue pos v).mask = q.mask := rfl

@[simp] theorem storeValue_enqueuePos (q : MpmcQueue α) (pos : Nat) (v : Option α) :
    (q.storeValue pos v).enqueuePos = q.enqueuePos := rfl

@[simp] theorem storeValue_dequeuePos (q : MpmcQueue α) (pos : Nat) (v : Option α) :
    (q.storeValue pos v).dequeuePos = q.dequeuePos := rfl

@[simp] theorem slot_enqueuePos (q : MpmcQueue α) (n pos : Nat) :
    ({ q with enqueuePos := n } : MpmcQueue α).slot pos = q.slot pos := rfl

@[simp] theorem slot_dequeuePos (q : MpmcQueue α) (n pos : Nat) :
    ({ q with dequeuePos := n } : MpmcQueue α).slot pos = q.slot pos := rfl

theorem slot_setSlot (q : MpmcQueue α) (pos pos' : Nat) (s : Slot α) :
    (q.setSlot pos s).slot pos' = if pos &&& q.mask = pos' &&& q.mask then s else q.slot pos' := by
  simp [MpmcQueue.slot, MpmcQueue.setSlot, List.getElem_set]

theorem slot_congr (q : MpmcQueue α) {p p' : Nat} (h : p &&& q.mask = p' &&& q.mask) :
    q.slot p = q.slot p' := by
  simp [MpmcQueue.slot, h]

/-- A sequence store leaves every value alone and moves one slot's number. -/
theorem sequence_storeSequence (q : MpmcQueue α) (pos pos' n : Nat) :
    ((q.storeSequence pos n).slot pos').sequence =
      if pos &&& q.mask = pos' &&& q.mask then n else (q.slot pos').sequence := by
  rw [MpmcQueue.storeSequence, slot_setSlot]
  split <;> rfl

@[simp] theorem value_storeSequence (q : MpmcQueue α) (pos pos' n : Nat) :
    ((q.storeSequence pos n).slot pos').value = (q.slot pos').value := by
  rw [MpmcQueue.storeSequence, slot_setSlot]
  split
  · next h =>
    change (q.slot pos).value = _
    rw [slot_congr q h]
  · rfl

@[simp] theorem sequence_storeValue (q : MpmcQueue α) (pos pos' : Nat) (v : Option α) :
    ((q.storeValue pos v).slot pos').sequence = (q.slot pos').sequence := by
  rw [MpmcQueue.storeValue, slot_setSlot]
  split
  · next h =>
    change (q.slot pos).sequence = _
    rw [slot_congr q h]
  · rfl

theorem value_storeValue (q : MpmcQueue α) (pos pos' : Nat) (v : Option α) :
    ((q.storeValue pos v).slot pos').value =
      if pos &&& q.mask = pos' &&& q.mask then v else (q.slot pos').value := by
  rw [MpmcQueue.storeValue, slot_setSlot]
  split <;> rfl

@[simp] theorem ofCapacity_slot (capacity : Nat) (h : 0 < capacity) (pos : Nat) :
    (MpmcQueue.ofCapacity (α := α) capacity h).slot pos = ⟨pos &&& (capacity - 1), none⟩ := by
  simp [MpmcQueue.ofCapacity, MpmcQueue.slot]

end ThreatEngine.Queue
