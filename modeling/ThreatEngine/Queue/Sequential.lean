import ThreatEngine.Lib.Loop
import ThreatEngine.Queue.Call

/-! One thread alone with the queue. Every call runs until it returns, whatever
number of spurious failures its compare-exchange meets. What the queue holds is
a list, at positions of an unbounded count that the counters reduce. -/
namespace ThreatEngine.Queue
variable {α : Type*}

/-- A call on its own: the queue, the program counter, and how many times the
weak compare-exchange is still going to fail spuriously. -/
structure Solo (α : Type*) where
  queue : MpmcQueue α
  call : Call α
  spurious : Nat

/-- The next atomic operation of the call is its compare-exchange. -/
def Call.comparing : Call α → Bool
  | .pushCas _ _ | .popCas _ => true
  | _ => false

def Solo.step (A : Wrap) (s : Solo α) : Option (Solo α) :=
  (s.call.step A (decide (0 < s.spurious)) s.queue).map fun r =>
    ⟨r.1, r.2, if s.call.comparing then s.spurious - 1 else s.spurious⟩

def Solo.done (s : Solo α) : Option (MpmcQueue α × Result α) :=
  s.call.result.map fun r => (s.queue, r)

/-- The results of a sequence of calls, each with its number of spurious
failures. `none` when some call has not returned within `fuel` steps. -/
def MpmcQueue.serve (A : Wrap) (fuel : Nat) :
    MpmcQueue α → List (Op α × Nat) → Option (List (Result α))
  | _, [] => some []
  | q, (op, spurious) :: ops =>
    (Loop.run (Solo.step A) Solo.done fuel ⟨q, op.start, spurious⟩).bind fun r =>
      (r.1.serve A fuel ops).map (r.2 :: ·)

/-- What the arithmetic of the counters must keep of the unbounded one. -/
structure Wrap.Lawful (A : Wrap) (cap : Nat) : Prop where
  small : ∀ a, a < cap → A.usize a = a
  succ : ∀ a, A.usize (A.usize a + 1) = A.usize (a + 1)
  round : ∀ a m, A.usize (A.usize (A.usize a + m) + 1) = A.usize (a + (m + 1))
  index : ∀ a, A.usize a &&& (cap - 1) = a &&& (cap - 1)
  push_diff : ∀ a b, a ≤ b → b < a + cap → pushDiff A (A.usize a) (A.usize b) = (a : Int) - b
  pop_diff : ∀ a b, b ≤ a → a ≤ b + 1 → popDiff A (A.usize a) (A.usize b) = (a : Int) - (b + 1)

theorem lawful_unbounded (cap : Nat) : Wrap.unbounded.Lawful cap where
  small _ _ := rfl
  succ _ := rfl
  round _ _ := rfl
  index _ := rfl
  push_diff _ _ _ _ := rfl
  pop_diff _ _ _ _ := rfl

theorem lawful_release {w k : Nat} (hk : k < w) : (Wrap.release w).Lawful (2 ^ k) where
  small a ha := Nat.mod_eq_of_lt (ha.trans (Nat.pow_lt_pow_right (by omega) hk))
  succ a := by simp [Wrap.release]
  round a m := by simp [Wrap.release, Nat.add_assoc]
  index a := by
    simp only [Wrap.release, Nat.and_two_pow_sub_one_eq_mod]
    exact Nat.mod_mod_of_dvd a (Nat.pow_dvd_pow 2 hk.le)
  push_diff a b hab hb := by
    obtain ⟨v, rfl⟩ : ∃ v, w = v + 1 := ⟨w - 1, by omega⟩
    have hle : 2 ^ k ≤ 2 ^ v := Nat.pow_le_pow_right Nat.two_pos (by omega)
    have hle' : ((2 ^ k : Nat) : Int) ≤ ((2 ^ v : Nat) : Int) := Int.ofNat_le.mpr hle
    push_cast at hle'
    simp only [pushDiff, Wrap.release, Residue.bmod_natCast_mod, Residue.bmod_sub_bmod]
    have hb' : (b : Int) < a + 2 ^ k := by exact_mod_cast hb
    have hpos : (0 : Int) < 2 ^ v := Int.pow_pos (by decide)
    exact Residue.bmod_of_range (by omega) (by omega)
  pop_diff a b hba hab := by
    obtain ⟨v, rfl⟩ : ∃ v, w = v + 1 := ⟨w - 1, by omega⟩
    have hpos : (0 : Int) < 2 ^ v := Int.pow_pos (by decide)
    simp only [popDiff, Wrap.release, Residue.bmod_natCast_mod, Int.bmod_add_bmod, Residue.bmod_sub_bmod]
    exact Residue.bmod_of_range (by omega) (by omega)

/-- The queue holds `items`, the oldest at position `d` of an unbounded count. -/
structure Holds (A : Wrap) (cap : Nat) (q : MpmcQueue α) (d : Nat) (items : List α) : Prop where
  mask : q.mask + 1 = cap
  index : ∀ p p', p &&& q.mask = p' &&& q.mask ↔ p % cap = p' % cap
  deq : q.dequeuePos = A.usize d
  enq : q.enqueuePos = A.usize (d + items.length)
  length_le : items.length ≤ cap
  sequence : ∀ i, i < cap →
    (q.slot (d + i)).sequence = A.usize (if i < items.length then d + i + 1 else d + i)
  value : ∀ i, i < cap → (q.slot (d + i)).value = items[i]?

/-- The queue after a push that claimed `pos`. -/
def MpmcQueue.pushed (A : Wrap) (q : MpmcQueue α) (pos : Nat) (item : α) : MpmcQueue α :=
  (({ q with enqueuePos := A.usize (pos + 1) } : MpmcQueue α).storeValue pos (some item)).storeSequence
    pos (A.usize (pos + 1))

/-- The queue after a pop that claimed `pos`. -/
def MpmcQueue.popped (A : Wrap) (q : MpmcQueue α) (pos : Nat) : MpmcQueue α :=
  (({ q with dequeuePos := A.usize (pos + 1) } : MpmcQueue α).storeValue pos none).storeSequence
    pos (A.usize (A.usize (pos + q.mask) + 1))

section Refinement
variable {A : Wrap} {cap d : Nat} {q : MpmcQueue α} {items : List α}

theorem Holds.index_usize (h : Holds A cap q d items) (hA : A.Lawful cap) (p : Nat) :
    A.usize p &&& q.mask = p &&& q.mask := by
  obtain rfl : cap = q.mask + 1 := h.mask.symm
  exact hA.index p

theorem Holds.slot_usize (h : Holds A cap q d items) (hA : A.Lawful cap) (p : Nat) :
    q.slot (A.usize p) = q.slot p := slot_congr q (h.index_usize hA p)

theorem Holds.cap_pos (h : Holds A cap q d items) : 0 < cap := by
  have := h.mask
  omega

theorem Holds.same_slot (h : Holds A cap q d items) {p p' : Nat} (hp : p % cap = p' % cap) :
    q.slot p = q.slot p' := slot_congr q ((h.index p p').mpr hp)

/-- Of the window of the queue, only its own index meets a position. -/
theorem Holds.meets_iff (h : Holds A cap q d items) {i j : Nat} (hi : i < cap) (hj : j < cap) :
    (d + i) &&& q.mask = (d + j) &&& q.mask ↔ i = j := by
  rw [h.index]
  constructor
  · intro hm
    have := Residue.eq_of_window (c := d) (by omega) (by omega) (by omega) (by omega) hm
    omega
  · rintro rfl
    rfl

theorem Holds.push (h : Holds A cap q d items) (hA : A.Lawful cap) (hlen : items.length < cap)
    (x : α) : Holds A cap (q.pushed A (A.usize (d + items.length)) x) d (items ++ [x]) where
  mask := h.mask
  index := h.index
  deq := h.deq
  enq := by
    rw [List.length_append, List.length_singleton, ← Nat.add_assoc]
    exact hA.succ (d + items.length)
  length_le := by
    rw [List.length_append, List.length_singleton]
    exact hlen
  sequence i hi := by
    simp only [MpmcQueue.pushed, sequence_storeSequence, storeValue_mask, sequence_storeValue,
      slot_enqueuePos, h.index_usize hA, h.meets_iff hlen hi, List.length_append, List.length_singleton,
      hA.succ]
    by_cases he : items.length = i
    · simp [he]
    · rw [if_neg he, h.sequence i hi]
      congr 1
      split <;> split <;> omega
  value i hi := by
    simp only [MpmcQueue.pushed, value_storeSequence, value_storeValue, slot_enqueuePos,
      h.index_usize hA, h.meets_iff hlen hi]
    by_cases he : items.length = i
    · simp [← he]
    · rw [if_neg he, h.value i hi, List.getElem?_append]
      split
      · rfl
      · rw [List.getElem?_eq_none (by omega), List.getElem?_eq_none (by simp; omega)]

/-- One position further, the window ends with the slot of the position it leaves. -/
theorem Holds.next_meets_iff (h : Holds A cap q d items) {i : Nat} (hi : i < cap) :
    d &&& q.mask = (d + 1 + i) &&& q.mask ↔ i + 1 = cap := by
  have hassoc : d + 1 + i = d + (i + 1) := by omega
  rw [h.index, hassoc]
  constructor
  · intro hm
    by_contra hne
    have := Residue.eq_of_window (n := cap) (c := d) le_rfl (by omega) (by omega) (by omega) hm
    omega
  · intro he
    simp [he]

theorem Holds.pop {x : α} (h : Holds A cap q d (x :: items)) (hA : A.Lawful cap) :
    Holds A cap (q.popped A (A.usize d)) (d + 1) items := by
  have hlen := h.length_le
  have hmask := h.mask
  rw [List.length_cons] at hlen
  have hassoc (i : Nat) : d + 1 + i = d + (i + 1) := by omega
  refine ⟨h.mask, h.index, hA.succ d, ?_, by omega, ?_, ?_⟩
  · change q.enqueuePos = _
    rw [h.enq, List.length_cons]
    congr 1
    omega
  · intro i hi
    simp only [MpmcQueue.popped, sequence_storeSequence, storeValue_mask, sequence_storeValue,
      slot_dequeuePos, h.index_usize hA, h.next_meets_iff hi, hA.round]
    by_cases he : i + 1 = cap
    · rw [if_pos he]
      congr 1
      split <;> omega
    · have hs := h.sequence (i + 1) (by omega)
      rw [if_neg he, hassoc, hs]
      congr 1
      simp only [List.length_cons]
      split <;> split <;> omega
  · intro i hi
    simp only [MpmcQueue.popped, value_storeSequence, value_storeValue, slot_dequeuePos,
      h.index_usize hA, h.next_meets_iff hi]
    by_cases he : i + 1 = cap
    · rw [if_pos he, List.getElem?_eq_none (by omega)]
    · have hv := h.value (i + 1) (by omega)
      rw [if_neg he, hassoc, hv, List.getElem?_cons_succ]

theorem holds_ofCapacity {k : Nat} (hA : A.Lawful (2 ^ k)) :
    Holds A (2 ^ k) (.ofCapacity (α := α) (2 ^ k) (Nat.two_pow_pos k)) 0 [] := by
  have hmask : 2 ^ k - 1 + 1 = 2 ^ k := Nat.sub_add_cancel (Nat.two_pow_pos k)
  refine ⟨hmask, fun p p' => ?_, (hA.small 0 (Nat.two_pow_pos k)).symm,
    (hA.small 0 (Nat.two_pow_pos k)).symm, Nat.zero_le _, fun i hi => ?_, fun i hi => ?_⟩
  · change p &&& (2 ^ k - 1) = p' &&& (2 ^ k - 1) ↔ p % 2 ^ k = p' % 2 ^ k
    rw [Residue.and_mask hmask, Residue.and_mask hmask]
  · simp [Residue.and_mask hmask, Nat.mod_eq_of_lt hi, hA.small i hi]
  · simp

end Refinement

end ThreatEngine.Queue
