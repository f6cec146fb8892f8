import Mathlib.Data.List.Basic
import Mathlib.Logic.Relation

/-! Happens-before over the trace of an interleaving. A thread's own events are
ordered, and an acquire load comes after the last release store to what it loads;
relaxed operations order nothing and are not in the trace. -/
namespace HappensBefore
variable {ι κ : Type*}

/-- Plain accesses to the cell that `k` guards, and what orders them. -/
inductive Act (κ : Type*) where
  | access (k : κ)
  | acquire (k : κ)
  | release (k : κ)
  deriving DecidableEq

abbrev Trace (ι κ : Type*) := List (ι × Act κ)

/-- The access to `k` is the event number `i`. -/
def Accesses (tr : Trace ι κ) (k : κ) (i : Nat) : Prop := ∃ t, tr[i]? = some (t, .access k)

def ProgramOrder (tr : Trace ι κ) (i j : Nat) : Prop :=
  i < j ∧ ∃ t a b, tr[i]? = some (t, a) ∧ tr[j]? = some (t, b)

def SynchronizesWith (tr : Trace ι κ) (i j : Nat) : Prop :=
  i < j ∧ ∃ t u k, tr[i]? = some (t, .release k) ∧ tr[j]? = some (u, .acquire k) ∧
    ∀ m v, i < m → m < j → tr[m]? ≠ some (v, .release k)

def Ordered (tr : Trace ι κ) : Nat → Nat → Prop :=
  Relation.TransGen fun i j => ProgramOrder tr i j ∨ SynchronizesWith tr i j

/-- Any two accesses to one cell are ordered. -/
def RaceFree (tr : Trace ι κ) : Prop :=
  ∀ k i j, i < j → Accesses tr k i → Accesses tr k j → Ordered tr i j

/-- Event `i` comes before whatever `t` does next. -/
def Knows (tr : Trace ι κ) (t : ι) (i : Nat) : Prop :=
  ∃ j a, tr[j]? = some (t, a) ∧ (i = j ∨ Ordered tr i j)

/-- Event `i` comes before whatever acquires `k` next. -/
def Carries (tr : Trace ι κ) (k : κ) (i : Nat) : Prop :=
  ∃ j t, tr[j]? = some (t, .release k) ∧ (i = j ∨ Ordered tr i j) ∧
    ∀ m v, j < m → tr[m]? ≠ some (v, .release k)

section Traces
variable {tr : Trace ι κ} {e : ι × Act κ} {t : ι} {k : κ} {i j : Nat}

theorem getElem?_concat_of_some {x : ι × Act κ} (h : tr[i]? = some x) : (tr ++ [e])[i]? = some x := by
  rw [List.getElem?_append_left (List.getElem?_eq_some_iff.mp h).1, h]

theorem getElem?_concat_eq_some {x : ι × Act κ} (h : (tr ++ [e])[i]? = some x) :
    tr[i]? = some x ∨ i = tr.length ∧ x = e := by
  obtain hlt | hge := Nat.lt_or_ge i tr.length
  · rw [List.getElem?_append_left hlt] at h
    exact Or.inl h
  · rw [List.getElem?_append_right hge] at h
    obtain ⟨hi, rfl⟩ := List.getElem?_eq_some_iff.mp h
    rw [List.length_singleton] at hi
    exact Or.inr ⟨by omega, by simp⟩

/-- What is ordered stays ordered when the trace goes on. -/
theorem Ordered.concat (h : Ordered tr i j) : Ordered (tr ++ [e]) i j := by
  refine Relation.TransGen.mono (fun i j hij => ?_) i j h
  obtain ⟨hlt, t, a, b, hi, hj⟩ | ⟨hlt, t, u, k, hi, hj, hlast⟩ := hij
  · exact Or.inl ⟨hlt, t, a, b, getElem?_concat_of_some hi, getElem?_concat_of_some hj⟩
  · refine Or.inr ⟨hlt, t, u, k, getElem?_concat_of_some hi, getElem?_concat_of_some hj,
      fun m v him hmj hm => ?_⟩
    have hjlt := (List.getElem?_eq_some_iff.mp hj).1
    obtain hold | ⟨rfl, -⟩ := getElem?_concat_eq_some hm
    · exact hlast m v him hmj hold
    · omega

theorem Accesses.of_concat (h : Accesses (tr ++ [e]) k i) :
    Accesses tr k i ∨ i = tr.length ∧ e.2 = .access k := by
  obtain ⟨t, ht⟩ := h
  obtain hold | ⟨hi, rfl⟩ := getElem?_concat_eq_some ht
  · exact Or.inl ⟨t, hold⟩
  · exact Or.inr ⟨hi, rfl⟩

theorem Accesses.lt_length (h : Accesses tr k i) : i < tr.length := by
  obtain ⟨t, ht⟩ := h
  exact (List.getElem?_eq_some_iff.mp ht).1

theorem ordered_concat_of (h : tr[j]? = some (t, a)) (hij : i = j ∨ Ordered tr i j) {b : Act κ} :
    Ordered (tr ++ [(t, b)]) i tr.length := by
  have hlast : Ordered (tr ++ [(t, b)]) j tr.length :=
    .single (Or.inl ⟨(List.getElem?_eq_some_iff.mp h).1, t, a, b, getElem?_concat_of_some h, by simp⟩)
  obtain rfl | hij := hij
  · exact hlast
  · exact hij.concat.trans hlast

/-- What a thread knows comes before its next event. -/
theorem Knows.ordered (h : Knows tr t i) (a : Act κ) : Ordered (tr ++ [(t, a)]) i tr.length := by
  obtain ⟨j, b, hj, hij⟩ := h
  exact ordered_concat_of hj hij

theorem Knows.concat (h : Knows tr t i) : Knows (tr ++ [e]) t i := by
  obtain ⟨j, a, hj, hij⟩ := h
  exact ⟨j, a, getElem?_concat_of_some hj, hij.imp_right Ordered.concat⟩

/-- A thread knows its own events. -/
theorem knows_own (tr : Trace ι κ) (t : ι) (a : Act κ) : Knows (tr ++ [(t, a)]) t tr.length :=
  ⟨tr.length, a, by simp, Or.inl rfl⟩

theorem Knows.release (h : Knows tr t i) (k : κ) : Carries (tr ++ [(t, .release k)]) k i := by
  refine ⟨tr.length, t, by simp, Or.inr (h.ordered _), fun m v hm hrel => ?_⟩
  have hlt := (List.getElem?_eq_some_iff.mp hrel).1
  rw [List.length_append, List.length_singleton] at hlt
  omega

/-- An acquire load learns all that the last release store carries. -/
theorem Carries.acquire (h : Carries tr k i) (t : ι) : Knows (tr ++ [(t, .acquire k)]) t i := by
  obtain ⟨j, u, hj, hij, hlast⟩ := h
  have hsync : Ordered (tr ++ [(t, .acquire k)]) j tr.length := by
    refine .single (Or.inr ⟨(List.getElem?_eq_some_iff.mp hj).1, u, t, k, getElem?_concat_of_some hj,
      by simp, fun m v hjm hm hrel => ?_⟩)
    obtain hold | ⟨hm', -⟩ := getElem?_concat_eq_some hrel
    · exact hlast m v hjm hold
    · omega
  refine ⟨tr.length, .acquire k, by simp, Or.inr ?_⟩
  obtain rfl | hij := hij
  · exact hsync
  · exact hij.concat.trans hsync

theorem Carries.concat (h : Carries tr k i) (he : e.2 ≠ .release k) : Carries (tr ++ [e]) k i := by
  obtain ⟨j, u, hj, hij, hlast⟩ := h
  refine ⟨j, u, getElem?_concat_of_some hj, hij.imp_right Ordered.concat, fun m v hjm hrel => ?_⟩
  obtain hold | ⟨-, hx⟩ := getElem?_concat_eq_some hrel
  · exact hlast m v hjm hold
  · exact he (by rw [← hx])

/-- The step lemma of race freedom: whoever accesses a cell knows all accesses to it before. -/
theorem RaceFree.concat (h : RaceFree tr)
    (he : ∀ k, e.2 = .access k → ∀ i, Accesses tr k i → Knows tr e.1 i) :
    RaceFree (tr ++ [e]) := by
  intro k i j hij hi hj
  obtain hj | ⟨rfl, hk⟩ := hj.of_concat
  · obtain hi | ⟨rfl, -⟩ := hi.of_concat
    · exact (h k i j hij hi hj).concat
    · exact absurd hj.lt_length (by omega)
  · obtain hi | ⟨rfl, -⟩ := hi.of_concat
    · exact (he k hk i hi).ordered e.2
    · omega

theorem raceFree_nil : RaceFree ([] : Trace ι κ) :=
  fun _ _ _ _ hi => absurd hi.lt_length (Nat.not_lt_zero _)

end Traces

end HappensBefore
