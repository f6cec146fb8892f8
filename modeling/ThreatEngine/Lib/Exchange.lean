import Mathlib.Algebra.BigOperators.Group.Finset.Basic
import Mathlib.Data.Multiset.Basic
import Mathlib.Algebra.Order.Group.Multiset
import Mathlib.Tactic.Abel

/-! Replacing one entry of a family or of a list changes its total by the
entries exchanged. The equations are stated without subtraction. -/
namespace Exchange
variable {ι β γ : Type*}

theorem sum_update_add [Fintype ι] [DecidableEq ι] [AddCommMonoid γ] (f : β → γ) (g : ι → β) (i : ι)
    (b : β) : ∑ j, f (Function.update g i b j) + f (g i) = ∑ j, f (g j) + f b := by
  have hrest : ∑ j ∈ Finset.univ.erase i, f (Function.update g i b j) =
      ∑ j ∈ Finset.univ.erase i, f (g j) :=
    Finset.sum_congr rfl fun j hj => by rw [Function.update_of_ne (Finset.ne_of_mem_erase hj)]
  rw [← Finset.add_sum_erase _ _ (Finset.mem_univ i), ← Finset.add_sum_erase _ _ (Finset.mem_univ i),
    hrest, Function.update_self]
  abel

/-- The entries of a list that carry a value, as a multiset. -/
def contents (f : β → Option γ) (l : List β) : Multiset γ := (l.filterMap f : List γ)

def single : Option γ → Multiset γ
  | none => 0
  | some x => {x}

theorem contents_cons (f : β → Option γ) (b : β) (l : List β) :
    contents f (b :: l) = single (f b) + contents f l := by
  cases h : f b with
  | none => simp [contents, single, h]
  | some x =>
    simp only [contents, single, List.filterMap_cons, h, ← Multiset.cons_coe]
    exact (Multiset.singleton_add x _).symm

theorem contents_set (f : β → Option γ) (l : List β) (i : Nat) (hi : i < l.length) (b : β) :
    contents f (l.set i b) + single (f l[i]) = contents f l + single (f b) := by
  induction l generalizing i with
  | nil => simp at hi
  | cons a l ih =>
    cases i with
    | zero =>
      rw [List.set_cons_zero, contents_cons, contents_cons, List.getElem_cons_zero]
      abel
    | succ i =>
      have h := ih i (by simpa using hi)
      rw [List.set_cons_succ, contents_cons, contents_cons, List.getElem_cons_succ, add_assoc, h]
      abel

end Exchange
