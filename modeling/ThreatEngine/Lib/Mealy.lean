import Mathlib.Data.List.Induction

/-! Deterministic machines that answer every input: states and outputs of a run
over a list of inputs, the invariant rule and the simulation rule. -/
namespace Mealy
variable {σ τ ι ο β : Type*}

structure Machine (σ ι ο : Type*) where
  init : σ
  step : σ → ι → σ × ο

def Machine.after (M : Machine σ ι ο) : σ → List ι → σ
  | s, [] => s
  | s, i :: is => M.after (M.step s i).1 is

def Machine.outputs (M : Machine σ ι ο) : σ → List ι → List ο
  | _, [] => []
  | s, i :: is => (M.step s i).2 :: M.outputs (M.step s i).1 is

variable (M : Machine σ ι ο)

theorem after_append (s : σ) (is js : List ι) :
    M.after s (is ++ js) = M.after (M.after s is) js := by
  induction is generalizing s with
  | nil => rfl
  | cons i is ih => exact ih (M.step s i).1

theorem outputs_append (s : σ) (is js : List ι) :
    M.outputs s (is ++ js) = M.outputs s is ++ M.outputs (M.after s is) js := by
  induction is generalizing s with
  | nil => rfl
  | cons i is ih => exact congrArg _ (ih (M.step s i).1)

@[simp] theorem length_outputs (s : σ) (is : List ι) : (M.outputs s is).length = is.length := by
  induction is generalizing s with
  | nil => rfl
  | cons i is ih => exact congrArg (· + 1) (ih (M.step s i).1)

/-- An output is that of the step taken after the inputs before it. -/
theorem getElem?_outputs (s : σ) {is : List ι} {j : Nat} {i : ι} (h : is[j]? = some i) :
    (M.outputs s is)[j]? = some (M.step (M.after s (is.take j)) i).2 := by
  induction is generalizing s j with
  | nil => simp at h
  | cons i' is ih =>
    cases j with
    | zero =>
      obtain rfl : i' = i := by simpa using h
      rfl
    | succ j => exact ih (M.step s i').1 (by simpa using h)

/-- What every step keeps, a run keeps. -/
theorem after_keeps {M : Machine σ ι ο} {P : σ → Prop} (hstep : ∀ s i, P s → P (M.step s i).1)
    {s : σ} (hs : P s) (is : List ι) : P (M.after s is) := by
  induction is generalizing s with
  | nil => exact hs
  | cons i is ih => exact ih (hstep s i hs)

/-- What every step keeps and shows on the inputs that are allowed, a run over allowed inputs shows. -/
theorem outputs_of_inputs {M : Machine σ ι ο} {P : σ → Prop} {Q : ι → Prop} {R : ο → Prop}
    (hstep : ∀ s i, P s → Q i → P (M.step s i).1 ∧ R (M.step s i).2) {s : σ} (hs : P s)
    {is : List ι} (his : ∀ i ∈ is, Q i) : ∀ o ∈ M.outputs s is, R o := by
  induction is generalizing s with
  | nil => simp [Machine.outputs]
  | cons i is ih =>
    obtain ⟨hp, hr⟩ := hstep s i hs (his i List.mem_cons_self)
    intro o ho
    obtain rfl | ho := List.mem_cons.mp ho
    · exact hr
    · exact ih hp (fun j hj => his j (List.mem_cons_of_mem i hj)) o ho

/-- What every step keeps about a state, the inputs that have led to it and the
answers to them, a run from it keeps. -/
theorem run_keeps {M : Machine σ ι ο} {P : σ → List ι → List ο → Prop}
    (hstep : ∀ s is os i, P s is os → P (M.step s i).1 (is ++ [i]) (os ++ [(M.step s i).2]))
    {s : σ} (hs : P s [] []) (is : List ι) : P (M.after s is) is (M.outputs s is) := by
  induction is using List.reverseRecOn with
  | nil => exact hs
  | append_singleton is i ih =>
    rw [after_append, outputs_append]
    exact hstep _ is _ i ih

/-- Machines whose related states show the same stay related and go on showing the same. -/
theorem map_outputs_eq {M : Machine σ ι ο} {N : Machine τ ι ο} (shown : ο → β) {R : σ → τ → Prop}
    (hstep : ∀ s t i, R s t →
      R (M.step s i).1 (N.step t i).1 ∧ shown (M.step s i).2 = shown (N.step t i).2)
    {s : σ} {t : τ} (h : R s t) (is : List ι) :
    (M.outputs s is).map shown = (N.outputs t is).map shown := by
  induction is generalizing s t with
  | nil => rfl
  | cons i is ih =>
    obtain ⟨hr, ho⟩ := hstep s t i h
    rw [Machine.outputs, Machine.outputs, List.map_cons, List.map_cons, ho, ih hr]

/-- A machine that answers some inputs as another one does, and shows nothing of
the others, shows what the other machine shows on the inputs it is given. -/
theorem shown_eq_of_simulation {M : Machine σ ι ο} {N : Machine τ ι ο} (given : ι → Bool)
    (shown : ο → List β) {R : σ → τ → Prop}
    (hkeep : ∀ s t i, R s t → given i = true →
      R (M.step s i).1 (N.step t i).1 ∧ shown (M.step s i).2 = shown (N.step t i).2)
    (hskip : ∀ s t i, R s t → given i = false → R (M.step s i).1 t ∧ shown (M.step s i).2 = [])
    {s : σ} {t : τ} (h : R s t) (is : List ι) :
    (M.outputs s is).flatMap shown = (N.outputs t (is.filter given)).flatMap shown := by
  induction is generalizing s t with
  | nil => rfl
  | cons i is ih =>
    cases hi : given i with
    | true =>
      obtain ⟨hr, ho⟩ := hkeep s t i h hi
      rw [List.filter_cons_of_pos hi, Machine.outputs, Machine.outputs, List.flatMap_cons,
        List.flatMap_cons, ho, ih hr]
    | false =>
      obtain ⟨hr, ho⟩ := hskip s t i h hi
      rw [List.filter_cons_of_neg (by simp [hi]), Machine.outputs, List.flatMap_cons, ho, ih hr,
        List.nil_append]

/-- A part of a machine that moves and shows as a machine of its own on the inputs that are for it,
and rests and shows nothing on the others. -/
theorem shown_eq_of_part {κ ο' : Type*} {M : Machine σ ι ο} {N : Machine τ κ ο'} (part : σ → τ)
    (given : ι → Option κ) (shown : ο → List β) (shown' : ο' → List β)
    (hgiven : ∀ s i k, given i = some k → part (M.step s i).1 = (N.step (part s) k).1 ∧
      shown (M.step s i).2 = shown' (N.step (part s) k).2)
    (hother : ∀ s i, given i = none → part (M.step s i).1 = part s ∧ shown (M.step s i).2 = [])
    (s : σ) (is : List ι) :
    (M.outputs s is).flatMap shown = (N.outputs (part s) (is.filterMap given)).flatMap shown' := by
  induction is generalizing s with
  | nil => rfl
  | cons i is ih =>
    cases hi : given i with
    | some k =>
      obtain ⟨hp, ho⟩ := hgiven s i k hi
      rw [List.filterMap_cons_some hi, Machine.outputs, Machine.outputs, List.flatMap_cons,
        List.flatMap_cons, ho, ih, hp]
    | none =>
      obtain ⟨hp, ho⟩ := hother s i hi
      rw [List.filterMap_cons_none hi, Machine.outputs, List.flatMap_cons, ho, ih, hp, List.nil_append]

end Mealy
