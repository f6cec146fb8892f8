import Mathlib.Data.Option.Basic

/-! Loops that may not end: a step function iterated until an answer is there,
run with fuel, and the answer they yield. -/
namespace Loop
variable {σ ρ : Type*} (step : σ → Option σ) (done : σ → Option ρ)

def run : Nat → σ → Option ρ
  | 0, s => done s
  | fuel + 1, s =>
    match done s with
    | some r => some r
    | none => (step s).bind (run fuel)

/-- The loop ends, with the answer `r`. -/
def Yields (s : σ) (r : ρ) : Prop := ∃ fuel, run step done fuel s = some r

variable {step done} {s u : σ} {r : ρ}

theorem run_of_done (h : done s = some r) (fuel : Nat) : run step done fuel s = some r := by
  cases fuel <;> simp [run, h]

theorem run_succ_of_step (h : done s = none) (hs : step s = some u) (fuel : Nat) :
    run step done (fuel + 1) s = run step done fuel u := by
  simp [run, h, hs]

theorem run_succ {fuel : Nat} (h : run step done fuel s = some r) :
    run step done (fuel + 1) s = some r := by
  induction fuel generalizing s with
  | zero => exact run_of_done h 1
  | succ fuel ih =>
    cases hd : done s with
    | some a => simpa [run, hd] using h
    | none =>
      simp only [run, hd] at h ⊢
      obtain ⟨u, hu, hr⟩ := Option.bind_eq_some_iff.mp h
      rw [hu]
      exact ih hr

theorem run_mono {n m : Nat} (hnm : n ≤ m) (h : run step done n s = some r) :
    run step done m s = some r := by
  induction hnm with
  | refl => exact h
  | step _ ih => exact run_succ ih

theorem Yields.unique {r' : ρ} (h : Yields step done s r) (h' : Yields step done s r') :
    r = r' := by
  obtain ⟨n, hn⟩ := h
  obtain ⟨m, hm⟩ := h'
  have hr := run_mono (Nat.le_max_left n m) hn
  have hr' := run_mono (Nat.le_max_right n m) hm
  exact Option.some.inj (hr.symm.trans hr')

theorem Yields.of_done (h : done s = some r) : Yields step done s r := ⟨0, h⟩

theorem Yields.of_step (h : done s = none) (hs : step s = some u) (hu : Yields step done u r) :
    Yields step done s r := by
  obtain ⟨fuel, hf⟩ := hu
  exact ⟨fuel + 1, (run_succ_of_step h hs fuel).trans hf⟩

/-- A loop that stays among states without an answer yields none. -/
theorem not_yields {P : σ → Prop} (hkeep : ∀ s, P s → done s = none ∧ ∀ u, step s = some u → P u)
    (hs : P s) : ¬ Yields step done s r := by
  intro ⟨fuel, hf⟩
  induction fuel generalizing s with
  | zero => simp [run, (hkeep s hs).1] at hf
  | succ fuel ih =>
    obtain ⟨hd, hn⟩ := hkeep s hs
    simp only [run, hd] at hf
    obtain ⟨u, hu, hr⟩ := Option.bind_eq_some_iff.mp hf
    exact ih (hn u hu) hr

end Loop
