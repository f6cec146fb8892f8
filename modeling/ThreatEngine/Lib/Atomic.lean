import Mathlib.Logic.Function.Basic
import ThreatEngine.Lib.Guarded

/-! Objects whose calls take effect at one instant between their start and their
return. A system linearizes to such an object when the calls and returns that can
be seen of each of its runs can also be seen of the object. -/
namespace Atomic
variable {ι σ τ α ω ρ : Type*}

/-- A thread outside every call, in one that has not taken effect, or with the answer of one that has. -/
inductive Status (ω ρ : Type*) where
  | idle
  | called (op : ω)
  | decided (answer : ρ)

/-- What can be seen of a thread. -/
inductive Visible (ι ω ρ : Type*) where
  | call (t : ι) (op : ω)
  | ret (t : ι) (answer : ρ)
  deriving DecidableEq

/-- `effect` may depend on what the other threads are doing. -/
structure Object (ι σ ω ρ : Type*) where
  init : σ
  effect : (ι → Status ω ρ) → σ → ω → σ → ρ → Prop

variable [DecidableEq ι]

/-- The object after some calls, with what has been seen of them. -/
inductive Object.Run (B : Object ι σ ω ρ) : σ → (ι → Status ω ρ) → List (Visible ι ω ρ) → Prop where
  | start : B.Run B.init (fun _ => .idle) []
  | call {s st seen} (t op) (h : B.Run s st seen) (ht : st t = .idle) :
      B.Run s (Function.update st t (.called op)) (seen ++ [.call t op])
  | effect {s st seen s'} (t op answer) (h : B.Run s st seen) (ht : st t = .called op)
      (he : B.effect st s op s' answer) : B.Run s' (Function.update st t (.decided answer)) seen
  | ret {s st seen} (t answer) (h : B.Run s st seen) (ht : st t = .decided answer) :
      B.Run s (Function.update st t .idle) (seen ++ [.ret t answer])

/-- What has been seen can be seen of the object. -/
def Object.Allows (B : Object ι σ ω ρ) (seen : List (Visible ι ω ρ)) : Prop :=
  ∃ s st, B.Run s st seen

/-- A call that takes effect and returns in one step. -/
theorem Object.Run.effect_ret {B : Object ι σ ω ρ} {s s' : σ} {st : ι → Status ω ρ}
    {seen : List (Visible ι ω ρ)} (h : B.Run s st seen) (t : ι) (op : ω) {answer : ρ}
    (ht : st t = .called op) (he : B.effect st s op s' answer) :
    B.Run s' (Function.update st t .idle) (seen ++ [.ret t answer]) := by
  have hret := (h.effect t op answer ht he).ret t answer (Function.update_self ..)
  rwa [Function.update_idem] at hret

/-- The simulation rule: a system all of whose steps can be followed by the object
under an abstraction of its states shows only what the object allows. -/
theorem Object.allows_of_simulation {S : Guarded.System τ α} {emit : τ → α → List (Visible ι ω ρ)}
    (B : Object ι σ ω ρ) (held : τ → σ) (status : τ → ι → Status ω ρ)
    (hheld : held S.init = B.init) (hstatus : status S.init = fun _ => .idle)
    (hstep : ∀ s a u seen, S.Reachable s → S.step s a = some u → B.Run (held s) (status s) seen →
      B.Run (held u) (status u) (seen ++ emit s a))
    {x : τ × List (Visible ι ω ρ)} (h : (S.logged emit).Reachable x) :
    B.Run (held x.1) (status x.1) x.2 := by
  refine (h.rule (P := fun x => S.Reachable x.1 ∧ B.Run (held x.1) (status x.1) x.2) ?_ ?_).2
  · refine ⟨.start S, ?_⟩
    change B.Run (held S.init) (status S.init) []
    rw [hheld, hstatus]
    exact .start
  · intro x a y _ ⟨hr, hrun⟩ hs
    obtain ⟨hstp, hlog⟩ := Guarded.logged_step hs
    refine ⟨hr.next hstp, ?_⟩
    rw [hlog]
    exact hstep x.1 a y.1 x.2 hr hstp hrun

end Atomic
