import Mathlib.Algebra.Ring.Nat
import Mathlib.Data.List.Induction

/-! Guarded executable transition systems: a step function that answers `none`
when the action is not enabled. Runs are lists of actions, so a concrete run
can be evaluated and an invariant is an induction on the run. -/
namespace Guarded
variable {σ τ α β : Type*}

structure System (σ α : Type*) where
  init : σ
  step : σ → α → Option σ

def System.exec (S : System σ α) : σ → List α → Option σ
  | s, [] => some s
  | s, a :: as => (S.step s a).bind fun u => S.exec u as

def System.Reachable (S : System σ α) (s : σ) : Prop :=
  ∃ as, S.exec S.init as = some s

/-- Only the actions that `allow` admits are enabled. -/
def System.restrict (S : System σ α) (allow : α → Bool) : System σ α where
  init := S.init
  step s a := if allow a then S.step s a else none

/-- The same system with a log of what its steps emit; no step reads the log. -/
def System.logged (S : System σ α) (emit : σ → α → List β) : System (σ × List β) α where
  init := (S.init, [])
  step x a := (S.step x.1 a).map fun u => (u, x.2 ++ emit x.1 a)

/-- Every step of a run meets a condition on the state that it is taken from. -/
def System.Throughout (S : System σ α) (ok : σ → α → Prop) (run : List α) : Prop :=
  ∀ pre a post s, run = pre ++ a :: post → S.exec S.init pre = some s → ok s a

theorem exec_append (S : System σ α) (as bs : List α) (s : σ) :
    S.exec s (as ++ bs) = (S.exec s as).bind fun u => S.exec u bs := by
  induction as generalizing s with
  | nil => rfl
  | cons a as ih =>
    simp only [List.cons_append, System.exec]
    cases S.step s a with
    | none => rfl
    | some u => exact ih u

theorem exec_concat (S : System σ α) (as : List α) (a : α) (s u : σ) :
    S.exec s (as ++ [a]) = some u ↔ ∃ m, S.exec s as = some m ∧ S.step m a = some u := by
  simp [exec_append, Option.bind_eq_some_iff, System.exec]

theorem System.Reachable.start (S : System σ α) : S.Reachable S.init := ⟨[], rfl⟩

theorem System.Reachable.next {S : System σ α} {s u : σ} {a : α}
    (h : S.Reachable s) (hs : S.step s a = some u) : S.Reachable u := by
  obtain ⟨as, has⟩ := h
  exact ⟨as ++ [a], (exec_concat S as a S.init u).mpr ⟨s, has, hs⟩⟩

/-- The invariant rule: initially true and kept by every enabled step taken
from a reachable state, hence true in every reachable state. -/
theorem System.Reachable.rule {S : System σ α} {P : σ → Prop} (h0 : P S.init)
    (hstep : ∀ s a u, S.Reachable s → P s → S.step s a = some u → P u)
    {s : σ} (h : S.Reachable s) : P s := by
  obtain ⟨as, has⟩ := h
  induction as using List.reverseRecOn generalizing s with
  | nil =>
    obtain rfl : S.init = s := by simpa [System.exec] using has
    exact h0
  | append_singleton as a ih =>
    obtain ⟨m, hm, hs⟩ := (exec_concat S as a S.init s).mp has
    exact hstep m a s ⟨as, hm⟩ (ih hm) hs

/-- The invariant rule for the steps that meet a condition. -/
theorem System.Throughout.rule {S : System σ α} {ok : σ → α → Prop} {P : σ → Prop} (h0 : P S.init)
    (hstep : ∀ s a u, P s → ok s a → S.step s a = some u → P u) {run : List α}
    (h : S.Throughout ok run) {s : σ} (hs : S.exec S.init run = some s) : P s := by
  induction run using List.reverseRecOn generalizing s with
  | nil =>
    obtain rfl : S.init = s := by simpa [System.exec] using hs
    exact h0
  | append_singleton run a ih =>
    obtain ⟨m, hm, hstp⟩ := (exec_concat S run a S.init s).mp hs
    have hbefore : S.Throughout ok run := fun pre b post t he ht =>
      h pre b (post ++ [a]) t (by simp [he]) ht
    exact hstep m a s (ih hbefore hm) (h run a [] m rfl hm) hstp

/-- The same for a run that is given, as a check. -/
def System.checks (S : System σ α) (ok : σ → α → Bool) : σ → List α → Bool
  | _, [] => true
  | s, a :: as => ok s a && (S.step s a).all fun u => S.checks ok u as

theorem throughout_of_checks {S : System σ α} {ok : σ → α → Bool} {run : List α}
    (h : S.checks ok S.init run = true) : S.Throughout (fun s a => ok s a = true) run := by
  intro pre a post t hrun ht
  generalize S.init = s at h ht
  induction pre generalizing s run with
  | nil =>
    obtain rfl := Option.some.inj ht
    rw [hrun, List.nil_append, System.checks, Bool.and_eq_true] at h
    exact h.1
  | cons b pre ih =>
    obtain ⟨m, hm, hrest⟩ := Option.bind_eq_some_iff.mp ht
    rw [hrun, List.cons_append, System.checks, Bool.and_eq_true, hm] at h
    exact ih rfl m h.2 hrest

/-- The invariant rule for the rest of a run, whose actions meet a condition. -/
theorem exec_keeps {S : System σ α} {P : σ → Prop} {ok : α → Prop}
    (hstep : ∀ s a u, P s → ok a → S.step s a = some u → P u) {run : List α} {s u : σ} (h0 : P s)
    (hrun : ∀ a ∈ run, ok a) (h : S.exec s run = some u) : P u := by
  induction run generalizing s with
  | nil =>
    obtain rfl := Option.some.inj h
    exact h0
  | cons a run ih =>
    obtain ⟨m, hs, hm⟩ := Option.bind_eq_some_iff.mp h
    obtain ⟨ha, hrest⟩ := List.forall_mem_cons.mp hrun
    exact ih (hstep s a m h0 ha hs) hrest hm

/-- Amortised counting: when every step pays its cost out of the potential and
the credit that its action brings, the costs of a run are covered by its credits. -/
theorem exec_amortised {S : System σ α} (potential : σ → Nat) (cost credit : α → Nat)
    (hstep : ∀ s a u, S.Reachable s → S.step s a = some u →
      potential u + cost a ≤ potential s + credit a) {run : List α} {s : σ}
    (h : S.exec S.init run = some s) :
    potential s + (run.map cost).sum ≤ potential S.init + (run.map credit).sum := by
  induction run using List.reverseRecOn generalizing s with
  | nil =>
    obtain rfl : S.init = s := by simpa [System.exec] using h
    exact Nat.le_refl _
  | append_singleton run a ih =>
    obtain ⟨m, hm, hs⟩ := (exec_concat S run a S.init s).mp h
    have hpaid := hstep m a s ⟨run, hm⟩ hs
    have hbefore := ih hm
    simp only [List.map_append, List.map_singleton, List.sum_append, List.sum_singleton]
    omega

/-- An action that can be repeated and lowers a measure until a goal is reached
reaches it in as many steps as the measure says. -/
theorem exec_repeat {S : System σ α} {a : α} {P goal : σ → Prop} (measure : σ → Nat)
    (hstep : ∀ s, P s → ¬ goal s → ∃ u, S.step s a = some u ∧ P u ∧ measure u < measure s) {s : σ}
    (hs : P s) : ∃ n u, n ≤ measure s ∧ S.exec s (List.replicate n a) = some u ∧ P u ∧ goal u := by
  induction hm : measure s using Nat.strongRecOn generalizing s with
  | ind m ih =>
    by_cases hg : goal s
    · exact ⟨0, s, Nat.zero_le m, rfl, hs, hg⟩
    · obtain ⟨u, hu, hpu, hlt⟩ := hstep s hs hg
      obtain ⟨n, v, hn, hv, hpv, hgv⟩ := ih (measure u) (hm ▸ hlt) hpu rfl
      refine ⟨n + 1, v, by omega, ?_, hpv, hgv⟩
      rw [List.replicate_succ, System.exec, hu, Option.bind_some, hv]

/-- A component of a larger system: every step of the whole either leaves the
component alone or is one of its own steps. -/
theorem System.Reachable.project {S : System σ α} {T : System τ β} (π : σ → τ)
    (h0 : T.Reachable (π S.init))
    (hstep : ∀ s a u, S.Reachable s → S.step s a = some u →
      π u = π s ∨ ∃ b, T.step (π s) b = some (π u))
    {s : σ} (h : S.Reachable s) : T.Reachable (π s) := by
  refine System.Reachable.rule (P := fun s => T.Reachable (π s)) h0 ?_ h
  intro s a u hs ih hstp
  cases hstep s a u hs hstp with
  | inl he => exact he ▸ ih
  | inr ho =>
    obtain ⟨b, hb⟩ := ho
    exact ih.next hb

theorem restrict_step {S : System σ α} {allow : α → Bool} {s u : σ} {a : α}
    (h : (S.restrict allow).step s a = some u) : allow a = true ∧ S.step s a = some u := by
  by_cases ha : allow a = true
  · exact ⟨ha, by simpa [System.restrict, ha] using h⟩
  · simp [System.restrict, ha] at h

theorem System.Reachable.of_restrict {S : System σ α} {allow : α → Bool} {s : σ}
    (h : (S.restrict allow).Reachable s) : S.Reachable s := by
  exact System.Reachable.project (S := S.restrict allow) id (System.Reachable.start S)
    (fun s a u _ hs => Or.inr ⟨a, (restrict_step hs).2⟩) h

theorem logged_step {S : System σ α} {emit : σ → α → List β} {x y : σ × List β} {a : α}
    (h : (S.logged emit).step x a = some y) : S.step x.1 a = some y.1 ∧ y.2 = x.2 ++ emit x.1 a := by
  obtain ⟨u, hu, rfl⟩ := Option.map_eq_some_iff.mp h
  exact ⟨hu, rfl⟩

theorem System.Reachable.of_logged {S : System σ α} {emit : σ → α → List β} {x : σ × List β}
    (h : (S.logged emit).Reachable x) : S.Reachable x.1 :=
  System.Reachable.project Prod.fst (System.Reachable.start S)
    (fun _ a _ _ hs => Or.inr ⟨a, (logged_step hs).1⟩) h

/-- Every run can be logged. -/
theorem System.Reachable.log {S : System σ α} (emit : σ → α → List β) {s : σ} (h : S.Reachable s) :
    ∃ l, (S.logged emit).Reachable (s, l) := by
  refine System.Reachable.rule (P := fun s => ∃ l, (S.logged emit).Reachable (s, l))
    ⟨[], System.Reachable.start (S.logged emit)⟩ (fun s a u _ ih hs => ?_) h
  obtain ⟨l, hl⟩ := ih
  refine ⟨l ++ emit s a, hl.next (a := a) ?_⟩
  simp [System.logged, hs]

end Guarded
