import Mathlib.Data.List.Nodup

/-! One pass over a list that advances what can be advanced and stops at the
first element that is then complete, and a round that drops what is stale,
makes the pass from the end of the list, and drops what is finished. -/
namespace Sweep
variable {π ρ : Type*}

/-- The list after the pass, and the elements completed by it. -/
def sweep (advance : π → Option π) (complete : π → Bool) : List π → List π × List π
  | [] => ([], [])
  | p :: ps =>
    match advance p with
    | none => (p :: (sweep advance complete ps).1, (sweep advance complete ps).2)
    | some q =>
      if complete q then (q :: ps, [q])
      else (q :: (sweep advance complete ps).1, (sweep advance complete ps).2)

variable {advance : π → Option π} {complete : π → Bool}

theorem sweep_cons_none {p : π} (h : advance p = none) (ps : List π) :
    sweep advance complete (p :: ps) =
      (p :: (sweep advance complete ps).1, (sweep advance complete ps).2) := by
  simp [sweep, h]

theorem sweep_cons_complete {p q : π} (h : advance p = some q) (hq : complete q = true)
    (ps : List π) : sweep advance complete (p :: ps) = (q :: ps, [q]) := by
  simp [sweep, h, hq]

theorem sweep_cons_some {p q : π} (h : advance p = some q) (hq : complete q = false) (ps : List π) :
    sweep advance complete (p :: ps) =
      (q :: (sweep advance complete ps).1, (sweep advance complete ps).2) := by
  simp [sweep, h, hq]

/-- The three ways in which a pass meets its first element. -/
theorem sweep_cases (advance : π → Option π) (complete : π → Bool) (p : π) :
    advance p = none ∨ ∃ q, advance p = some q ∧ (complete q = true ∨ complete q = false) := by
  cases h : advance p with
  | none => exact Or.inl rfl
  | some q => exact Or.inr ⟨q, rfl, Bool.eq_false_or_eq_true _⟩

theorem length_completed_le (advance : π → Option π) (complete : π → Bool) (l : List π) :
    (sweep advance complete l).2.length ≤ 1 := by
  induction l with
  | nil => simp [sweep]
  | cons p ps ih =>
    obtain h | ⟨q, h, hq | hq⟩ := sweep_cases advance complete p
    · rwa [sweep_cons_none h]
    · rw [sweep_cons_complete h hq]
      exact Nat.le_refl 1
    · rwa [sweep_cons_some h hq]

/-- A map that commutes with one step commutes with the pass. -/
theorem sweep_map {advance' : ρ → Option ρ} {complete' : ρ → Bool} (f : π → ρ)
    (ha : ∀ p, advance' (f p) = (advance p).map f) (hc : ∀ p, complete' (f p) = complete p)
    (l : List π) :
    sweep advance' complete' (l.map f) =
      ((sweep advance complete l).1.map f, (sweep advance complete l).2.map f) := by
  induction l with
  | nil => rfl
  | cons p ps ih =>
    rw [List.map_cons]
    obtain h | ⟨q, h, hq | hq⟩ := sweep_cases advance complete p
    · rw [sweep_cons_none h, sweep_cons_none (by rw [ha, h]; rfl), ih]
      rfl
    · rw [sweep_cons_complete h hq,
        sweep_cons_complete (q := f q) (by rw [ha, h]; rfl) (by rw [hc, hq])]
      rfl
    · rw [sweep_cons_some h hq,
        sweep_cons_some (q := f q) (by rw [ha, h]; rfl) (by rw [hc, hq]), ih]
      rfl

/-- Every element is kept or advanced. -/
theorem mem_sweep {l : List π} {q : π} (h : q ∈ (sweep advance complete l).1) :
    ∃ p ∈ l, q = p ∨ advance p = some q := by
  induction l with
  | nil => simp [sweep] at h
  | cons p ps ih =>
    have hrest (hm : q ∈ (sweep advance complete ps).1) :
        ∃ p' ∈ p :: ps, q = p' ∨ advance p' = some q := by
      obtain ⟨p', hp', hq⟩ := ih hm
      exact ⟨p', List.mem_cons_of_mem _ hp', hq⟩
    obtain ha | ⟨q', ha, hq | hq⟩ := sweep_cases advance complete p
    · rw [sweep_cons_none ha] at h
      obtain rfl | hm := List.mem_cons.mp h
      · exact ⟨q, List.mem_cons_self, Or.inl rfl⟩
      · exact hrest hm
    · rw [sweep_cons_complete ha hq] at h
      obtain rfl | hm := List.mem_cons.mp h
      · exact ⟨p, List.mem_cons_self, Or.inr ha⟩
      · exact ⟨q, List.mem_cons_of_mem _ hm, Or.inl rfl⟩
    · rw [sweep_cons_some ha hq] at h
      obtain rfl | hm := List.mem_cons.mp h
      · exact ⟨p, List.mem_cons_self, Or.inr ha⟩
      · exact hrest hm

/-- A key that advancing does not touch is not touched by the pass. -/
theorem map_sweep {f : π → ρ} {l : List π} (hf : ∀ p ∈ l, ∀ q, advance p = some q → f q = f p) :
    (sweep advance complete l).1.map f = l.map f := by
  induction l with
  | nil => rfl
  | cons p ps ih =>
    have hrest := ih fun p' hp' => hf p' (List.mem_cons_of_mem _ hp')
    obtain ha | ⟨q, ha, hq | hq⟩ := sweep_cases advance complete p
    · rw [sweep_cons_none ha, List.map_cons, hrest, List.map_cons]
    · rw [sweep_cons_complete ha hq, List.map_cons, hf p List.mem_cons_self q ha, List.map_cons]
    · rw [sweep_cons_some ha hq, List.map_cons, hrest, hf p List.mem_cons_self q ha, List.map_cons]

theorem mem_completed {l : List π} {q : π} (h : q ∈ (sweep advance complete l).2) :
    complete q = true ∧ q ∈ (sweep advance complete l).1 ∧ ∃ p ∈ l, advance p = some q := by
  induction l with
  | nil => simp [sweep] at h
  | cons p ps ih =>
    obtain ha | ⟨q', ha, hq | hq⟩ := sweep_cases advance complete p
    · rw [sweep_cons_none ha] at h ⊢
      obtain ⟨hc, hm, p', hp', hadv⟩ := ih h
      exact ⟨hc, List.mem_cons_of_mem _ hm, p', List.mem_cons_of_mem _ hp', hadv⟩
    · rw [sweep_cons_complete ha hq] at h ⊢
      obtain rfl := List.mem_singleton.mp h
      exact ⟨hq, List.mem_cons_self, p, List.mem_cons_self, ha⟩
    · rw [sweep_cons_some ha hq] at h ⊢
      obtain ⟨hc, hm, p', hp', hadv⟩ := ih h
      exact ⟨hc, List.mem_cons_of_mem _ hm, p', List.mem_cons_of_mem _ hp', hadv⟩

/-- A pass that completes nothing has advanced everything it could. -/
theorem sweep_of_completed_nil {l : List π} (h : (sweep advance complete l).2 = []) :
    (sweep advance complete l).1 = l.map fun p => (advance p).getD p := by
  induction l with
  | nil => rfl
  | cons p ps ih =>
    obtain ha | ⟨q, ha, hq | hq⟩ := sweep_cases advance complete p
    · rw [sweep_cons_none ha] at h ⊢
      simp [ih h, ha]
    · rw [sweep_cons_complete ha hq] at h
      cases h
    · rw [sweep_cons_some ha hq] at h ⊢
      simp [ih h, ha]

/-- An element that could be completed makes the pass complete some element. -/
theorem completed_ne_nil {l : List π} {p q : π} (hp : p ∈ l) (ha : advance p = some q)
    (hq : complete q = true) : (sweep advance complete l).2 ≠ [] := by
  induction l with
  | nil => cases hp
  | cons p' ps ih =>
    obtain h | ⟨q', h, hq' | hq'⟩ := sweep_cases advance complete p'
    · rw [sweep_cons_none h]
      obtain rfl | hp := List.mem_cons.mp hp
      · simp [h] at ha
      · exact ih hp
    · rw [sweep_cons_complete h hq']
      exact List.cons_ne_nil _ _
    · rw [sweep_cons_some h hq']
      obtain rfl | hp := List.mem_cons.mp hp
      · rw [h] at ha
        obtain rfl := Option.some.inj ha
        rw [hq] at hq'
        cases hq'
      · exact ih hp

/-- The elements that the pass looks at, in its order: those up to the first that it completes. -/
def visits (advance : π → Option π) (complete : π → Bool) : List π → List π
  | [] => []
  | p :: ps =>
    match advance p with
    | none => p :: visits advance complete ps
    | some q => if complete q then [p] else p :: visits advance complete ps

/-- What the pass makes of an element that it looks at. -/
def moved (advance : π → Option π) (p : π) : π := (advance p).getD p

/-- Advancing the element completes it. -/
def Finishes (advance : π → Option π) (complete : π → Bool) (p : π) : Prop :=
  ∃ q, advance p = some q ∧ complete q = true

/-- What the pass does: it moves every element, or all before the first that it
completes and nothing after that one. -/
inductive Swept (advance : π → Option π) (complete : π → Bool) :
    List π → List π → List π × List π → Prop
  | through {l : List π} (hnone : ∀ p ∈ l, ¬ Finishes advance complete p) :
    Swept advance complete l l (l.map (moved advance), [])
  | stopped {before after : List π} {p q : π} (hnone : ∀ v ∈ before, ¬ Finishes advance complete v)
    (hadvance : advance p = some q) (hcomplete : complete q = true) :
    Swept advance complete (before ++ p :: after) (before ++ [p])
      (before.map (moved advance) ++ q :: after, [q])

theorem Swept.cons {p : π} (hp : ¬ Finishes advance complete p) {l visited : List π}
    {r : List π × List π} (h : Swept advance complete l visited r) :
    Swept advance complete (p :: l) (p :: visited) (moved advance p :: r.1, r.2) := by
  cases h with
  | through hnone => exact .through (List.forall_mem_cons.mpr ⟨hp, hnone⟩)
  | stopped hnone hadvance hcomplete =>
    exact .stopped (List.forall_mem_cons.mpr ⟨hp, hnone⟩) hadvance hcomplete

theorem swept (advance : π → Option π) (complete : π → Bool) (l : List π) :
    Swept advance complete l (visits advance complete l) (sweep advance complete l) := by
  induction l with
  | nil => exact .through (List.forall_mem_nil _)
  | cons p ps ih =>
    obtain h | ⟨q, h, hq | hq⟩ := sweep_cases advance complete p
    · have hp : ¬ Finishes advance complete p := fun ⟨q, hq, _⟩ => by simp [h] at hq
      simpa [sweep_cons_none h, visits, h, moved] using ih.cons hp
    · rw [sweep_cons_complete h hq, visits, h]
      simpa [hq] using Swept.stopped (List.forall_mem_nil _) h hq
    · have hp : ¬ Finishes advance complete p := fun ⟨q', ha, hc⟩ => by
        obtain rfl := Option.some.inj (h.symm.trans ha)
        simp [hq] at hc
      simpa [sweep_cons_some h hq, visits, h, hq, moved] using ih.cons hp

section Round
variable {fresh unfinished : π → Bool}

/-- Drop the stale, sweep the rest from the end, and drop the finished if the
pass has completed something. -/
def round (fresh : π → Bool) (advance : π → Option π) (complete unfinished : π → Bool)
    (l : List π) : List π × List π :=
  let swept := sweep advance complete (l.filter fresh).reverse
  (if swept.2.isEmpty then swept.1.reverse else swept.1.reverse.filter unfinished, swept.2)

theorem round_map {advance' : ρ → Option ρ} {fresh' complete' unfinished' : ρ → Bool} (f : π → ρ)
    (hf : ∀ p, fresh' (f p) = fresh p) (ha : ∀ p, advance' (f p) = (advance p).map f)
    (hc : ∀ p, complete' (f p) = complete p) (hu : ∀ p, unfinished' (f p) = unfinished p)
    (l : List π) :
    round fresh' advance' complete' unfinished' (l.map f) =
      ((round fresh advance complete unfinished l).1.map f,
        (round fresh advance complete unfinished l).2.map f) := by
  have hfresh : fresh' ∘ f = fresh := funext hf
  have hunf : unfinished' ∘ f = unfinished := funext hu
  simp only [round, List.filter_map, hfresh, ← List.map_reverse, sweep_map f ha hc,
    List.isEmpty_map, hunf]
  split <;> rfl

theorem round_sublist (l : List π) : (round fresh advance complete unfinished l).1.Sublist
    (sweep advance complete (l.filter fresh).reverse).1.reverse := by
  simp only [round]
  split
  · exact List.Sublist.refl _
  · exact List.filter_sublist

theorem mem_round {l : List π} {q : π} (h : q ∈ (round fresh advance complete unfinished l).1) :
    ∃ p ∈ l, fresh p = true ∧ (q = p ∨ advance p = some q) := by
  obtain ⟨p, hp, hq⟩ := mem_sweep (List.mem_reverse.mp ((round_sublist l).subset h))
  obtain ⟨hl, hf⟩ := List.mem_filter.mp (List.mem_reverse.mp hp)
  exact ⟨p, hl, hf, hq⟩

theorem mem_round_completed {l : List π} {q : π}
    (h : q ∈ (round fresh advance complete unfinished l).2) :
    complete q = true ∧ ∃ p ∈ l, fresh p = true ∧ advance p = some q := by
  obtain ⟨hc, _, p, hp, ha⟩ := mem_completed h
  obtain ⟨hl, hf⟩ := List.mem_filter.mp (List.mem_reverse.mp hp)
  exact ⟨hc, p, hl, hf, ha⟩

/-- Keys that are distinct before a round are distinct after it, those of the
completed elements included. -/
theorem nodup_round {f : π → ρ} {l : List π} (hn : (l.map f).Nodup)
    (hf : ∀ p ∈ l, ∀ q, advance p = some q → f q = f p)
    (hdrop : ∀ q, complete q = true → unfinished q = false) :
    (((round fresh advance complete unfinished l).2 ++
      (round fresh advance complete unfinished l).1).map f).Nodup := by
  have hkeys : (sweep advance complete (l.filter fresh).reverse).1.map f =
      (l.filter fresh).reverse.map f :=
    map_sweep fun p hp => hf p (List.mem_filter.mp (List.mem_reverse.mp hp)).1
  have hswept : ((sweep advance complete (l.filter fresh).reverse).1.map f).Nodup := by
    rw [hkeys, List.map_reverse, List.nodup_reverse]
    exact hn.sublist (List.filter_sublist.map f)
  have hlen := length_completed_le advance complete (l.filter fresh).reverse
  cases hc : (sweep advance complete (l.filter fresh).reverse).2 with
  | nil => simpa [round, hc, List.nodup_reverse] using hswept
  | cons q rest =>
    obtain rfl : rest = [] := by
      rw [hc, List.length_cons] at hlen
      exact List.eq_nil_of_length_eq_zero (by omega)
    obtain ⟨hq, hmem, _⟩ := mem_completed (q := q) (hc ▸ List.mem_cons_self)
    simp only [round, hc, List.isEmpty_cons, List.singleton_append, List.map_cons, List.nodup_cons]
    constructor
    · intro hin
      obtain ⟨r, hr, he⟩ := List.mem_map.mp hin
      obtain ⟨hr, hu⟩ := List.mem_filter.mp hr
      obtain rfl := List.inj_on_of_nodup_map hswept (List.mem_reverse.mp hr) hmem he
      rw [hdrop r hq] at hu
      cases hu
    · refine List.Nodup.sublist (List.filter_sublist.map f) ?_
      rwa [List.map_reverse, List.nodup_reverse]

theorem round_of_completed_nil {l : List π}
    (h : (round fresh advance complete unfinished l).2 = []) :
    (round fresh advance complete unfinished l).1 =
      (l.filter fresh).map fun p => (advance p).getD p := by
  have h' : (sweep advance complete (l.filter fresh).reverse).2 = [] := h
  simp [round, h', sweep_of_completed_nil h']

theorem round_completes (unfinished : π → Bool) {l : List π} {p q : π} (hp : p ∈ l)
    (hf : fresh p = true) (ha : advance p = some q) (hq : complete q = true) :
    (round fresh advance complete unfinished l).2 ≠ [] :=
  completed_ne_nil (List.mem_reverse.mpr (List.mem_filter.mpr ⟨hp, hf⟩)) ha hq

/-- What a round does to the fresh elements: it moves them all, or those behind
the last one that it can complete, which it drops. The pass visits them from the end. -/
inductive Rounded (advance : π → Option π) (complete unfinished : π → Bool) :
    List π → List π → List π × List π → Prop
  | through {l : List π} (hnone : ∀ p ∈ l, ¬ Finishes advance complete p) :
    Rounded advance complete unfinished l l.reverse (l.map (moved advance), [])
  | stopped {front back : List π} {p q : π} (hnone : ∀ v ∈ back, ¬ Finishes advance complete v)
    (hadvance : advance p = some q) (hcomplete : complete q = true) :
    Rounded advance complete unfinished (front ++ p :: back) (back.reverse ++ [p])
      ((front ++ q :: back.map (moved advance)).filter unfinished, [q])

theorem rounded (fresh : π → Bool) (advance : π → Option π) (complete unfinished : π → Bool)
    (l : List π) : Rounded advance complete unfinished (l.filter fresh)
      (visits advance complete (l.filter fresh).reverse)
      (round fresh advance complete unfinished l) := by
  have hswept := swept advance complete (l.filter fresh).reverse
  rw [round]
  generalize sweep advance complete (l.filter fresh).reverse = r at hswept ⊢
  generalize visits advance complete (l.filter fresh).reverse = visited at hswept ⊢
  generalize hswap : (l.filter fresh).reverse = swapped at hswept
  rw [List.reverse_eq_iff.mp hswap]
  cases hswept with
  | through hnone =>
    have h : Rounded advance complete unfinished visited.reverse _ _ :=
      .through fun p hp => hnone p (List.mem_reverse.mp hp)
    simpa using h
  | @stopped before after p q hnone hadvance hcomplete =>
    have h : Rounded advance complete unfinished (after.reverse ++ p :: before.reverse) _ _ :=
      .stopped (fun v hv => hnone v (List.mem_reverse.mp hv)) hadvance hcomplete
    simpa using h

/-- The visited elements are fresh ones, from the end of the list. -/
theorem Rounded.visited_sublist {l visited : List π} {r : List π × List π}
    (h : Rounded advance complete unfinished l visited r) : visited.Sublist l.reverse := by
  cases h with
  | through => exact List.Sublist.refl _
  | @stopped front back p =>
    rw [List.reverse_append, List.reverse_cons]
    exact List.sublist_append_left _ _

/-- A round completes something if and only if its pass comes to what it can complete. -/
theorem Rounded.completed_ne_nil_iff {l visited : List π} {r : List π × List π}
    (h : Rounded advance complete unfinished l visited r) :
    r.2 ≠ [] ↔ ∃ p ∈ visited, Finishes advance complete p := by
  cases h with
  | through hnone =>
    refine iff_of_false (fun h => h rfl) ?_
    rintro ⟨p, hp, hfinishes⟩
    exact hnone p (List.mem_reverse.mp hp) hfinishes
  | @stopped front back p q hnone hadvance hcomplete =>
    refine iff_of_true (List.cons_ne_nil _ _) ⟨p, ?_, q, hadvance, hcomplete⟩
    exact List.mem_append_right _ List.mem_cons_self

/-- If what the pass visits can be completed all or not at all, it visits everything
or stops at the last element. -/
theorem Rounded.visited_cases {l visited : List π} {r : List π × List π}
    (h : Rounded advance complete unfinished l visited r)
    (hall : ∀ p ∈ visited, ∀ v ∈ visited,
      Finishes advance complete p → Finishes advance complete v) :
    visited = l.reverse ∨
      ∃ front p, l = front ++ [p] ∧ visited = [p] ∧ Finishes advance complete p := by
  cases h with
  | through => exact .inl rfl
  | @stopped front back p q hnone hadvance hcomplete =>
    have hfinishes : Finishes advance complete p := ⟨q, hadvance, hcomplete⟩
    have hp : p ∈ back.reverse ++ [p] := List.mem_append_right _ List.mem_cons_self
    obtain rfl : back = [] := by
      refine List.eq_nil_iff_forall_not_mem.mpr fun v hv => hnone v hv ?_
      exact hall p hp v (List.mem_append_left _ (List.mem_reverse.mpr hv)) hfinishes
    exact .inr ⟨front, p, rfl, rfl, hfinishes⟩

/-- A round that drops only what it completes leaves something if and only if
there are two fresh elements, or one that it does not complete. -/
theorem Rounded.ne_nil_iff {l visited : List π} {r : List π × List π}
    (h : Rounded advance complete unfinished l visited r)
    (hkeep : ∀ p ∈ l, Finishes advance complete p → ∀ v ∈ l, unfinished v = true ∧
      (¬ Finishes advance complete v → unfinished (moved advance v) = true))
    (hdrop : ∀ q, complete q = true → unfinished q = false) :
    r.1 ≠ [] ↔ 2 ≤ l.length ∨ ∃ p ∈ l, ¬ Finishes advance complete p := by
  cases h with
  | through hnone =>
    rw [ne_eq, List.map_eq_nil_iff]
    constructor
    · intro hne
      obtain ⟨p, hp⟩ := List.exists_mem_of_ne_nil _ hne
      exact .inr ⟨p, hp, hnone p hp⟩
    · rintro (hlen | ⟨p, hp, -⟩)
      · exact List.ne_nil_of_length_pos (by omega)
      · exact List.ne_nil_of_mem hp
  | @stopped front back p q hnone hadvance hcomplete =>
    have hfinishes : Finishes advance complete p := ⟨q, hadvance, hcomplete⟩
    have hkept := hkeep p (List.mem_append_right _ List.mem_cons_self) hfinishes
    have hfront : front.filter unfinished = front :=
      List.filter_eq_self.mpr fun v hv => (hkept v (List.mem_append_left _ hv)).1
    have hback : (back.map (moved advance)).filter unfinished = back.map (moved advance) := by
      refine List.filter_eq_self.mpr (List.forall_mem_map.mpr fun v hv => ?_)
      exact (hkept v (List.mem_append_right _ (List.mem_cons_of_mem _ hv))).2 (hnone v hv)
    rw [List.filter_append, List.filter_cons_of_neg (by simp [hdrop q hcomplete]), hfront, hback]
    constructor
    · intro hne
      have hlen := List.length_pos_of_ne_nil hne
      rw [List.length_append, List.length_map] at hlen
      exact .inl (by rw [List.length_append, List.length_cons]; omega)
    · rintro (hlen | ⟨v, hv, hnot⟩)
      · refine List.ne_nil_of_length_pos ?_
        rw [List.length_append, List.length_cons] at hlen
        rw [List.length_append, List.length_map]
        omega
      · obtain hv | hv := List.mem_append.mp hv
        · exact List.ne_nil_of_mem (List.mem_append_left _ hv)
        · obtain rfl | hv := List.mem_cons.mp hv
          · exact absurd hfinishes hnot
          · exact List.ne_nil_of_mem (List.mem_append_right _ (List.mem_map_of_mem hv))

/-- What holds of the fresh elements, and of those that are moved without being
completed, holds of all elements after the round. -/
theorem Rounded.forall {P : π → Prop} {l visited : List π} {r : List π × List π}
    (h : Rounded advance complete unfinished l visited r) (hl : ∀ p ∈ l, P p)
    (hmove : ∀ p ∈ l, ¬ Finishes advance complete p → P (moved advance p))
    (hdrop : ∀ q, complete q = true → unfinished q = false) : ∀ p ∈ r.1, P p := by
  cases h with
  | through hnone => exact List.forall_mem_map.mpr fun p hp => hmove p hp (hnone p hp)
  | @stopped front back p q hnone hadvance hcomplete =>
    intro x hx
    obtain ⟨hx, hkept⟩ := List.mem_filter.mp hx
    obtain hfront | hx := List.mem_append.mp hx
    · exact hl x (List.mem_append_left _ hfront)
    · obtain rfl | hback := List.mem_cons.mp hx
      · rw [hdrop x hcomplete] at hkept
        cases hkept
      · obtain ⟨v, hv, rfl⟩ := List.mem_map.mp hback
        exact hmove v (List.mem_append_right _ (List.mem_cons_of_mem _ hv)) (hnone v hv)

/-- An order that moving keeps, and that an element still has to those moved
behind it when it is itself completed, is kept by a round. -/
theorem Rounded.pairwise {R : π → π → Prop} {l visited : List π} {r : List π × List π}
    (h : Rounded advance complete unfinished l visited r) (hl : l.Pairwise R)
    (htrans : ∀ x y z, R x y → R y z → R x z)
    (hmove : ∀ x y, R x y → R (moved advance x) (moved advance y))
    (hlast : ∀ p v, R p v → Finishes advance complete p → ¬ Finishes advance complete v →
      R p (moved advance v))
    (hdrop : ∀ q, complete q = true → unfinished q = false) : r.1.Pairwise R := by
  cases h with
  | through hnone => exact List.pairwise_map.mpr (hl.imp (hmove _ _))
  | @stopped front back p q hnone hadvance hcomplete =>
    obtain ⟨hfront, hrest, hcross⟩ := List.pairwise_append.mp hl
    obtain ⟨hp, hback⟩ := List.pairwise_cons.mp hrest
    rw [List.filter_append, List.filter_cons_of_neg (by simp [hdrop q hcomplete])]
    refine List.Pairwise.sublist (List.filter_sublist.append List.filter_sublist) ?_
    refine List.pairwise_append.mpr ⟨hfront, List.pairwise_map.mpr (hback.imp (hmove _ _)), ?_⟩
    intro x hx y hy
    obtain ⟨v, hv, rfl⟩ := List.mem_map.mp hy
    exact htrans x p _ (hcross x hx p List.mem_cons_self)
      (hlast p v (hp v hv) ⟨q, hadvance, hcomplete⟩ (hnone v hv))

end Round

end Sweep
