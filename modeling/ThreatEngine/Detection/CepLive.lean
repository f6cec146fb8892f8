import ThreatEngine.Detection.CepSoundness

/-! What is stored between two events. A partial match is removed when it is
completed, so those of a rule of two steps or more can all still be completed.
A rule of one step stores matches that no event can advance. -/
namespace ThreatEngine.Detection

/-- The engine stores only matches that can still be advanced to completion, and
none that satisfies all steps without an alert having been raised for it. -/
structure Live (rules : List CepRule) (stream : List (Nat × NetworkEvent)) : Prop where
  advanceable : ∀ i rule s, rules[i]? = some rule → ∀ p ∈ held rules i s stream,
    1 ≤ p.step ∧ p.step < rule.steps.length
  alerted : ∀ i rule s, rules[i]? = some rule → ∀ p ∈ held rules i s stream,
    rule.steps.length ≤ p.step → ∃ j, FiredFor rules i s stream j

/-- A stored match has been started, and with two steps or more it is unfinished. -/
structure Stored (rule : CepRule) (partials : List PartialMatch) : Prop where
  started : ∀ p ∈ partials, 1 ≤ p.step
  unfinished : 2 ≤ rule.steps.length → ∀ p ∈ partials, p.step < rule.steps.length

section Track
variable {rule : CepRule} {now : Nat} {event : NetworkEvent} {partials : List PartialMatch}
  {p : PartialMatch}

theorem fresh_eq_true_iff : rule.fresh now p = true ↔ now - p.startedAt ≤ rule.window :=
  decide_eq_true_iff

theorem moved_of_expects (h : rule.expects event p.step = true) :
    Sweep.moved (rule.advance event) p = ⟨p.step + 1, p.startedAt⟩ := by
  rw [Sweep.moved, advance_eq_some_iff.mpr ⟨h, rfl⟩]
  rfl

theorem moved_of_not_expects (h : rule.expects event p.step = false) :
    Sweep.moved (rule.advance event) p = p := by
  simp [Sweep.moved, CepRule.advance, h]

@[simp] theorem startedAt_moved (rule : CepRule) (event : NetworkEvent) (p : PartialMatch) :
    (Sweep.moved (rule.advance event) p).startedAt = p.startedAt := by
  cases h : rule.expects event p.step with
  | true => rw [moved_of_expects h]
  | false => rw [moved_of_not_expects h]

/-- What is stored after an event: what the round leaves, and the match that the event starts. -/
theorem mem_track : p ∈ (rule.track now event partials).1 ↔
    p ∈ (Sweep.round (rule.fresh now) (rule.advance event) rule.complete rule.unfinished
        partials).1 ∨
      rule.expects event 0 = true ∧ p = ⟨1, now⟩ := by
  rw [CepRule.track]
  split
  · next h => simp [h]
  · next h => simp [h]

/-- A match that is moved but not completed is still unfinished. -/
theorem moved_lt (h : p.step < rule.steps.length)
    (hnot : ¬ Sweep.Finishes (rule.advance event) rule.complete p) :
    (Sweep.moved (rule.advance event) p).step < rule.steps.length := by
  cases he : rule.expects event p.step with
  | true =>
    rw [moved_of_expects he]
    exact Nat.lt_of_le_of_ne h fun hlast => hnot (finishes_iff.mpr ⟨he, hlast⟩)
  | false => rwa [moved_of_not_expects he]

/-- The step lemma: with two steps or more nothing finished is stored. -/
theorem track_unfinished (hn : 2 ≤ rule.steps.length)
    (h : ∀ p ∈ partials, p.step < rule.steps.length) :
    ∀ p ∈ (rule.track now event partials).1, p.step < rule.steps.length := by
  intro p hp
  obtain hround | ⟨-, rfl⟩ := mem_track.mp hp
  · exact (Sweep.rounded _ _ _ _ _).forall (fun p hp => h p (List.mem_filter.mp hp).1)
      (fun p hp => moved_lt (h p (List.mem_filter.mp hp).1)) (fun _ => unfinished_of_complete)
      p hround
  · exact hn

end Track

section Runs
variable {rules : List CepRule} {i : Nat} {rule : CepRule} {s : UInt32}
  {stream : List (Nat × NetworkEvent)} {p : PartialMatch}

/-- What tracking an event keeps holds of what is held after every run. -/
theorem held_keeps {P : List PartialMatch → Prop} (hr : rules[i]? = some rule) (hnil : P [])
    (htrack : ∀ now event partials, P partials → P (rule.track now event partials).1)
    (s : UInt32) (stream : List (Nat × NetworkEvent)) : P (held rules i s stream) := by
  induction stream using List.reverseRecOn with
  | nil => rwa [held_nil]
  | append_singleton stream x ih =>
    rw [held_concat hr]
    split
    · exact htrack x.1 x.2 _ ih
    · exact ih

theorem held_unfinished (hr : rules[i]? = some rule) (hn : 2 ≤ rule.steps.length)
    (hp : p ∈ held rules i s stream) : p.step < rule.steps.length :=
  held_keeps (P := fun partials => ∀ p ∈ partials, p.step < rule.steps.length) hr
    (List.forall_mem_nil _) (fun _ _ _ => track_unfinished hn) s stream p hp

/-- A stored match traces events of its source, as many as its steps and the
first of them at the instant at which it was started. -/
theorem held_explained (hr : rules[i]? = some rule) (hp : p ∈ held rules i s stream) :
    ∃ idx, Explained rule s stream (p, idx) := by
  obtain ⟨tagged, used, hheld, hacc⟩ := accounted_of_run hr s stream
  obtain ⟨x, hx, rfl⟩ := List.mem_map.mp (hheld ▸ hp)
  exact ⟨x.2, hacc.explained x hx⟩

/-- The event that has started a stored match. -/
theorem held_started (hr : rules[i]? = some rule) (hp : p ∈ held rules i s stream) :
    1 ≤ p.step ∧ ∃ x ∈ stream, x.1 = p.startedAt ∧ x.2.srcIp = s ∧ rule.expects x.2 0 = true := by
  obtain ⟨idx, h⟩ := held_explained hr hp
  obtain ⟨o, e, ho, hx⟩ := h.started
  have hfirst : idx[0]? = some o := List.head?_eq_getElem?.symm.trans ho
  have hlen : idx.length = p.step := h.length
  obtain ⟨hpos, _⟩ := List.getElem?_eq_some_iff.mp hfirst
  obtain ⟨t, e', c, hx', hs, hc⟩ := h.satisfies 0 o hfirst
  obtain ⟨rfl, rfl⟩ := Prod.mk.inj (Option.some.inj (hx.symm.trans hx'))
  exact ⟨hlen ▸ hpos, (p.startedAt, e), List.mem_of_getElem? hx, rfl, hs,
    expects_eq_true_iff.mpr ⟨c, hc⟩⟩

theorem stored_held (hr : rules[i]? = some rule) (s : UInt32) (stream : List (Nat × NetworkEvent)) :
    Stored rule (held rules i s stream) :=
  ⟨fun _ hp => (held_started hr hp).1, fun hn _ hp => held_unfinished hr hn hp⟩

/-- A rule without steps starts nothing, and a match does not outgrow its rule. -/
theorem held_step_le (hr : rules[i]? = some rule) (hp : p ∈ held rules i s stream) :
    p.step ≤ rule.steps.length := by
  obtain ⟨idx, h⟩ := held_explained hr hp
  have hlen : idx.length = p.step := h.length
  by_contra hlt
  have hlast : rule.steps.length < idx.length := by omega
  obtain ⟨_, _, c, _, _, hc, _⟩ := h.satisfies _ _ (List.getElem?_eq_getElem hlast)
  simp at hc

/-- The only step of a one-step rule is never alerted: its matches are complete
when they are started, and only advancing a match raises an alert. -/
theorem single_step_never_raised (hr : rules[i]? = some rule) (hone : rule.steps.length = 1)
    (stream : List (Nat × NetworkEvent)) (j : Nat) : raised rules i stream j = [] := by
  cases hx : stream[j]? with
  | none => exact raised_of_length_le (List.getElem?_eq_none_iff.mp hx)
  | some x =>
    obtain ⟨id, hid⟩ := raised_eq hr hx
    suffices hnil : (rule.track x.1 x.2 (held rules i x.2.srcIp (stream.take j))).2 = [] by
      rw [hid, hnil]
      rfl
    by_contra hne
    obtain ⟨p, hp, hfinishes⟩ := exists_finishes hne
    have hlast := (finishes_iff.mp hfinishes).2
    have hpos := (held_started hr hp).1
    omega

/-- The stored state is live throughout a run if and only if no event of the run
satisfies the step of a one-step rule. -/
theorem stored_live_iff (rules : List CepRule) (stream : List (Nat × NetworkEvent)) :
    (∀ n, Live rules (stream.take n)) ↔
      ∀ rule ∈ rules, rule.steps.length = 1 → ∀ x ∈ stream, rule.expects x.2 0 = false := by
  constructor
  · intro h rule hrule hone x hx
    obtain ⟨i, hr⟩ := List.getElem?_of_mem hrule
    obtain ⟨k, hk⟩ := List.getElem?_of_mem hx
    by_contra hexp
    -- the event stores a match that is already complete
    have hheld : ⟨1, x.1⟩ ∈ held rules i x.2.srcIp (stream.take (k + 1)) := by
      rw [List.take_add_one, hk, Option.toList_some, held_concat hr, if_pos rfl]
      exact mem_track.mpr (.inr ⟨(Bool.not_eq_false _).mp hexp, rfl⟩)
    have hlive := (h (k + 1)).advanceable i rule _ hr _ hheld
    omega
  · intro h n
    have hlive : ∀ i rule s, rules[i]? = some rule → ∀ p ∈ held rules i s (stream.take n),
        1 ≤ p.step ∧ p.step < rule.steps.length := by
      intro i rule s hr p hp
      obtain ⟨hpos, x, hx, _, _, hexp⟩ := held_started hr hp
      have hle := held_step_le hr hp
      refine ⟨hpos, ?_⟩
      by_cases hone : rule.steps.length = 1
      · have hno := h rule (List.mem_of_getElem? hr) hone x (List.mem_of_mem_take hx)
        rw [hno] at hexp
        cases hexp
      · exact held_unfinished hr (by omega) hp
    refine ⟨hlive, fun i rule s hr p hp hge => ?_⟩
    exact absurd (hlive i rule s hr p hp).2 (Nat.not_lt.mpr hge)

end Runs

/-- A rule of one step, and an event that satisfies it. -/
def synRule : CepRule := ⟨"syn-seen", .low, [.isSynOnly], 5000000000⟩

theorem finished_match_stored : ¬ ∀ (rules : List CepRule) (stream : List (Nat × NetworkEvent)),
    (∀ rule ∈ rules, 1 ≤ rule.steps.length) → ∀ n, Live rules (stream.take n) := by
  intro h
  have hlive := (h [synRule] [(0, synEvent 42)] (by simp [synRule]) 1).advanceable 0 synRule 42 rfl
    ⟨1, 0⟩ (by decide)
  exact absurd hlive.2 (by decide)

end ThreatEngine.Detection
