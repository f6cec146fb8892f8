import ThreatEngine.Detection.CepLive

/-! The order in which the pass over a source's matches goes. They are stored with
the furthest along first, and the pass starts at the other end. -/
namespace ThreatEngine.Detection

/-- The matches that the loop looks at, in its order: the fresh ones from the end
of the list, up to the one that it completes. -/
def CepRule.visited (rule : CepRule) (now : Nat) (event : NetworkEvent)
    (partials : List PartialMatch) : List PartialMatch :=
  Sweep.visits (rule.advance event) rule.complete (partials.filter (rule.fresh now)).reverse

/-- The loop goes from the furthest along to the least, a completed match comes
before every less advanced one, and none of those is advanced by the same event. -/
structure Prioritized (rule : CepRule) (now : Nat) (event : NetworkEvent)
    (partials : List PartialMatch) : Prop where
  order : (rule.visited now event partials).Pairwise fun p q => q.step ≤ p.step
  first : ∀ p ∈ rule.visited now event partials,
    Sweep.Finishes (rule.advance event) rule.complete p →
      ∀ q ∈ rule.visited now event partials, p.step ≤ q.step
  alone : ∀ p ∈ rule.visited now event partials,
    Sweep.Finishes (rule.advance event) rule.complete p →
      ∀ q ∈ rule.visited now event partials, q.step < p.step → rule.advance event q = none

section Track
variable {rule : CepRule} {now : Nat} {event : NetworkEvent} {partials : List PartialMatch}

@[simp] theorem step_moved (rule : CepRule) (event : NetworkEvent) (p : PartialMatch) :
    (Sweep.moved (rule.advance event) p).step = p.step + (rule.expects event p.step).toNat := by
  cases h : rule.expects event p.step with
  | true => rw [moved_of_expects h, Bool.toNat_true]
  | false => rw [moved_of_not_expects h, Bool.toNat_false, Nat.add_zero]

/-- The visited matches are the fresh ones behind the completed one, and this one. -/
theorem visited_rounded (rule : CepRule) (now : Nat) (event : NetworkEvent)
    (partials : List PartialMatch) :
    Sweep.Rounded (rule.advance event) rule.complete rule.unfinished
      (partials.filter (rule.fresh now)) (rule.visited now event partials)
      (Sweep.round (rule.fresh now) (rule.advance event) rule.complete rule.unfinished partials) :=
  Sweep.rounded _ _ _ _ _

/-- The event completes a match if and only if the loop comes to one that it can complete. -/
theorem completes_iff_visited : (rule.track now event partials).2 ≠ [] ↔
    ∃ p ∈ rule.visited now event partials, Sweep.Finishes (rule.advance event) rule.complete p :=
  (visited_rounded rule now event partials).completed_ne_nil_iff

/-- Moving does not let a match overtake one that is as far along or further. -/
theorem step_moved_le {p q : PartialMatch} (h : q.step ≤ p.step) :
    (Sweep.moved (rule.advance event) q).step ≤ (Sweep.moved (rule.advance event) p).step := by
  rw [step_moved, step_moved]
  obtain hlt | heq := Nat.lt_or_eq_of_le h
  · have := Bool.toNat_le (rule.expects event q.step)
    omega
  · rw [heq]

/-- Nor does one overtake the match at which the pass stops. -/
theorem step_moved_le_of_finishes {p q : PartialMatch} (h : q.step ≤ p.step)
    (hp : Sweep.Finishes (rule.advance event) rule.complete p)
    (hq : ¬ Sweep.Finishes (rule.advance event) rule.complete q) :
    (Sweep.moved (rule.advance event) q).step ≤ p.step := by
  obtain hlt | heq := Nat.lt_or_eq_of_le h
  · have := Bool.toNat_le (rule.expects event q.step)
    rw [step_moved]
    omega
  · exact absurd (finishes_iff.mpr (heq ▸ finishes_iff.mp hp)) hq

/-- The step lemma: the furthest along stay first, and a new match is last. -/
theorem track_sorted (h : Stored rule partials)
    (hsorted : partials.Pairwise fun p q => q.step ≤ p.step) :
    (rule.track now event partials).1.Pairwise fun p q => q.step ≤ p.step := by
  have hrounded := visited_rounded rule now event partials
  have hround := hrounded.pairwise (hsorted.sublist List.filter_sublist)
    (fun _ _ _ hxy hyz => Nat.le_trans hyz hxy) (fun _ _ => step_moved_le)
    (fun _ _ => step_moved_le_of_finishes) (fun _ => unfinished_of_complete)
  have hstarted : ∀ p ∈ partials.filter (rule.fresh now), 1 ≤ p.step :=
    fun p hp => h.started p (List.mem_filter.mp hp).1
  have hround_started := hrounded.forall hstarted
    (fun p hp _ => (step_moved rule event p).symm ▸ Nat.le_add_right_of_le (hstarted p hp))
    (fun _ => unfinished_of_complete)
  rw [CepRule.track]
  split
  · refine List.pairwise_append.mpr ⟨hround, List.pairwise_singleton _ _, fun p hp q hq => ?_⟩
    rw [List.mem_singleton.mp hq]
    exact hround_started p hp
  · exact hround

/-- The visited matches are in the claimed order only if they are all at one step. -/
theorem visited_same_step (hsorted : partials.Pairwise fun p q => q.step ≤ p.step)
    (horder : (rule.visited now event partials).Pairwise fun p q => q.step ≤ p.step) :
    ∀ p ∈ rule.visited now event partials, ∀ q ∈ rule.visited now event partials,
      p.step = q.step := by
  have hascending : (rule.visited now event partials).Pairwise fun p q => p.step ≤ q.step :=
    (List.pairwise_reverse.mpr (hsorted.sublist List.filter_sublist)).sublist
      (visited_rounded rule now event partials).visited_sublist
  have hle := List.Pairwise.forall_of_forall_of_flip
    (R := fun p q : PartialMatch => p.step ≤ q.step) (fun _ _ => le_rfl) hascending horder
  exact fun p hp q hq => le_antisymm (hle hp hq) (hle hq hp)

/-- If the visited matches are all at one step, so are all fresh ones: the pass
ends at the newest, or those in front of where it ends are at its step too. -/
theorem fresh_same_step (h : Stored rule partials)
    (hsorted : partials.Pairwise fun p q => q.step ≤ p.step)
    (hvisited : ∀ p ∈ rule.visited now event partials, ∀ q ∈ rule.visited now event partials,
      p.step = q.step) :
    ∀ p ∈ partials.filter (rule.fresh now), ∀ q ∈ partials.filter (rule.fresh now),
      p.step = q.step := by
  have hfinish : ∀ p ∈ rule.visited now event partials, ∀ v ∈ rule.visited now event partials,
      Sweep.Finishes (rule.advance event) rule.complete p →
        Sweep.Finishes (rule.advance event) rule.complete v :=
    fun p hp v hv h => finishes_iff.mpr (hvisited p hp v hv ▸ finishes_iff.mp h)
  obtain hall | ⟨front, p, hfresh, _, hp⟩ :=
    (visited_rounded rule now event partials).visited_cases hfinish
  · intro p hp q hq
    exact hvisited p (hall ▸ List.mem_reverse.mpr hp) q (hall ▸ List.mem_reverse.mpr hq)
  · have hfresh_sorted : (front ++ [p]).Pairwise fun p q => q.step ≤ p.step :=
      hfresh ▸ hsorted.sublist List.filter_sublist
    have hmem : ∀ x ∈ front ++ [p], x ∈ partials := by
      rw [← hfresh]
      exact fun x hx => (List.mem_filter.mp hx).1
    have hlast := (finishes_iff.mp hp).2
    have hpos := h.started p (hmem p (List.mem_append_right _ List.mem_cons_self))
    have hat : ∀ x ∈ front ++ [p], x.step = p.step := by
      intro x hx
      obtain hx' | hx' := List.mem_append.mp hx
      · have hge : p.step ≤ x.step :=
          (List.pairwise_append.mp hfresh_sorted).2.2 x hx' p List.mem_cons_self
        have hlt := h.unfinished (by omega) x (hmem x hx)
        omega
      · rw [List.mem_singleton.mp hx']
    rw [hfresh]
    exact fun x hx y hy => (hat x hx).trans (hat y hy).symm

/-- Sorted lists of unfinished matches are visited in the claimed order if and
only if all their fresh matches are at one step. -/
theorem prioritized_iff (h : Stored rule partials)
    (hsorted : partials.Pairwise fun p q => q.step ≤ p.step) :
    Prioritized rule now event partials ↔ ∀ p ∈ partials.filter (rule.fresh now),
      ∀ q ∈ partials.filter (rule.fresh now), p.step = q.step := by
  constructor
  · intro hprioritized
    exact fresh_same_step h hsorted (visited_same_step hsorted hprioritized.order)
  · intro hsame
    have hfresh : ∀ p ∈ rule.visited now event partials, p ∈ partials.filter (rule.fresh now) := by
      have hsublist := (visited_rounded rule now event partials).visited_sublist
      exact fun p hp => List.mem_reverse.mp (hsublist.subset hp)
    have heq : ∀ p ∈ rule.visited now event partials, ∀ q ∈ rule.visited now event partials,
        p.step = q.step := fun p hp q hq => hsame p (hfresh p hp) q (hfresh q hq)
    refine ⟨List.pairwise_of_forall_mem_list fun p hp q hq => (heq p hp q hq).ge,
      fun p hp _ q hq => (heq p hp q hq).le, fun p hp _ q hq hlt => ?_⟩
    exact absurd (heq p hp q hq) hlt.ne'

end Track

section Runs
variable {rules : List CepRule} {i : Nat} {rule : CepRule}

/-- In every reachable state the matches of a source are stored with the furthest along first. -/
theorem held_sorted (hr : rules[i]? = some rule) (s : UInt32) (stream : List (Nat × NetworkEvent)) :
    (held rules i s stream).Pairwise fun p q => q.step ≤ p.step := by
  induction stream using List.reverseRecOn with
  | nil =>
    rw [held_nil]
    exact .nil
  | append_singleton stream x ih =>
    rw [held_concat hr]
    split
    · exact track_sorted (stored_held hr s stream) ih
    · exact ih

/-- On an event the matches of its source are visited from the furthest along,
and a completing one before every less advanced one, if and only if those that
have not expired are all at one step. -/
theorem completing_match_first_iff (hr : rules[i]? = some rule) (stream : List (Nat × NetworkEvent))
    (now : Nat) (event : NetworkEvent) :
    Prioritized rule now event (held rules i event.srcIp stream) ↔
      ∀ p ∈ held rules i event.srcIp stream, ∀ q ∈ held rules i event.srcIp stream,
        now - p.startedAt ≤ rule.window → now - q.startedAt ≤ rule.window → p.step = q.step := by
  rw [prioritized_iff (stored_held hr _ stream) (held_sorted hr _ stream)]
  simp only [List.mem_filter, fresh_eq_true_iff]
  exact ⟨fun h p hp q hq hpf hqf => h p ⟨hp, hpf⟩ q ⟨hq, hqf⟩,
    fun h p hp q hq => h p hp.1 q hq.1 hp.2 hq.2⟩

/-- Rules of two steps show no difference: all their stored matches are at step 1. -/
theorem prioritized_of_two_steps (hr : rules[i]? = some rule) (hn : rule.steps.length ≤ 2)
    (stream : List (Nat × NetworkEvent)) (now : Nat) (event : NetworkEvent) :
    Prioritized rule now event (held rules i event.srcIp stream) := by
  have hone : ∀ p ∈ held rules i event.srcIp stream, p.step = 1 := by
    intro p hp
    have hpos := (stored_held hr _ stream).started p hp
    have hle := held_step_le hr hp
    by_contra hne
    have hlt := (stored_held hr _ stream).unfinished (by omega) p hp
    omega
  rw [prioritized_iff (stored_held hr _ stream) (held_sorted hr _ stream)]
  intro p hp q hq
  rw [hone p (List.mem_filter.mp hp).1, hone q (List.mem_filter.mp hq).1]

end Runs

/-- A SYN and two events to any port but 0. -/
def threeStepRule : CepRule :=
  ⟨"syn-then-two", .medium, [.isSynOnly, .distinctPortAbove 0, .distinctPortAbove 0], 5000000000⟩

/-- Two SYNs to port 0, and an event that both their matches wait for. -/
def bothAdvanced : List (Nat × NetworkEvent) :=
  [(0, { synEvent 42 with dstPort := 0 }), (1, { synEvent 42 with dstPort := 0 }), (2, payloadEvent 42)]

/-- Of two matches at one step the order does not matter, of two at different steps it does. -/
theorem completing_match_first_iff_threeStep :
    (held [threeStepRule] 0 42 bothAdvanced = [⟨2, 0⟩, ⟨2, 1⟩] ∧
      Prioritized threeStepRule 3 (payloadEvent 42) (held [threeStepRule] 0 42 bothAdvanced)) ∧
    held [threeStepRule] 0 42 [(0, synEvent 42), (1, synEvent 42)] = [⟨2, 0⟩, ⟨1, 1⟩] ∧
      ¬ Prioritized threeStepRule 2 (synEvent 42)
        (held [threeStepRule] 0 42 [(0, synEvent 42), (1, synEvent 42)]) := by
  have hsame : held [threeStepRule] 0 42 bothAdvanced = [⟨2, 0⟩, ⟨2, 1⟩] := by decide
  have hapart : held [threeStepRule] 0 42 [(0, synEvent 42), (1, synEvent 42)] =
      [⟨2, 0⟩, ⟨1, 1⟩] := by decide
  refine ⟨⟨hsame, ?_⟩, hapart, fun hpriority => ?_⟩
  · refine (completing_match_first_iff rfl bothAdvanced 3 (payloadEvent 42)).mpr ?_
    rw [show (payloadEvent 42).srcIp = 42 from rfl, hsame]
    decide
  · have hsteps := (completing_match_first_iff rfl [(0, synEvent 42), (1, synEvent 42)] 2
      (synEvent 42)).mp hpriority
    rw [show (synEvent 42).srcIp = 42 from rfl, hapart] at hsteps
    exact absurd (hsteps ⟨2, 0⟩ (by decide) ⟨1, 1⟩ (by decide) (by decide) (by decide)) (by decide)

/-- On the third SYN of a source the match of the second is visited and advanced
before that of the first, which is then completed. -/
theorem less_advanced_visited_first : ¬ ∀ (rules : List CepRule) (i : Nat) (rule : CepRule),
    rules[i]? = some rule →
      ∀ (stream : List (Nat × NetworkEvent)) (now : Nat) (event : NetworkEvent),
      Prioritized rule now event (held rules i event.srcIp stream) := by
  intro h
  have hpriority := h [threeStepRule] 0 threeStepRule rfl [(0, synEvent 42), (1, synEvent 42)] 2
    (synEvent 42)
  have hheld : held [threeStepRule] 0 42 [(0, synEvent 42), (1, synEvent 42)] =
      [⟨2, 0⟩, ⟨1, 1⟩] := by
    decide
  have hvisited : threeStepRule.visited 2 (synEvent 42) [⟨2, 0⟩, ⟨1, 1⟩] = [⟨1, 1⟩, ⟨2, 0⟩] := by
    decide
  have hfirst := hpriority.first
  rw [show (synEvent 42).srcIp = 42 from rfl, hheld, hvisited] at hfirst
  have hle := hfirst ⟨2, 0⟩ (by decide) (finishes_iff.mpr (by decide)) ⟨1, 1⟩ (by decide)
  exact absurd hle (by decide)

end ThreatEngine.Detection
