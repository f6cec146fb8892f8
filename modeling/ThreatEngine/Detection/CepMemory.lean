import Mathlib.Data.Set.Card
import ThreatEngine.Detection.CepLive

/-! What `active` holds. `process` creates an entry for every source, expires
matches of the event's own source only and removes no entry, so its memory
follows recent traffic only while no source has anything to be forgotten. -/
namespace ThreatEngine.Detection

/-- The sources that the map of rule `i` has an entry for. -/
def CepEngine.keys (engine : CepEngine) (i : Nat) : Set UInt32 :=
  {s | ∃ partials, engine.active[i]? = some partials ∧ (partials s).isSome}

/-- The entries of rule `i` after the stream. -/
def keysAfter (rules : List CepRule) (i : Nat) (stream : List (Nat × NetworkEvent)) : Set UInt32 :=
  ((cepMachine rules).after (cepMachine rules).init stream).keys i

/-- The sources with an event in the last `window` before `now`. -/
def recentSources (stream : List (Nat × NetworkEvent)) (now window : Nat) : Finset UInt32 :=
  ((stream.filter fun x => now - x.1 ≤ window).map fun x => x.2.srcIp).toFinset

/-- At instant `now` the engine stores recent matches only, no empty list, and
for each rule no more lists than there are sources with recent events. -/
structure MemoryBounded (rules : List CepRule) (stream : List (Nat × NetworkEvent)) (now : Nat) :
    Prop where
  recent : ∀ i rule s, rules[i]? = some rule → ∀ p ∈ held rules i s stream,
    now - p.startedAt ≤ rule.window
  nonempty : ∀ i rule s, rules[i]? = some rule → s ∈ keysAfter rules i stream →
    held rules i s stream ≠ []
  few : ∀ i rule, rules[i]? = some rule →
    (keysAfter rules i stream).ncard ≤ (recentSources stream now rule.window).card

/-- The event starts a match, or leaves one of those stored that are still fresh:
it does not complete it, or there is another one. -/
def CepRule.leavesMatch (rule : CepRule) (now : Nat) (event : NetworkEvent)
    (partials : List PartialMatch) : Prop :=
  rule.expects event 0 = true ∨ 2 ≤ (partials.filter (rule.fresh now)).length ∨
    ∃ p ∈ partials.filter (rule.fresh now), ¬ Sweep.Finishes (rule.advance event) rule.complete p

/-- Before the event no other source has a match that has become stale, and the
event leaves its own source with a match. -/
def NothingToForget (rules : List CepRule) (stream : List (Nat × NetworkEvent))
    (x : Nat × NetworkEvent) : Prop :=
  ∀ i rule, rules[i]? = some rule →
    (∀ s ≠ x.2.srcIp, ∀ p ∈ held rules i s stream, x.1 - p.startedAt ≤ rule.window) ∧
    rule.leavesMatch x.1 x.2 (held rules i x.2.srcIp stream)

section Track
variable {rule : CepRule} {now : Nat} {event : NetworkEvent} {partials : List PartialMatch}

/-- What is stored for the source of an event is fresh after it. -/
theorem fresh_track : ∀ p ∈ (rule.track now event partials).1, now - p.startedAt ≤ rule.window := by
  intro p hp
  obtain hround | ⟨-, rfl⟩ := mem_track.mp hp
  · refine (Sweep.rounded _ _ _ _ _).forall (P := fun p => now - p.startedAt ≤ rule.window)
      (fun p hp => fresh_eq_true_iff.mp (List.mem_filter.mp hp).2) (fun p hp _ => ?_)
      (fun _ => unfinished_of_complete) p hround
    rw [startedAt_moved]
    exact fresh_eq_true_iff.mp (List.mem_filter.mp hp).2
  · simp

/-- A round empties the list if and only if nothing was fresh or it completes the
only fresh match. -/
theorem round_ne_nil_iff (h : Stored rule partials) :
    (Sweep.round (rule.fresh now) (rule.advance event) rule.complete rule.unfinished
        partials).1 ≠ [] ↔
      2 ≤ (partials.filter (rule.fresh now)).length ∨ ∃ p ∈ partials.filter (rule.fresh now),
        ¬ Sweep.Finishes (rule.advance event) rule.complete p := by
  refine (Sweep.rounded _ _ _ _ _).ne_nil_iff (fun p hp hfinishes v hv => ?_)
    fun _ => unfinished_of_complete
  -- a rule that completes a stored match has two steps at least
  have hn : 2 ≤ rule.steps.length := by
    have hlast := (finishes_iff.mp hfinishes).2
    have hpos := h.started p (List.mem_filter.mp hp).1
    omega
  have hlt := h.unfinished hn v (List.mem_filter.mp hv).1
  exact ⟨decide_eq_true hlt, fun hnot => decide_eq_true (moved_lt hlt hnot)⟩

theorem track_ne_nil_iff (h : Stored rule partials) :
    (rule.track now event partials).1 ≠ [] ↔ rule.leavesMatch now event partials := by
  rw [CepRule.leavesMatch, ← round_ne_nil_iff h, CepRule.track]
  split
  · next he => simp [he]
  · next he => simp [he]

end Track

section Runs
variable {rules : List CepRule} {i : Nat} {rule : CepRule} {stream : List (Nat × NetworkEvent)}

theorem keys_processEach {engine : CepEngine} (now : Nat) (event : NetworkEvent)
    (hr : engine.rules[i]? = some rule) :
    (engine.processEach now event).1.keys i = insert event.srcIp (engine.keys i) := by
  obtain ⟨partials, hp⟩ := CepEngine.exists_partials hr
  have hspec := (processRules_spec now event engine.nextId hr hp).1
  ext s
  have hactive : (engine.processEach now event).1.active[i]? = some _ := hspec
  simp only [CepEngine.keys, Set.mem_ofPred_eq, Set.mem_insert_iff, hactive, hp, Option.some.injEq,
    exists_eq_left']
  by_cases hs : s = event.srcIp <;> simp [hs]

/-- Every source that has sent an event keeps its entry. -/
theorem mem_keysAfter (hr : rules[i]? = some rule) {s : UInt32}
    (stream : List (Nat × NetworkEvent)) :
    s ∈ keysAfter rules i stream ↔ ∃ x ∈ stream, x.2.srcIp = s := by
  induction stream using List.reverseRecOn with
  | nil =>
    simp [keysAfter, CepEngine.keys, Mealy.Machine.after, cepMachine, CepEngine.ofRules, hr,
      -List.map_const']
  | append_singleton stream x ih =>
    have hkeys : keysAfter rules i (stream ++ [x]) =
        insert x.2.srcIp (keysAfter rules i stream) := by
      rw [keysAfter, Mealy.after_append]
      exact keys_processEach x.1 x.2 ((after_rules rules stream).symm ▸ hr)
    rw [hkeys, Set.mem_insert_iff, ih]
    simp [or_comm, eq_comm]

/-- With recent matches only and no empty list, the entries are of recent sources. -/
theorem keysAfter_subset_recent {now : Nat} (hr : rules[i]? = some rule)
    (hrecent : ∀ s, ∀ p ∈ held rules i s stream, now - p.startedAt ≤ rule.window)
    (hnonempty : ∀ s ∈ keysAfter rules i stream, held rules i s stream ≠ []) :
    keysAfter rules i stream ⊆ recentSources stream now rule.window := by
  intro s hs
  obtain ⟨p, hp⟩ := List.exists_mem_of_ne_nil _ (hnonempty s hs)
  obtain ⟨-, x, hx, hstart, hsrc, -⟩ := held_started hr hp
  have hnow : now - x.1 ≤ rule.window := hstart ▸ hrecent s p hp
  exact List.mem_toFinset.mpr
    (List.mem_map.mpr ⟨x, List.mem_filter.mpr ⟨hx, decide_eq_true hnow⟩, hsrc⟩)

/-- The step lemma. -/
theorem memoryBounded_concat (x : Nat × NetworkEvent) :
    MemoryBounded rules (stream ++ [x]) x.1 ↔ NothingToForget rules stream x ∧
      ∀ i rule, rules[i]? = some rule → ∀ s ∈ keysAfter rules i stream, s ≠ x.2.srcIp →
        held rules i s stream ≠ [] := by
  have hown (i : Nat) (rule : CepRule) (hr : rules[i]? = some rule) :
      held rules i x.2.srcIp (stream ++ [x]) ≠ [] ↔
        rule.leavesMatch x.1 x.2 (held rules i x.2.srcIp stream) := by
    rw [held_concat hr, if_pos rfl]
    exact track_ne_nil_iff (stored_held hr _ stream)
  have hother (i : Nat) (rule : CepRule) (hr : rules[i]? = some rule) (s : UInt32)
      (hs : s ≠ x.2.srcIp) :
      held rules i s (stream ++ [x]) = held rules i s stream := by
    rw [held_concat hr, if_neg hs]
  have hkeys (i : Nat) (rule : CepRule) (hr : rules[i]? = some rule) (s : UInt32) :
      s ∈ keysAfter rules i (stream ++ [x]) ↔ s ∈ keysAfter rules i stream ∨ s = x.2.srcIp := by
    rw [mem_keysAfter hr, mem_keysAfter hr]
    simp [or_and_right, exists_or, eq_comm]
  constructor
  · intro h
    refine ⟨fun i rule hr => ⟨fun s hs p hp => ?_, ?_⟩, fun i rule hr s hkey hs => ?_⟩
    · exact h.recent i rule s hr p (hother i rule hr s hs ▸ hp)
    · exact (hown i rule hr).mp (h.nonempty i rule _ hr ((hkeys i rule hr _).mpr (.inr rfl)))
    · rw [← hother i rule hr s hs]
      exact h.nonempty i rule s hr ((hkeys i rule hr s).mpr (.inl hkey))
  · rintro ⟨hforget, hold⟩
    have hrecent : ∀ i rule s, rules[i]? = some rule → ∀ p ∈ held rules i s (stream ++ [x]),
        x.1 - p.startedAt ≤ rule.window := by
      intro i rule s hr p hp
      by_cases hs : s = x.2.srcIp
      · rw [held_concat hr, if_pos hs] at hp
        exact fresh_track p hp
      · exact (hforget i rule hr).1 s hs p (hother i rule hr s hs ▸ hp)
    have hnonempty : ∀ i rule s, rules[i]? = some rule → s ∈ keysAfter rules i (stream ++ [x]) →
        held rules i s (stream ++ [x]) ≠ [] := by
      intro i rule s hr hkey
      by_cases hs : s = x.2.srcIp
      · subst hs
        exact (hown i rule hr).mpr (hforget i rule hr).2
      · rw [hother i rule hr s hs]
        exact hold i rule hr s (((hkeys i rule hr s).mp hkey).resolve_right hs) hs
    refine ⟨hrecent, hnonempty, fun i rule hr => ?_⟩
    have hsub := keysAfter_subset_recent hr (fun s => hrecent i rule s hr)
      fun s => hnonempty i rule s hr
    exact (Set.ncard_le_ncard hsub).trans (Set.ncard_coe_finset _).le

/-- Memory is bounded by recent traffic throughout a run if and only if at every
event there is nothing to forget. -/
theorem memory_bounded_iff (rules : List CepRule) (stream : List (Nat × NetworkEvent)) :
    (∀ k x, stream[k]? = some x → MemoryBounded rules (stream.take (k + 1)) x.1) ↔
      ∀ k x, stream[k]? = some x → NothingToForget rules (stream.take k) x := by
  have htake {k : Nat} {x : Nat × NetworkEvent} (hx : stream[k]? = some x) :
      stream.take (k + 1) = stream.take k ++ [x] := by
    rw [List.take_add_one, hx, Option.toList_some]
  constructor
  · intro h k x hx
    have hbounded := h k x hx
    rw [htake hx, memoryBounded_concat] at hbounded
    exact hbounded.1
  · intro h k
    induction k with
    | zero =>
      intro x hx
      rw [htake hx, memoryBounded_concat]
      refine ⟨h 0 x hx, fun i rule hr s hkey _ => ?_⟩
      obtain ⟨y, hy, -⟩ := (mem_keysAfter hr _).mp hkey
      simp at hy
    | succ k ih =>
      intro x hx
      rw [htake hx, memoryBounded_concat]
      refine ⟨h (k + 1) x hx, fun i rule hr s hkey _ => ?_⟩
      obtain ⟨hk, _⟩ := List.getElem?_eq_some_iff.mp hx
      have hprev : stream[k]? = some stream[k] := List.getElem?_eq_getElem (by omega)
      exact (ih _ hprev).nonempty i rule s hr hkey

end Runs

/-- A probe by source 42, and ten seconds later an event of source 7. -/
def staleProbe : List (Nat × NetworkEvent) := [(0, synEvent 42), (10000000000, payloadEvent 7)]

theorem stale_match_stored : ¬ ∀ (rules : List CepRule) (stream : List (Nat × NetworkEvent)),
    (stream.map Prod.fst).Pairwise (· ≤ ·) →
      ∀ k x, stream[k]? = some x → MemoryBounded rules (stream.take (k + 1)) x.1 := by
  intro h
  have hbounded := h CepEngine.withDefaultRules.rules staleProbe (by decide) 1 _ rfl
  have hrecent := hbounded.recent 0 _ 42 rfl ⟨1, 0⟩ (by decide +kernel)
  exact absurd hrecent (by decide)

end ThreatEngine.Detection
