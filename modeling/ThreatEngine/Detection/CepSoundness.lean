import ThreatEngine.Detection.CepRuns

/-! Every alert is the end of a chain of events that satisfies its rule. The
chains are carried along with the partial matches as tags that the engine does
not look at, and a tag's first event tells it from all others. -/
namespace ThreatEngine.Detection

def CepRule.advanceTagged (rule : CepRule) (event : NetworkEvent) (j : Nat)
    (x : PartialMatch × List Nat) : Option (PartialMatch × List Nat) :=
  (rule.advance event x.1).map fun p => (p, x.2 ++ [j])

def CepRule.roundTagged (rule : CepRule) (now : Nat) (event : NetworkEvent) (j : Nat)
    (tagged : List (PartialMatch × List Nat)) :
    List (PartialMatch × List Nat) × List (PartialMatch × List Nat) :=
  Sweep.round (fun x => rule.fresh now x.1) (rule.advanceTagged event j) (fun x => rule.complete x.1)
    (fun x => rule.unfinished x.1) tagged

/-- `track` on partial matches that carry the positions of their events. -/
def CepRule.trackTagged (rule : CepRule) (now : Nat) (event : NetworkEvent) (j : Nat)
    (tagged : List (PartialMatch × List Nat)) :
    List (PartialMatch × List Nat) × List (PartialMatch × List Nat) :=
  let round := rule.roundTagged now event j tagged
  (if rule.expects event 0 then round.1 ++ [(⟨1, now⟩, [j])] else round.1, round.2)

/-- The tag of a partial match is a trace of as many steps, and its first event
is when the match was started. -/
structure Explained (rule : CepRule) (s : UInt32) (stream : List (Nat × NetworkEvent))
    (x : PartialMatch × List Nat) : Prop extends Traces rule s stream x.2 where
  length : x.2.length = x.1.step
  started : ∃ o e, x.2.head? = some o ∧ stream[o]? = some (x.1.startedAt, e)

/-- The chains of the events that `fired`, and the tags of what is held. -/
structure Accounted (rule : CepRule) (s : UInt32) (stream : List (Nat × NetworkEvent))
    (fired : Nat → Prop)
    (tagged : List (PartialMatch × List Nat)) (used : List (List Nat)) : Prop where
  explained : ∀ x ∈ tagged, Explained rule s stream x
  complete : ∀ idx ∈ used, ∃ j, Chain rule s stream j idx
  fired : ∀ j, fired j → ∃ idx ∈ used, Chain rule s stream j idx
  heads : ((used ++ tagged.map Prod.snd).map List.head?).Nodup

section Tagged
variable {rule : CepRule} {s : UInt32} {stream : List (Nat × NetworkEvent)} {now : Nat}
    {event : NetworkEvent}
  {tagged : List (PartialMatch × List Nat)} {x y : PartialMatch × List Nat}

theorem track_map_fst (rule : CepRule) (now : Nat) (event : NetworkEvent) (j : Nat)
    (tagged : List (PartialMatch × List Nat)) :
    rule.track now event (tagged.map Prod.fst) =
      ((rule.trackTagged now event j tagged).1.map Prod.fst,
        (rule.trackTagged now event j tagged).2.map Prod.fst) := by
  have hround : Sweep.round (rule.fresh now) (rule.advance event) rule.complete rule.unfinished
      (tagged.map Prod.fst) = ((rule.roundTagged now event j tagged).1.map Prod.fst,
        (rule.roundTagged now event j tagged).2.map Prod.fst) :=
    Sweep.round_map Prod.fst (fun _ => rfl) (fun x => by simp [CepRule.advanceTagged, Function.comp_def])
      (fun _ => rfl) (fun _ => rfl) tagged
  simp only [CepRule.track, CepRule.trackTagged, hround]
  split <;> simp

theorem advanceTagged_eq_some_iff {j : Nat} : rule.advanceTagged event j x = some y ↔
    rule.expects event x.1.step = true ∧ y = (⟨x.1.step + 1, x.1.startedAt⟩, x.2 ++ [j]) := by
  simp only [CepRule.advanceTagged, Option.map_eq_some_iff, advance_eq_some_iff]
  constructor
  · rintro ⟨p, ⟨he, rfl⟩, rfl⟩
    exact ⟨he, rfl⟩
  · rintro ⟨he, rfl⟩
    exact ⟨_, ⟨he, rfl⟩, rfl⟩

theorem Explained.head_lt (h : Explained rule s stream x) :
    ∃ o, x.2.head? = some o ∧ o < stream.length := by
  obtain ⟨o, e, ho, hx⟩ := h.started
  exact ⟨o, ho, (List.getElem?_eq_some_iff.mp hx).1⟩

theorem Explained.append (h : Explained rule s stream x) (rest : List (Nat × NetworkEvent)) :
    Explained rule s (stream ++ rest) x := by
  obtain ⟨o, e, ho, hx⟩ := h.started
  exact ⟨h.toTraces.append rest, h.length, o, e, ho,
    List.getElem?_append_left (List.getElem?_eq_some_iff.mp hx).1 ▸ hx⟩

/-- Advancing keeps the first event and adds the new one. -/
theorem Explained.advance (h : Explained rule s stream x) (now : Nat) (hs : event.srcIp = s)
    (ha : rule.advanceTagged event stream.length x = some y) :
    Explained rule s (stream ++ [(now, event)]) y ∧ y.2.head? = x.2.head? ∧
      y.1.startedAt = x.1.startedAt ∧ y.2.getLast? = some stream.length := by
  obtain ⟨he, rfl⟩ := advanceTagged_eq_some_iff.mp ha
  obtain ⟨o, e, ho, hx⟩ := h.started
  have hhead : (x.2 ++ [stream.length]).head? = x.2.head? := by
    rw [List.head?_append, ho]
    rfl
  refine ⟨⟨h.toTraces.concat hs (h.length ▸ he), ?_, o, e, hhead.trans ho, ?_⟩, hhead, rfl, by simp⟩
  · simp [h.length]
  · exact List.getElem?_append_left (List.getElem?_eq_some_iff.mp hx).1 ▸ hx

theorem explained_start (hs : event.srcIp = s) (he : rule.expects event 0 = true) :
    Explained rule s (stream ++ [(now, event)]) (⟨1, now⟩, [stream.length]) := by
  have hnil : Traces rule s stream [] := ⟨.nil, fun n k hk => by simp at hk⟩
  exact ⟨hnil.concat hs he, rfl, stream.length, event, rfl, by simp⟩

/-- A match completed by the last event is a chain that ends with it. -/
theorem Explained.chain (h : Explained rule s (stream ++ [(now, event)]) y)
    (hlast : y.2.getLast? = some stream.length) (hf : rule.fresh now y.1 = true)
    (hc : rule.complete y.1 = true) : Chain rule s (stream ++ [(now, event)]) stream.length y.2 := by
  refine ⟨h.toTraces, h.length.trans (beq_iff_eq.mp hc), hlast, fun o t e t' e' ho hx hx' => ?_⟩
  obtain ⟨o', e₀, ho', hx₀⟩ := h.started
  obtain rfl : o' = o := Option.some.inj (ho'.symm.trans ho)
  obtain ⟨rfl, -⟩ := Prod.mk.inj (Option.some.inj (hx₀.symm.trans hx))
  obtain ⟨rfl, -⟩ : now = t' ∧ event = e' := by simpa using hx'
  exact of_decide_eq_true hf

theorem unfinished_of_complete {p : PartialMatch} (h : rule.complete p = true) :
    rule.unfinished p = false := by
  simp [CepRule.unfinished, beq_iff_eq.mp h]

variable {fired : Nat → Prop} {used : List (List Nat)}

/-- What a match becomes in a round: itself or one event longer, with the same first event. -/
theorem Accounted.kept (h : Accounted rule s stream fired tagged used) (now : Nat)
    (hs : event.srcIp = s)
    (hx : x ∈ tagged) (hy : y = x ∨ rule.advanceTagged event stream.length x = some y) :
    Explained rule s (stream ++ [(now, event)]) y ∧ y.2.head? = x.2.head? := by
  have hexp := h.explained x hx
  cases hy with
  | inl he =>
    subst he
    exact ⟨hexp.append _, rfl⟩
  | inr ha =>
    obtain ⟨hy, hhead, _⟩ := hexp.advance now hs ha
    exact ⟨hy, hhead⟩

theorem Accounted.completed (h : Accounted rule s stream fired tagged used) (hs : event.srcIp = s)
    (hy : y ∈ (rule.roundTagged now event stream.length tagged).2) :
    Chain rule s (stream ++ [(now, event)]) stream.length y.2 := by
  obtain ⟨hc, x, hx, hf, ha⟩ := Sweep.mem_round_completed hy
  obtain ⟨hexp, _, hstart, hlast⟩ := (h.explained x hx).advance now hs ha
  refine hexp.chain hlast ?_ hc
  rw [CepRule.fresh, hstart]
  exact hf

/-- The first events in use are all earlier than the one to come. -/
theorem Accounted.head_lt (h : Accounted rule s stream fired tagged used) {idx : List Nat}
    (hidx : idx ∈ used ++ tagged.map Prod.snd) : idx.head? ≠ some stream.length := by
  intro hh
  have htraces : Traces rule s stream idx := by
    cases List.mem_append.mp hidx with
    | inl hu => exact (h.complete idx hu).choose_spec.toTraces
    | inr ht =>
      obtain ⟨x, hx, rfl⟩ := List.mem_map.mp ht
      exact (h.explained x hx).toTraces
  exact absurd (htraces.lt_length (List.mem_of_mem_head? hh)) (lt_irrefl _)

/-- Every tag after a round begins like a tag before it. -/
theorem Accounted.head_round (h : Accounted rule s stream fired tagged used) (hs : event.srcIp = s)
    (hy : y ∈ (rule.roundTagged now event stream.length tagged).2 ++
      (rule.roundTagged now event stream.length tagged).1) : ∃ x ∈ tagged, y.2.head? = x.2.head? := by
  cases List.mem_append.mp hy with
  | inl hc =>
    obtain ⟨_, x, hx, _, ha⟩ := Sweep.mem_round_completed hc
    exact ⟨x, hx, (h.kept now hs hx (Or.inr ha)).2⟩
  | inr hk =>
    obtain ⟨x, hx, _, ha⟩ := Sweep.mem_round hk
    exact ⟨x, hx, (h.kept now hs hx ha).2⟩

/-- First events stay distinct, those of the new chains included. -/
theorem Accounted.heads_round (h : Accounted rule s stream fired tagged used) (now : Nat)
    (hs : event.srcIp = s) : ((used ++ ((rule.roundTagged now event stream.length tagged).2 ++
      (rule.roundTagged now event stream.length tagged).1).map Prod.snd).map List.head?).Nodup := by
  have hheads := h.heads
  rw [List.map_append, List.map_map, List.nodup_append] at hheads ⊢
  obtain ⟨hused, htagged, hdisj⟩ := hheads
  refine ⟨hused, ?_, ?_⟩
  · exact Sweep.nodup_round htagged (fun x hx y hy => (h.kept now hs hx (Or.inr hy)).2)
      fun x hx => unfinished_of_complete hx
  · intro a ha b hb
    obtain ⟨y, hy, rfl⟩ := List.mem_map.mp hb
    obtain ⟨x, hx, he⟩ := h.head_round hs hy
    rw [Function.comp_apply, he]
    exact hdisj a ha _ (List.mem_map_of_mem hx)

/-- The step lemma: an event of the source itself. -/
theorem Accounted.track (h : Accounted rule s stream fired tagged used) (now : Nat)
    (hs : event.srcIp = s) : Accounted rule s (stream ++ [(now, event)])
      (fun j => fired j ∨ (j = stream.length ∧ (rule.trackTagged now event stream.length tagged).2 ≠ []))
      (rule.trackTagged now event stream.length tagged).1
      (used ++ (rule.trackTagged now event stream.length tagged).2.map Prod.snd) := by
  have hround : ∀ y ∈ (rule.roundTagged now event stream.length tagged).1,
      Explained rule s (stream ++ [(now, event)]) y := by
    intro y hy
    obtain ⟨x, hx, _, ha⟩ := Sweep.mem_round hy
    exact (h.kept now hs hx ha).1
  have hheads := h.heads_round now hs
  refine ⟨?_, ?_, ?_, ?_⟩
  · intro y hy
    simp only [CepRule.trackTagged] at hy
    split at hy
    · next he =>
      cases List.mem_append.mp hy with
      | inl hk => exact hround y hk
      | inr hn =>
        obtain rfl := List.mem_singleton.mp hn
        exact explained_start hs he
    · exact hround y hy
  · intro idx hidx
    cases List.mem_append.mp hidx with
    | inl hu =>
      obtain ⟨j, hj⟩ := h.complete idx hu
      exact ⟨j, hj.append _⟩
    | inr hn =>
      obtain ⟨y, hy, rfl⟩ := List.mem_map.mp hn
      exact ⟨stream.length, h.completed hs hy⟩
  · rintro j (hj | ⟨rfl, hne⟩)
    · obtain ⟨idx, hidx, hchain⟩ := h.fired j hj
      exact ⟨idx, List.mem_append_left _ hidx, hchain.append _⟩
    · obtain ⟨y, hy⟩ := List.exists_mem_of_ne_nil _ hne
      exact ⟨y.2, List.mem_append_right _ (List.mem_map_of_mem hy), h.completed hs hy⟩
  · simp only [CepRule.trackTagged]
    split
    · -- the tag of the new match begins with the new event
      have hnew : some stream.length ∉ (used ++ ((rule.roundTagged now event stream.length tagged).2 ++
          (rule.roundTagged now event stream.length tagged).1).map Prod.snd).map List.head? := by
        intro hm
        obtain ⟨idx, hidx, hh⟩ := List.mem_map.mp hm
        cases List.mem_append.mp hidx with
        | inl hu => exact h.head_lt (List.mem_append_left _ hu) hh
        | inr hr =>
          obtain ⟨y, hy, rfl⟩ := List.mem_map.mp hr
          obtain ⟨x, hx, he⟩ := h.head_round hs hy
          exact h.head_lt (List.mem_append_right _ (List.mem_map_of_mem hx)) (he ▸ hh)
      simpa [List.append_assoc] using hheads.concat hnew
    · simpa [List.append_assoc] using hheads

theorem Accounted.weaken {fired' : Nat → Prop} (h : Accounted rule s stream fired tagged used)
    (hf : ∀ j, fired' j → fired j) : Accounted rule s stream fired' tagged used :=
  ⟨h.explained, h.complete, fun j hj => h.fired j (hf j hj), h.heads⟩

/-- An event of another source leaves everything as it is. -/
theorem Accounted.skip (h : Accounted rule s stream fired tagged used) (x : Nat × NetworkEvent) :
    Accounted rule s (stream ++ [x]) fired tagged used := by
  refine ⟨fun y hy => (h.explained y hy).append _, fun idx hidx => ?_, fun j hj => ?_, h.heads⟩
  · obtain ⟨j, hj⟩ := h.complete idx hidx
    exact ⟨j, hj.append _⟩
  · obtain ⟨idx, hidx, hchain⟩ := h.fired j hj
    exact ⟨idx, hidx, hchain.append _⟩

end Tagged

section Runs
variable {rules : List CepRule} {i : Nat} {rule : CepRule} {s : UInt32}
    {stream : List (Nat × NetworkEvent)}

theorem firedFor_concat (hr : rules[i]? = some rule) {now : Nat} {event : NetworkEvent} {j : Nat}
    (h : FiredFor rules i s (stream ++ [(now, event)]) j) :
    FiredFor rules i s stream j ∨
      j = stream.length ∧ event.srcIp = s ∧ (rule.track now event (held rules i s stream)).2 ≠ [] := by
  obtain ⟨hne, t, e, hx, hs⟩ := h
  cases Nat.lt_or_ge j stream.length with
  | inl hlt =>
    rw [raised_append hlt] at hne
    rw [List.getElem?_append_left hlt] at hx
    exact Or.inl ⟨hne, t, e, hx, hs⟩
  | inr hge =>
    obtain ⟨hlt, _⟩ := List.getElem?_eq_some_iff.mp hx
    obtain rfl : j = stream.length := by
      rw [List.length_append, List.length_singleton] at hlt
      omega
    obtain ⟨rfl, rfl⟩ : now = t ∧ event = e := by simpa using hx
    subst hs
    refine Or.inr ⟨rfl, rfl, fun hnil => hne ?_⟩
    obtain ⟨id, hid⟩ := raised_eq hr hx
    rw [List.take_left] at hid
    rw [hid]
    exact hnil ▸ rfl

/-- The run lemma: what is held is tagged, and every alert has its chain. -/
theorem accounted_of_run (hr : rules[i]? = some rule) (s : UInt32)
    (stream : List (Nat × NetworkEvent)) :
    ∃ tagged used, tagged.map Prod.fst = held rules i s stream ∧
      Accounted rule s stream (FiredFor rules i s stream) tagged used := by
  induction stream using List.reverseRecOn with
  | nil =>
    refine ⟨[], [], (held_nil s).symm, by simp, by simp, fun j hj => ?_, .nil⟩
    obtain ⟨_, t, e, hx, _⟩ := hj
    simp at hx
  | append_singleton stream x ih =>
    obtain ⟨tagged, used, hheld, hacc⟩ := ih
    obtain ⟨now, event⟩ := x
    by_cases hs : event.srcIp = s
    · have htrack := track_map_fst rule now event stream.length tagged
      refine ⟨_, _, ?_, (hacc.track now hs).weaken fun j hj => ?_⟩
      · rw [held_concat hr, if_pos hs.symm, ← hheld, htrack]
      · refine (firedFor_concat hr hj).imp_right fun hlast => ⟨hlast.1, fun hnil => hlast.2.2 ?_⟩
        rw [← hheld, htrack, hnil]
        rfl
    · refine ⟨tagged, used, ?_, (hacc.skip (now, event)).weaken fun j hj => ?_⟩
      · rw [held_concat hr, if_neg (Ne.symm hs), hheld]
      · exact (firedFor_concat hr hj).resolve_right fun hlast => hs hlast.2.1

/-- Soundness: `process` returns what the rules raise on an event, a rule raises at
most one alert on it, each alert ends a chain of events of its source that satisfies
the rule within its window, and different alerts of one source have chains with
different first events. -/
theorem cep_sound (hr : rules[i]? = some rule) (stream : List (Nat × NetworkEvent)) :
    (∀ j < stream.length, returned rules stream j =
      some ((List.range rules.length).flatMap fun i => raised rules i stream j)) ∧
    (∀ j, (raised rules i stream j).length ≤ 1) ∧
    ∀ s, ∃ chain : Nat → List Nat,
      (∀ j, FiredFor rules i s stream j → Chain rule s stream j (chain j)) ∧
      ∀ j j', FiredFor rules i s stream j → FiredFor rules i s stream j' →
        (chain j).head? = (chain j').head? → j = j' := by
  refine ⟨fun j hj => process_eq_raised rules (List.getElem?_eq_getElem hj),
    length_raised_le hr stream, fun s => ?_⟩
  obtain ⟨tagged, used, _, hacc⟩ := accounted_of_run hr s stream
  have hex (j : Nat) : ∃ idx, FiredFor rules i s stream j → idx ∈ used ∧ Chain rule s stream j idx := by
    by_cases hj : FiredFor rules i s stream j
    · obtain ⟨idx, hidx, hchain⟩ := hacc.fired j hj
      exact ⟨idx, fun _ => ⟨hidx, hchain⟩⟩
    · exact ⟨[], fun h => absurd h hj⟩
  choose chain hchain using hex
  refine ⟨chain, fun j hj => (hchain j hj).2, fun j j' hj hj' he => ?_⟩
  -- chains in use are told apart by their heads, and a chain knows its last event
  have hheads := hacc.heads
  rw [List.map_append] at hheads
  have hinj := List.inj_on_of_nodup_map (List.nodup_append.mp hheads).1 (hchain j hj).1 (hchain j' hj').1 he
  have hlast := (hchain j hj).2.ends
  rw [hinj, (hchain j' hj').2.ends] at hlast
  exact (Option.some.inj hlast).symm

end Runs

theorem cep_sound_probe :
    (∀ j < probeThenExploit.length, returned CepEngine.withDefaultRules.rules probeThenExploit j =
      some ((List.range CepEngine.withDefaultRules.rules.length).flatMap fun i =>
        raised CepEngine.withDefaultRules.rules i probeThenExploit j)) ∧
    (∀ j, (raised CepEngine.withDefaultRules.rules 0 probeThenExploit j).length ≤ 1) ∧
    ∀ s, ∃ chain : Nat → List Nat,
      (∀ j, FiredFor CepEngine.withDefaultRules.rules 0 s probeThenExploit j →
        Chain ⟨"probe-then-exploit-attempt", .critical, [.isSynOnly, .hasSignaturePayload], 5000000000⟩ s
          probeThenExploit j (chain j)) ∧
      ∀ j j', FiredFor CepEngine.withDefaultRules.rules 0 s probeThenExploit j →
        FiredFor CepEngine.withDefaultRules.rules 0 s probeThenExploit j' →
        (chain j).head? = (chain j').head? → j = j' :=
  cep_sound rfl probeThenExploit

end ThreatEngine.Detection
