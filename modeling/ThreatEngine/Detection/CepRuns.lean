import Mathlib.Data.List.Induction
import ThreatEngine.Detection.Cep

/-! Runs of the engine over a stream of timed events: what is held for a source
after a prefix, and what a rule raises on an event. -/
namespace ThreatEngine.Detection

/-- What is held for rule `i` and source `s` after the whole stream. -/
def held (rules : List CepRule) (i : Nat) (s : UInt32) (stream : List (Nat × NetworkEvent)) :
    List PartialMatch :=
  ((cepMachine rules).after (cepMachine rules).init stream).entry i s

/-- The alerts of rule `i` on event `j` of the stream. -/
def raised (rules : List CepRule) (i : Nat) (stream : List (Nat × NetworkEvent)) (j : Nat) :
    List Alert :=
  ((((cepMachine rules).outputs (cepMachine rules).init stream)[j]?).bind fun alerts => alerts[i]?).getD []

/-- What `process` returns for event `j` of the stream. -/
def returned (rules : List CepRule) (stream : List (Nat × NetworkEvent)) (j : Nat) :
    Option (List Alert) :=
  ((singleMachine rules).outputs (singleMachine rules).init stream)[j]?

/-- The events of source `s` on which rule `i` raises an alert. -/
def FiredFor (rules : List CepRule) (i : Nat) (s : UInt32) (stream : List (Nat × NetworkEvent))
    (j : Nat) : Prop :=
  raised rules i stream j ≠ [] ∧ ∃ t e, stream[j]? = some (t, e) ∧ e.srcIp = s

/-- The events at `idx`, in stream order and all of source `s`, satisfy the first
steps of the rule one after the other. -/
structure Traces (rule : CepRule) (s : UInt32) (stream : List (Nat × NetworkEvent))
    (idx : List Nat) : Prop where
  increasing : idx.Pairwise (· < ·)
  satisfies : ∀ n k : Nat, idx[n]? = some k → ∃ (t : Nat) (e : NetworkEvent) (c : Condition),
    stream[k]? = some (t, e) ∧ e.srcIp = s ∧ rule.steps[n]? = some c ∧ c.matched e = true

/-- All steps of the rule, ending with event `j`, within the rule's window. -/
structure Chain (rule : CepRule) (s : UInt32) (stream : List (Nat × NetworkEvent)) (j : Nat)
    (idx : List Nat) : Prop extends Traces rule s stream idx where
  length : idx.length = rule.steps.length
  ends : idx.getLast? = some j
  within : ∀ (o t : Nat) (e : NetworkEvent) (t' : Nat) (e' : NetworkEvent), idx.head? = some o → stream[o]? = some (t, e) →
    stream[j]? = some (t', e') → t' - t ≤ rule.window

section Track
variable {rule : CepRule} {event : NetworkEvent}

theorem expects_eq_true_iff {n : Nat} :
    rule.expects event n = true ↔ ∃ c, rule.steps[n]? = some c ∧ c.matched event = true := by
  unfold CepRule.expects
  cases rule.steps[n]? <;> simp

theorem advance_eq_some_iff {p q : PartialMatch} :
    rule.advance event p = some q ↔
      rule.expects event p.step = true ∧ q = ⟨p.step + 1, p.startedAt⟩ := by
  by_cases h : rule.expects event p.step = true <;> simp [CepRule.advance, h, eq_comm]

@[simp] theorem length_alerts (id : UInt64) (completed : List PartialMatch) :
    (rule.alerts event id completed).length = completed.length := by
  induction completed generalizing id with
  | nil => rfl
  | cons p completed ih => exact congrArg (· + 1) (ih (id + 1))

theorem mem_alerts {id : UInt64} {completed : List PartialMatch} {a : Alert}
    (h : a ∈ rule.alerts event id completed) : ∃ id', a = rule.alert event id' := by
  induction completed generalizing id with
  | nil => cases h
  | cons p completed ih =>
    obtain rfl | h := List.mem_cons.mp h
    · exact ⟨id, rfl⟩
    · exact ih h

theorem length_track_le (rule : CepRule) (now : Nat) (event : NetworkEvent)
    (partials : List PartialMatch) :
    (rule.track now event partials).2.length ≤ 1 := Sweep.length_completed_le _ _ _

theorem finishes_iff {p : PartialMatch} : Sweep.Finishes (rule.advance event) rule.complete p ↔
    rule.expects event p.step = true ∧ p.step + 1 = rule.steps.length := by
  constructor
  · rintro ⟨q, ha, hc⟩
    obtain ⟨he, rfl⟩ := advance_eq_some_iff.mp ha
    exact ⟨he, beq_iff_eq.mp hc⟩
  · rintro ⟨he, hlast⟩
    exact ⟨_, advance_eq_some_iff.mpr ⟨he, rfl⟩, beq_iff_eq.mpr hlast⟩

/-- What is completed is a stored match that the event finishes. -/
theorem exists_finishes {now : Nat} {partials : List PartialMatch}
    (h : (rule.track now event partials).2 ≠ []) :
    ∃ p ∈ partials, Sweep.Finishes (rule.advance event) rule.complete p := by
  obtain ⟨q, hq⟩ := List.exists_mem_of_ne_nil _ h
  have hround : q ∈ (Sweep.round (rule.fresh now) (rule.advance event) rule.complete
      rule.unfinished partials).2 := hq
  obtain ⟨hc, p, hp, _, ha⟩ := Sweep.mem_round_completed hround
  exact ⟨p, hp, q, ha, hc⟩

/-- An event that completes a match satisfies the rule's last step. -/
theorem expects_of_track {now : Nat} {partials : List PartialMatch}
    (h : (rule.track now event partials).2 ≠ []) :
    ∃ n, n + 1 = rule.steps.length ∧ rule.expects event n = true := by
  obtain ⟨p, _, hfinishes⟩ := exists_finishes h
  obtain ⟨hexpects, hlast⟩ := finishes_iff.mp hfinishes
  exact ⟨p.step, hlast, hexpects⟩

/-- A match that the event completes makes the rule complete some match. -/
theorem track_completes {now : Nat} {partials : List PartialMatch} {p : PartialMatch}
    (hp : p ∈ partials) (hf : rule.fresh now p = true) (he : rule.expects event p.step = true)
    (hc : p.step + 1 = rule.steps.length) : (rule.track now event partials).2 ≠ [] := by
  obtain ⟨q, hadvance, hcomplete⟩ := finishes_iff.mpr ⟨he, hc⟩
  exact Sweep.round_completes rule.unfinished hp hf hadvance hcomplete

/-- If nothing is completed, every fresh match is advanced as far as it can be. -/
theorem mem_track_of_nil {now : Nat} {partials : List PartialMatch} {p : PartialMatch}
    (hp : p ∈ partials)
    (hf : rule.fresh now p = true) (hnil : (rule.track now event partials).2 = []) :
    (rule.advance event p).getD p ∈ (rule.track now event partials).1 := by
  have hround : (rule.advance event p).getD p ∈ (Sweep.round (rule.fresh now) (rule.advance event)
      rule.complete rule.unfinished partials).1 := by
    rw [Sweep.round_of_completed_nil hnil]
    exact List.mem_map_of_mem (List.mem_filter.mpr ⟨hp, hf⟩)
  rw [CepRule.track]
  split
  · exact List.mem_append_left _ hround
  · exact hround

end Track

section Chains
variable {rule : CepRule} {s : UInt32} {stream : List (Nat × NetworkEvent)} {idx : List Nat}

theorem Traces.lt_length (h : Traces rule s stream idx) {k : Nat} (hk : k ∈ idx) :
    k < stream.length := by
  obtain ⟨n, hn⟩ := List.getElem?_of_mem hk
  obtain ⟨t, e, c, hx, _⟩ := h.satisfies n k hn
  exact (List.getElem?_eq_some_iff.mp hx).1

theorem Traces.append (h : Traces rule s stream idx) (rest : List (Nat × NetworkEvent)) :
    Traces rule s (stream ++ rest) idx := by
  refine ⟨h.increasing, fun n k hk => ?_⟩
  obtain ⟨t, e, c, hx, hc⟩ := h.satisfies n k hk
  exact ⟨t, e, c, List.getElem?_append_left (List.getElem?_eq_some_iff.mp hx).1 ▸ hx, hc⟩

/-- The last event of the stream prolongs a trace by the step it satisfies. -/
theorem Traces.concat (h : Traces rule s stream idx) {t : Nat} {e : NetworkEvent} (hs : e.srcIp = s)
    (he : rule.expects e idx.length = true) :
    Traces rule s (stream ++ [(t, e)]) (idx ++ [stream.length]) := by
  obtain ⟨c, hc, hm⟩ := expects_eq_true_iff.mp he
  constructor
  · refine List.pairwise_append.mpr ⟨h.increasing, List.pairwise_singleton _ _, fun a ha b hb => ?_⟩
    rw [List.mem_singleton.mp hb]
    exact h.lt_length ha
  · intro n k hk
    cases Nat.lt_or_ge n idx.length with
    | inl hlt =>
      rw [List.getElem?_append_left hlt] at hk
      exact (h.append [(t, e)]).satisfies n k hk
    | inr hge =>
      obtain ⟨hlt, _⟩ := List.getElem?_eq_some_iff.mp hk
      obtain rfl : n = idx.length := by
        rw [List.length_append, List.length_singleton] at hlt
        omega
      obtain rfl : stream.length = k := by simpa using hk
      exact ⟨t, e, c, by simp, hs, hc, hm⟩

theorem Chain.append {j : Nat} (h : Chain rule s stream j idx) (rest : List (Nat × NetworkEvent)) :
    Chain rule s (stream ++ rest) j idx := by
  refine ⟨h.toTraces.append rest, h.length, h.ends, fun o t e t' e' ho hx hx' => ?_⟩
  have hol := h.lt_length (List.mem_of_mem_head? ho)
  have hjl := h.lt_length (List.mem_of_getLast? h.ends)
  rw [List.getElem?_append_left hol] at hx
  rw [List.getElem?_append_left hjl] at hx'
  exact h.within o t e t' e' ho hx hx'

end Chains

section Runs
variable {rules : List CepRule} {i : Nat} {rule : CepRule} {stream : List (Nat × NetworkEvent)}

theorem after_rules (rules : List CepRule) (stream : List (Nat × NetworkEvent)) :
    ((cepMachine rules).after (cepMachine rules).init stream).rules = rules :=
  Mealy.after_keeps (P := fun engine : CepEngine => engine.rules = rules) (fun _ _ h => h) rfl stream

theorem held_nil (s : UInt32) : held rules i s [] = [] := by
  simp only [held, Mealy.Machine.after, cepMachine, CepEngine.ofRules, CepEngine.entry, List.getElem?_map]
  cases rules[i]? <;> rfl

theorem held_concat (hr : rules[i]? = some rule) (s : UInt32) (x : Nat × NetworkEvent) :
    held rules i s (stream ++ [x]) =
      if s = x.2.srcIp then (rule.track x.1 x.2 (held rules i s stream)).1 else held rules i s stream := by
  rw [held, Mealy.after_append]
  exact entry_processEach x.1 x.2 (by rw [after_rules]; exact hr) s

/-- The alerts on an event are those that tracking it makes after the events before it. -/
theorem raised_eq (hr : rules[i]? = some rule) {j : Nat} {x : Nat × NetworkEvent}
    (hx : stream[j]? = some x) :
    ∃ id, raised rules i stream j =
      rule.alerts x.2 id (rule.track x.1 x.2 (held rules i x.2.srcIp (stream.take j))).2 := by
  obtain ⟨id, hid⟩ := alerts_processEach x.1 x.2 ((after_rules rules (stream.take j)).symm ▸ hr)
  refine ⟨id, ?_⟩
  rw [raised, Mealy.getElem?_outputs _ _ hx]
  exact congrArg (fun o => Option.getD o []) hid

theorem raised_append {j : Nat} (hj : j < stream.length) (rest : List (Nat × NetworkEvent)) :
    raised rules i (stream ++ rest) j = raised rules i stream j := by
  rw [raised, Mealy.outputs_append, List.getElem?_append_left (by simpa using hj)]
  rfl

theorem raised_of_length_le {j : Nat} (hj : stream.length ≤ j) : raised rules i stream j = [] := by
  rw [raised, List.getElem?_eq_none (by simpa using hj)]
  rfl

/-- A rule raises at most one alert on an event. -/
theorem length_raised_le (hr : rules[i]? = some rule) (stream : List (Nat × NetworkEvent))
    (j : Nat) : (raised rules i stream j).length ≤ 1 := by
  cases hx : stream[j]? with
  | none => simp [raised_of_length_le (List.getElem?_eq_none_iff.mp hx)]
  | some x =>
    obtain ⟨id, hid⟩ := raised_eq hr hx
    rw [hid, length_alerts]
    exact length_track_le _ _ _ _

theorem outputs_single (rules : List CepRule) (engine : CepEngine)
    (stream : List (Nat × NetworkEvent)) : (singleMachine rules).outputs engine stream =
      ((cepMachine rules).outputs engine stream).map List.flatten := by
  induction stream generalizing engine with
  | nil => rfl
  | cons x stream ih => exact congrArg _ (ih (engine.processEach x.1 x.2).1)

theorem flatten_eq_flatMap_range {β : Type*} (l : List (List β)) :
    l.flatten = (List.range l.length).flatMap fun i => (l[i]?).getD [] := by
  rw [List.flatMap_def]
  congr 1
  exact List.ext_getElem (by simp) fun n h _ => by simp [List.getElem?_eq_getElem h]

/-- What `process` returns for an event is what the rules raise on it, in their order. -/
theorem process_eq_raised (rules : List CepRule) {j : Nat} {x : Nat × NetworkEvent}
    (hx : stream[j]? = some x) : returned rules stream j =
      some ((List.range rules.length).flatMap fun i => raised rules i stream j) := by
  let engine := (cepMachine rules).after (cepMachine rules).init (stream.take j)
  have hlen : ((cepMachine rules).step engine x).2.length = rules.length :=
    (length_alerts_processEach x.1 x.2 engine).trans (congrArg _ (after_rules rules _))
  have hout : (singleMachine rules).init = (cepMachine rules).init := rfl
  rw [returned, hout, outputs_single, List.getElem?_map]
  simp only [raised]
  rw [Mealy.getElem?_outputs _ _ hx, Option.map_some, flatten_eq_flatMap_range, hlen]
  rfl

end Runs

end ThreatEngine.Detection
