import ThreatEngine.Detection.CepRuns
import ThreatEngine.Detection.CepSharding

/-! The rules of an engine do not disturb each other: a rule holds and raises
what it does in an engine that has no other rule, wherever it stands. -/
namespace ThreatEngine.Detection

/-- What `process` returns for event `j` of the stream, without the ids. -/
def answered (rules : List CepRule) (stream : List (Nat × NetworkEvent)) (j : Nat) : List Alert :=
  ((returned rules stream j).getD []).map Alert.body

section Alone
variable {rules : List CepRule} {i : Nat} {rule : CepRule} {stream : List (Nat × NetworkEvent)}

/-- The rule of an engine that has one. -/
theorem only_rule (rule : CepRule) : [rule][0]? = some rule := rfl

theorem held_alone (hr : rules[i]? = some rule) (s : UInt32) (stream : List (Nat × NetworkEvent)) :
    held rules i s stream = held [rule] 0 s stream := by
  induction stream using List.reverseRecOn with
  | nil => rw [held_nil, held_nil]
  | append_singleton stream x ih =>
    rw [held_concat hr, held_concat (only_rule rule), ih]

theorem raised_alone (hr : rules[i]? = some rule) (stream : List (Nat × NetworkEvent)) (j : Nat) :
    (raised rules i stream j).map Alert.body = (raised [rule] 0 stream j).map Alert.body := by
  cases hx : stream[j]? with
  | none =>
    have hle := List.getElem?_eq_none_iff.mp hx
    rw [raised_of_length_le hle, raised_of_length_le hle]
  | some x =>
    obtain ⟨id, hid⟩ := raised_eq hr hx
    obtain ⟨id', hid'⟩ := raised_eq (only_rule rule) hx
    rw [hid, hid', body_alerts, body_alerts, held_alone hr]

theorem answered_of_length_le (rules : List CepRule) {j : Nat} (hj : stream.length ≤ j) :
    answered rules stream j = [] := by
  rw [answered, returned, List.getElem?_eq_none (by simpa using hj)]
  rfl

theorem answered_eq_raised (rules : List CepRule) {j : Nat} {x : Nat × NetworkEvent}
    (hx : stream[j]? = some x) : answered rules stream j =
      (List.range rules.length).flatMap fun i => (raised rules i stream j).map Alert.body := by
  rw [answered, process_eq_raised rules hx, Option.getD_some, List.map_flatMap]

theorem answered_single (rule : CepRule) {j : Nat} {x : Nat × NetworkEvent}
    (hx : stream[j]? = some x) :
    answered [rule] stream j = (raised [rule] 0 stream j).map Alert.body := by
  rw [answered_eq_raised [rule] hx, List.length_singleton, List.range_one, List.flatMap_singleton]

end Alone

/-- On every event of every stream the engine answers, rule by rule, what the engines
that have one of its rules each answer. -/
theorem rules_compose (rules : List CepRule) (stream : List (Nat × NetworkEvent)) (j : Nat) :
    answered rules stream j = rules.flatMap fun rule => answered [rule] stream j := by
  cases hx : stream[j]? with
  | none =>
    have hle := List.getElem?_eq_none_iff.mp hx
    simp [answered_of_length_le _ hle]
  | some x =>
    rw [answered_eq_raised rules hx, List.flatMap_def, List.flatMap_def]
    congr 1
    refine List.ext_getElem? fun i => ?_
    rw [List.getElem?_map, List.getElem?_map]
    cases hr : rules[i]? with
    | none => simpa using hr
    | some rule =>
      obtain ⟨hlt, _⟩ := List.getElem?_eq_some_iff.mp hr
      rw [List.getElem?_range hlt, Option.map_some, Option.map_some, raised_alone hr,
        answered_single rule hx]

end ThreatEngine.Detection
