import Mathlib.Data.List.FinRange
import ThreatEngine.Lib.Mealy
import ThreatEngine.Lib.Utf8
import ThreatEngine.Models

/-! The signature detector of `signature.rs`. The search of the aho-corasick
crate is a parameter. -/
namespace ThreatEngine.Detection

/-- `find_overlapping_iter`: the pattern of every match, in the order in which it yields them. -/
abbrev OverlappingSearch := (patterns : List (List UInt8)) → List UInt8 → List (Fin patterns.length)

/-- How often a pattern ends in a text. -/
def occurrences (pattern text : List UInt8) : Nat :=
  text.inits.countP fun seen => pattern.isSuffixOf seen

/-- The search yields every occurrence of every pattern. -/
def OverlappingSearch.Complete (find : OverlappingSearch) : Prop :=
  ∀ patterns text idx, (find patterns text).count idx = occurrences (patterns.get idx) text

/-- A search in the order of the matches' ends. -/
def findByEnd : OverlappingSearch := fun patterns text =>
  text.inits.flatMap fun seen => (List.finRange patterns.length).filter fun idx =>
    (patterns.get idx).isSuffixOf seen

/-- The automaton is its patterns. -/
structure SignatureDetector where
  patterns : List (List UInt8)
  ruleNames : List String
  severities : List Severity
  nextId : UInt64
  named : patterns.length = ruleNames.length
  graded : patterns.length = severities.length

namespace SignatureDetector

def withDefaultRules : SignatureDetector where
  patterns := ["/etc/passwd", "UNION SELECT", "<script>alert(", "cmd.exe", "../../"].map Utf8.ascii
  ruleNames := ["path-traversal-passwd", "sql-injection-union", "xss-script-tag", "windows-cmd-exec",
    "path-traversal-generic"]
  severities := [.high, .high, .medium, .critical, .medium]
  nextId := 1
  named := rfl
  graded := rfl

variable (d : SignatureDetector) (event : NetworkEvent)

def alert (id : UInt64) (idx : Fin d.patterns.length) : Alert where
  id := id
  timestampMs := event.timestampMs
  ruleName := d.ruleNames.get (idx.cast d.named)
  severity := d.severities.get (idx.cast d.graded)
  srcIp := ipToString event.srcIp
  dstIp := ipToString event.dstIp
  detail := "signature match for rule '" ++ d.ruleNames.get (idx.cast d.named) ++
    "' in payload sample"
  detector := .signature

/-- One alert for every match, numbered from `id`. -/
def alerts : UInt64 → List (Fin d.patterns.length) → List Alert
  | _, [] => []
  | id, idx :: found => d.alert event id idx :: alerts (id + 1) found

/-- The matches that `scan` goes through. -/
def matched (find : OverlappingSearch) : List (Fin d.patterns.length) :=
  if event.payloadSample.isEmpty then [] else find d.patterns event.payloadSample

def scan (find : OverlappingSearch) : SignatureDetector × List Alert :=
  let found := d.matched event find
  ({ d with nextId := d.nextId + found.length.toUInt64 }, d.alerts event d.nextId found)

end SignatureDetector

open SignatureDetector

/-- The detector as a machine over timed events. -/
def signatureMachine (find : OverlappingSearch) :
    Mealy.Machine SignatureDetector (Nat × NetworkEvent) (List Alert) where
  init := withDefaultRules
  step d x := d.scan x.2 find

section Search
variable {find : OverlappingSearch} {pattern text : List UInt8}

theorem count_matching {n : Nat} (p : Fin n → Bool) (idx : Fin n) :
    ((List.finRange n).filter p).count idx = (p idx).toNat := by
  cases h : p idx with
  | true =>
    rw [List.count_filter h]
    exact List.count_eq_one_of_mem (List.nodup_finRange n) (List.mem_finRange idx)
  | false => exact List.count_eq_zero.mpr fun hm => by simp [h] at hm

theorem findByEnd_complete : findByEnd.Complete := by
  intro patterns text idx
  unfold findByEnd occurrences
  induction text.inits with
  | nil => rfl
  | cons seen rest ih =>
    rw [List.flatMap_cons, List.count_append, ih, count_matching, List.countP_cons, Nat.add_comm]
    cases (patterns.get idx).isSuffixOf seen <;> rfl

/-- A pattern occurs if and only if it is in the text. -/
theorem occurrences_pos_iff : 0 < occurrences pattern text ↔ pattern <:+: text := by
  rw [occurrences, List.countP_pos_iff, List.infix_iff_suffix_prefix]
  simp only [List.mem_inits, List.isSuffixOf_iff_suffix, and_comm]

variable {d : SignatureDetector} {event : NetworkEvent} {id : UInt64}
    {found : List (Fin d.patterns.length)}

@[simp] theorem length_signatureAlerts : (d.alerts event id found).length = found.length := by
  induction found generalizing id with
  | nil => rfl
  | cons idx found ih => exact congrArg (· + 1) ih

theorem mem_signatureAlerts {a : Alert} (h : a ∈ d.alerts event id found) :
    ∃ id' idx, idx ∈ found ∧ a = d.alert event id' idx := by
  induction found generalizing id with
  | nil => cases h
  | cons idx found ih =>
    obtain rfl | h := List.mem_cons.mp h
    · exact ⟨id, idx, List.mem_cons_self, rfl⟩
    · obtain ⟨id', idx', hm, rfl⟩ := ih h
      exact ⟨id', idx', List.mem_cons_of_mem _ hm, rfl⟩

theorem alert_mem_signatureAlerts (d : SignatureDetector) (event : NetworkEvent) (id : UInt64)
    {found : List (Fin d.patterns.length)} {idx : Fin d.patterns.length} (h : idx ∈ found) :
    ∃ id', d.alert event id' idx ∈ d.alerts event id found := by
  induction found generalizing id with
  | nil => cases h
  | cons idx' found ih =>
    obtain rfl | h := List.mem_cons.mp h
    · exact ⟨id, List.mem_cons_self⟩
    · obtain ⟨id', hm⟩ := ih (id + 1) h
      exact ⟨id', List.mem_cons_of_mem _ hm⟩

/-- A match is an occurrence of its pattern, and an occurrence of a pattern is matched. -/
theorem mem_matched_iff (hfind : find.Complete) {idx : Fin d.patterns.length}
    (hne : d.patterns.get idx ≠ []) :
    idx ∈ d.matched event find ↔ d.patterns.get idx <:+: event.payloadSample := by
  unfold matched
  split
  · next hempty =>
    rw [List.isEmpty_iff.mp hempty]
    simpa using hne
  · rw [← List.count_pos_iff, hfind, occurrences_pos_iff]

theorem patterns_nonempty : ∀ idx, withDefaultRules.patterns.get idx ≠ [] := by decide

end Search

section Runs
variable {find : OverlappingSearch} {stream : List (Nat × NetworkEvent)}

/-- Scanning changes nothing but the next id. -/
theorem signatureMachine_after (find : OverlappingSearch) (stream : List (Nat × NetworkEvent)) :
    ∃ id, (signatureMachine find).after (signatureMachine find).init stream =
      { withDefaultRules with nextId := id } := by
  refine Mealy.after_keeps (P := fun d => ∃ id, d = { withDefaultRules with nextId := id })
    (fun d x h => ?_)
    ⟨1, rfl⟩ stream
  obtain ⟨id, rfl⟩ := h
  exact ⟨_, rfl⟩

/-- `scan` raises an alert on an event when one of the five patterns is in its payload. -/
theorem scan_answer_iff (hfind : find.Complete) {j : Nat} {x : Nat × NetworkEvent}
    (hx : stream[j]? = some x) :
    (∃ answer, ((signatureMachine find).outputs (signatureMachine find).init stream)[j]? = some answer ∧
        answer ≠ []) ↔
      ∃ idx, withDefaultRules.patterns.get idx <:+: x.2.payloadSample := by
  obtain ⟨id, hid⟩ := signatureMachine_after find (stream.take j)
  rw [Mealy.getElem?_outputs _ _ hx, hid]
  simp only [Option.some.injEq, exists_eq_left']
  constructor
  · intro hne
    obtain ⟨a, ha⟩ := List.exists_mem_of_ne_nil _ hne
    obtain ⟨_, idx, hidx, -⟩ := mem_signatureAlerts ha
    exact ⟨idx, (mem_matched_iff hfind (patterns_nonempty idx)).mp hidx⟩
  · rintro ⟨idx, hidx⟩
    refine List.ne_nil_of_length_pos ?_
    have hmatched := (mem_matched_iff hfind (patterns_nonempty idx)).mpr hidx
    exact length_signatureAlerts.symm ▸ List.length_pos_of_mem hmatched

/-- A pattern that is in the payload of an event has its alert among the answers. -/
theorem alert_mem_answers (hfind : find.Complete) {x : Nat × NetworkEvent} (hx : x ∈ stream)
    {idx : Fin withDefaultRules.patterns.length}
    (hidx : withDefaultRules.patterns.get idx <:+: x.2.payloadSample) :
    ∃ id, withDefaultRules.alert x.2 id idx ∈
      ((signatureMachine find).outputs (signatureMachine find).init stream).flatten := by
  obtain ⟨j, hj⟩ := List.mem_iff_getElem?.mp hx
  obtain ⟨id, hid⟩ := signatureMachine_after find (stream.take j)
  have hanswer := Mealy.getElem?_outputs (signatureMachine find) (signatureMachine find).init hj
  rw [hid] at hanswer
  have hmatched := (mem_matched_iff hfind (patterns_nonempty idx)).mpr hidx
  obtain ⟨id', hm⟩ := alert_mem_signatureAlerts { withDefaultRules with nextId := id } x.2 id hmatched
  exact ⟨id', List.mem_flatten.mpr ⟨_, List.mem_of_getElem? hanswer, hm⟩⟩

end Runs

end ThreatEngine.Detection
