import Mathlib.Algebra.Order.BigOperators.Group.Finset
import ThreatEngine.Detection.Signature

/-! How many alerts one payload raises: one for every occurrence of a pattern,
overlapping ones included, and so no more than the payload has bytes. -/
namespace ThreatEngine.Detection
open SignatureDetector

/-- The alerts that carry the name and the severity of the rule of a pattern. -/
def SignatureDetector.ofRule (d : SignatureDetector) (idx : Fin d.patterns.length)
    (alerts : List Alert) : List Alert :=
  alerts.filter fun a => a.ruleName = d.ruleNames.get (idx.cast d.named) ∧
    a.severity = d.severities.get (idx.cast d.graded)

section Counts
variable {d : SignatureDetector} {event : NetworkEvent} {id : UInt64} {find : OverlappingSearch}

/-- With different rule names, a rule's alerts are as many as its pattern's matches. -/
theorem length_ofRule (hnames : ∀ idx idx' : Fin d.patterns.length,
    d.ruleNames.get (idx.cast d.named) = d.ruleNames.get (idx'.cast d.named) → idx = idx')
    (idx : Fin d.patterns.length) (found : List (Fin d.patterns.length)) :
    (d.ofRule idx (d.alerts event id found)).length = found.count idx := by
  induction found generalizing id with
  | nil => rfl
  | cons idx' found ih =>
    rw [alerts, SignatureDetector.ofRule, List.filter_cons]
    by_cases h : idx' = idx
    · subst h
      rw [if_pos (by simp [SignatureDetector.alert]), List.length_cons, List.count_cons_self]
      exact congrArg (· + 1) ih
    · have hother : ¬ ((d.alert event id idx').ruleName = d.ruleNames.get (idx.cast d.named) ∧
          (d.alert event id idx').severity = d.severities.get (idx.cast d.graded)) :=
        fun hsame => h (hnames idx' idx hsame.1)
      rw [if_neg (by simpa using hother), List.count_cons_of_ne h]
      exact ih

/-- `scan` goes through every occurrence of every pattern, if no pattern is empty. -/
theorem count_matched (hfind : find.Complete) {idx : Fin d.patterns.length}
    (hne : d.patterns.get idx ≠ []) :
    (d.matched event find).count idx = occurrences (d.patterns.get idx) event.payloadSample := by
  unfold matched
  split
  · next hempty =>
    rw [List.isEmpty_iff.mp hempty, List.count_nil]
    refine (Nat.eq_zero_of_not_pos fun hpos => hne ?_).symm
    exact List.infix_nil.mp (occurrences_pos_iff.mp hpos)
  · exact hfind _ _ _

end Counts

section Bound
variable {ps : List (List UInt8)}

/-- Patterns with different last bytes do not end at one place. -/
theorem sum_isSuffixOf_le
    (hlast : ∀ i j : Fin ps.length, (ps.get i).getLast? = (ps.get j).getLast? → i = j)
    (hne : ∀ i : Fin ps.length, ps.get i ≠ []) (seen : List UInt8) :
    ∑ i, ((ps.get i).isSuffixOf seen).toNat ≤ (!seen.isEmpty).toNat := by
  have hends {i : Fin ps.length} (h : (ps.get i).isSuffixOf seen = true) :
      (ps.get i).getLast? = seen.getLast? := by
    obtain ⟨front, hfront⟩ := List.isSuffixOf_iff_suffix.mp h
    rw [← hfront, List.getLast?_append_of_ne_nil _ (hne i)]
  by_cases h : ∃ i, (ps.get i).isSuffixOf seen = true
  · obtain ⟨i, hi⟩ := h
    have hother : ∀ j ∈ Finset.univ, j ≠ i → ((ps.get j).isSuffixOf seen).toNat = 0 := by
      intro j _ hji
      rw [Bool.toNat_eq_zero, Bool.eq_false_iff]
      exact fun hj => hji (hlast j i ((hends hj).trans (hends hi).symm))
    have hseen : seen ≠ [] :=
      fun hnil => hne i (List.suffix_nil.mp (hnil ▸ List.isSuffixOf_iff_suffix.mp hi))
    have hfull : seen.isEmpty = false :=
      Bool.eq_false_iff.mpr fun h => hseen (List.isEmpty_iff.mp h)
    rw [Finset.sum_eq_single_of_mem i (Finset.mem_univ i) hother, hi, hfull]
    exact Nat.le_refl 1
  · refine (Finset.sum_eq_zero fun i _ => ?_).le.trans (Nat.zero_le _)
    rw [Bool.toNat_eq_zero, Bool.eq_false_iff]
    exact fun hi => h ⟨i, hi⟩

theorem countP_inits_nonempty (text : List UInt8) :
    text.inits.countP (fun seen => !seen.isEmpty) = text.length := by
  cases text with
  | nil => rfl
  | cons b text => simp [List.countP_map, Function.comp_def]

/-- So a text has no more occurrences of them than bytes. -/
theorem sum_occurrences_le
    (hlast : ∀ i j : Fin ps.length, (ps.get i).getLast? = (ps.get j).getLast? → i = j)
    (hne : ∀ i : Fin ps.length, ps.get i ≠ []) (text : List UInt8) :
    ∑ i, occurrences (ps.get i) text ≤ text.length := by
  rw [← countP_inits_nonempty]
  unfold occurrences
  induction text.inits with
  | nil => simp
  | cons seen rest ih =>
    have htoNat (b : Bool) : (if b = true then 1 else 0) = b.toNat := by cases b <;> rfl
    simp only [List.countP_cons, Finset.sum_add_distrib, htoNat]
    exact Nat.add_le_add ih (sum_isSuffixOf_le hlast hne seen)

end Bound

section Scan
variable {find : OverlappingSearch}

theorem default_names_ne : ∀ idx idx' : Fin withDefaultRules.patterns.length,
    withDefaultRules.ruleNames.get (idx.cast withDefaultRules.named) =
      withDefaultRules.ruleNames.get (idx'.cast withDefaultRules.named) → idx = idx' := by decide

theorem default_last_ne : ∀ idx idx' : Fin withDefaultRules.patterns.length,
    (withDefaultRules.patterns.get idx).getLast? = (withDefaultRules.patterns.get idx').getLast? →
      idx = idx' := by decide

/-- `scan` raises exactly one alert for every occurrence of a rule's pattern, with
the rule's own name and severity, and no others; so a rule has an alert if and
only if its pattern occurs, and there are no more alerts than bytes. -/
theorem one_alert_per_occurrence (hfind : find.Complete) (id : UInt64) (event : NetworkEvent) :
    let d : SignatureDetector := { withDefaultRules with nextId := id }
    (∀ idx, (d.ofRule idx (d.scan event find).2).length =
      occurrences (d.patterns.get idx) event.payloadSample) ∧
    (∀ a ∈ (d.scan event find).2, ∃ idx, a ∈ d.ofRule idx (d.scan event find).2) ∧
    (∀ idx, d.ofRule idx (d.scan event find).2 ≠ [] ↔ d.patterns.get idx <:+: event.payloadSample) ∧
    (d.scan event find).2.length ≤ event.payloadSample.length := by
  intro d
  have hnames : ∀ idx idx' : Fin d.patterns.length,
      d.ruleNames.get (idx.cast d.named) = d.ruleNames.get (idx'.cast d.named) → idx = idx' :=
    default_names_ne
  have hne : ∀ idx, d.patterns.get idx ≠ [] := patterns_nonempty
  have hcount (idx : Fin d.patterns.length) : (d.ofRule idx (d.scan event find).2).length =
      occurrences (d.patterns.get idx) event.payloadSample :=
    (length_ofRule hnames idx _).trans (count_matched hfind (hne idx))
  refine ⟨hcount, fun a ha => ?_, fun idx => ?_, ?_⟩
  · obtain ⟨id', idx, _, rfl⟩ := mem_signatureAlerts ha
    exact ⟨idx, List.mem_filter.mpr ⟨ha, by simp [SignatureDetector.alert]⟩⟩
  · rw [← List.length_pos_iff, hcount, occurrences_pos_iff]
  · calc (d.scan event find).2.length
        = (d.matched event find).length := length_signatureAlerts
      _ = ∑ idx, (d.matched event find).count idx := by
        have hall := Multiset.sum_count_eq_card (s := Finset.univ)
          (m := (↑(d.matched event find) : Multiset (Fin d.patterns.length)))
          fun idx _ => Finset.mem_univ idx
        simpa using hall.symm
      _ = ∑ idx, occurrences (d.patterns.get idx) event.payloadSample :=
        Finset.sum_congr rfl fun idx _ => count_matched hfind (hne idx)
      _ ≤ event.payloadSample.length := sum_occurrences_le default_last_ne hne _

end Scan

/-- A payload in which "../../" occurs twice. -/
def climbingEvent : NetworkEvent where
  timestampMs := 0
  srcIp := 1
  dstIp := 2
  srcPort := 1234
  dstPort := 80
  protocol := .tcp
  flags := 0
  payloadSample := Utf8.ascii "../../../"

theorem one_alert_per_occurrence_climbing :
    let d : SignatureDetector := { withDefaultRules with nextId := 1 }
    (∀ idx, (d.ofRule idx (d.scan climbingEvent findByEnd).2).length =
      occurrences (d.patterns.get idx) climbingEvent.payloadSample) ∧
    (∀ a ∈ (d.scan climbingEvent findByEnd).2,
      ∃ idx, a ∈ d.ofRule idx (d.scan climbingEvent findByEnd).2) ∧
    (∀ idx, d.ofRule idx (d.scan climbingEvent findByEnd).2 ≠ [] ↔
      d.patterns.get idx <:+: climbingEvent.payloadSample) ∧
    (d.scan climbingEvent findByEnd).2.length ≤ climbingEvent.payloadSample.length :=
  one_alert_per_occurrence findByEnd_complete 1 climbingEvent

/-- Two alerts of one rule on one event. -/
theorem repeated_pattern_alerted_twice : ¬ ∀ find : OverlappingSearch, find.Complete →
    ∀ (event : NetworkEvent) (idx : Fin withDefaultRules.patterns.length),
      (withDefaultRules.ofRule idx (withDefaultRules.scan event find).2).length =
        if withDefaultRules.patterns.get idx <:+: event.payloadSample then 1 else 0 := by
  intro h
  have hone := h findByEnd findByEnd_complete climbingEvent ⟨4, by decide⟩
  have htwo : (withDefaultRules.ofRule ⟨4, by decide⟩
      (withDefaultRules.scan climbingEvent findByEnd).2).length = 2 := by
    decide +kernel
  rw [htwo] at hone
  split at hone <;> omega

end ThreatEngine.Detection
