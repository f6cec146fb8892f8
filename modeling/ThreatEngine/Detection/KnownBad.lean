import ThreatEngine.Detection.Anomaly
import ThreatEngine.Detection.CepCompleteness
import ThreatEngine.Detection.Signature
import ThreatEngine.Lib.Utf8Lossy

/-! What the CEP engine and the signature detector take for a known-bad payload.
The CEP engine looks for "passwd" only, whatever the detector's patterns are. -/
namespace ThreatEngine.Detection

/-- The rule of `CepEngine::with_default_rules`. -/
def probeRule : CepRule :=
  ⟨"probe-then-exploit-attempt", .critical, [.isSynOnly, .hasSignaturePayload], 5000000000⟩

/-- Event `i` is a SYN of source `s`, and on its event `j`, later and at most 5 s
after it, `scan` raises an alert. -/
structure BadAfterProbe (find : OverlappingSearch) (stream : List (Nat × NetworkEvent)) (s : UInt32)
    (i j : Nat) :
    Prop where
  later : i < j
  events : ∃ t e t' e', stream[i]? = some (t, e) ∧ e.srcIp = s ∧ e.isSyn = true ∧
    stream[j]? = some (t', e') ∧ e'.srcIp = s ∧ t' - t ≤ 5000000000
  scanned : ∃ alerts, ((signatureMachine find).outputs (signatureMachine find).init stream)[j]? =
    some alerts ∧
    alerts ≠ []

/-- `process` raises an alert for `s` after event `i` and no later than event `j`. -/
def Correlated (stream : List (Nat × NetworkEvent)) (s : UInt32) (i j : Nat) : Prop :=
  ∃ k alerts, i < k ∧ k ≤ j ∧
    returned CepEngine.withDefaultRules.rules stream k = some alerts ∧
    ∃ a ∈ alerts, isAbout "probe-then-exploit-attempt" s a = true

/-- An event of `s` after event `i` and no later than event `j` carries "passwd". -/
def CarriesPasswd (stream : List (Nat × NetworkEvent)) (s : UInt32) (i j : Nat) : Prop :=
  ∃ k t e, i < k ∧ k ≤ j ∧ stream[k]? = some (t, e) ∧ e.srcIp = s ∧
    Utf8.ascii "passwd" <:+: e.payloadSample

/-- The condition searches the payload as `from_utf8_lossy` documents it. -/
theorem hasSignaturePayload_iff_lossy (event : NetworkEvent) :
    Condition.hasSignaturePayload.matched event = true ↔ event.payloadSample ≠ [] ∧
      ∃ text, Utf8.Lossy event.payloadSample text ∧ Utf8.ascii "passwd" <:+: text := by
  simp [Condition.matched, Utf8.contains, Utf8.lossy_iff]

theorem hasSignaturePayload_iff (event : NetworkEvent) :
    Condition.hasSignaturePayload.matched event = true ↔
      Utf8.ascii "passwd" <:+: event.payloadSample := by
  rw [hasSignaturePayload_iff_lossy]
  constructor
  · rintro ⟨-, text, hlossy, hin⟩
    exact (hlossy.infix_iff (by decide) (by decide)).mp hin
  · intro hin
    refine ⟨?_, _, Utf8.lossy_fromUtf8Lossy _, ?_⟩
    · rintro hnil
      rw [hnil, List.infix_nil] at hin
      exact absurd hin (by decide)
    · exact ((Utf8.lossy_fromUtf8Lossy _).infix_iff (by decide) (by decide)).mpr hin

/-- No byte before the marker swallows it, and no replacement makes one of its parts. -/
theorem lossy_decoding_hides_nothing (event : NetworkEvent) :
    Condition.hasSignaturePayload.matched event = true ↔ ∃ before after : List UInt8,
      event.payloadSample = before ++ [0x70, 0x61, 0x73, 0x73, 0x77, 0x64] ++ after := by
  have hbytes : Utf8.ascii "passwd" = [0x70, 0x61, 0x73, 0x73, 0x77, 0x64] := by decide
  rw [hasSignaturePayload_iff, hbytes]
  exact ⟨fun ⟨before, after, h⟩ => ⟨before, after, h.symm⟩,
    fun ⟨before, after, h⟩ => ⟨before, after, h.symm⟩⟩

/-- An event on which a rule raises an alert satisfies the rule's last step. -/
theorem FiredFor.expects_last {rules : List CepRule} {i k : Nat} {rule : CepRule} {s : UInt32}
    {stream : List (Nat × NetworkEvent)} (h : FiredFor rules i s stream k)
    (hr : rules[i]? = some rule)
    {x : Nat × NetworkEvent} (hx : stream[k]? = some x) :
    ∃ n, n + 1 = rule.steps.length ∧ rule.expects x.2 n = true := by
  obtain ⟨id, hid⟩ := raised_eq hr hx
  exact expects_of_track fun hnil => h.1 (by rw [hid, hnil]; rfl)

section Runs
variable {find : OverlappingSearch} {stream : List (Nat × NetworkEvent)} {s : UInt32} {i j k : Nat}

/-- The engine's answer to an event has an alert for `s` when its only rule has fired for `s`. -/
theorem firedFor_iff_answer : FiredFor CepEngine.withDefaultRules.rules 0 s stream k ↔
    ∃ alerts, returned CepEngine.withDefaultRules.rules stream k = some alerts ∧
      ∃ a ∈ alerts, isAbout "probe-then-exploit-attempt" s a = true := by
  have hr : CepEngine.withDefaultRules.rules[0]? = some probeRule := rfl
  constructor
  · rintro ⟨hne, t, e, hx, hs⟩
    obtain ⟨a, ha⟩ := List.exists_mem_of_ne_nil _ hne
    refine ⟨_, process_eq_raised _ hx, a, List.mem_flatMap.mpr ⟨0, by decide, ha⟩, ?_⟩
    obtain ⟨id, hid⟩ := raised_eq hr hx
    obtain ⟨id', rfl⟩ := mem_alerts (hid ▸ ha)
    simp [isAbout, CepRule.alert, probeRule, hs]
  · rintro ⟨alerts, hout, a, ha, habout⟩
    have hlt : k < stream.length := by
      simpa using (List.getElem?_eq_some_iff.mp hout).1
    have hx : stream[k]? = some stream[k] := List.getElem?_eq_getElem hlt
    rw [process_eq_raised _ hx, Option.some.injEq] at hout
    obtain ⟨n, hn, hraised⟩ := List.mem_flatMap.mp (hout ▸ ha)
    obtain rfl : n = 0 := by simpa [CepEngine.withDefaultRules, CepEngine.ofRules] using hn
    refine ⟨List.ne_nil_of_mem hraised, stream[k].1, stream[k].2, hx, ?_⟩
    obtain ⟨id, hid⟩ := raised_eq hr hx
    obtain ⟨id', rfl⟩ := mem_alerts (hid ▸ hraised)
    simp only [isAbout, Bool.and_eq_true, beq_iff_eq] at habout
    exact ipToString_inj.mp habout.2

/-- A probe and a later event that carries "passwd" are a chain of the rule. -/
theorem chain_of_passwd {x y : Nat × NetworkEvent} (hik : i < k) (hx : stream[i]? = some x)
    (hsx : x.2.srcIp = s) (hsyn : x.2.isSyn = true) (hy : stream[k]? = some y) (hsy : y.2.srcIp = s)
    (hpasswd : Utf8.ascii "passwd" <:+: y.2.payloadSample) (hwin : y.1 - x.1 ≤ 5000000000) :
    Chain probeRule s stream k [i, k] := by
  refine ⟨⟨by simpa using hik, fun n m hm => ?_⟩, rfl, rfl, fun o t e t' e' ho ht ht' => ?_⟩
  · match n with
    | 0 =>
      obtain rfl : i = m := by simpa using hm
      exact ⟨x.1, x.2, .isSynOnly, hx, hsx, rfl, hsyn⟩
    | 1 =>
      obtain rfl : k = m := by simpa using hm
      exact ⟨y.1, y.2, .hasSignaturePayload, hy, hsy, rfl,
        (hasSignaturePayload_iff y.2).mpr hpasswd⟩
    | n + 2 => simp at hm
  · obtain rfl : i = o := by simpa using ho
    rw [hx, Option.some.injEq] at ht
    rw [hy, Option.some.injEq] at ht'
    rw [ht, ht'] at hwin
    exact hwin

/-- Between a probe and an event at most 5 s after it the engine raises an alert
for their source if and only if an event of the source carries "passwd". -/
theorem known_bad_correlated_iff (hmono : (stream.map Prod.fst).Pairwise (· ≤ ·))
    (h : BadAfterProbe find stream s i j) :
    Correlated stream s i j ↔ CarriesPasswd stream s i j := by
  have hr : CepEngine.withDefaultRules.rules[0]? = some probeRule := rfl
  obtain ⟨t, e, t', e', hx, hs, hsyn, hy, hs', hwin⟩ := h.events
  constructor
  · rintro ⟨k, alerts, hik, hkj, hout, habout⟩
    have hfired := firedFor_iff_answer.mpr ⟨alerts, hout, habout⟩
    obtain ⟨t₁, e₁, hz, hs₁⟩ := hfired.2
    obtain ⟨n, hn, hexpects⟩ := hfired.expects_last hr hz
    obtain rfl : n = 1 := Nat.succ.inj hn
    exact ⟨k, t₁, e₁, hik, hkj, hz, hs₁, (hasSignaturePayload_iff e₁).mp hexpects⟩
  · rintro ⟨k, t₁, e₁, hik, hkj, hz, hs₁, hpasswd⟩
    by_cases hbefore : ∃ m, i < m ∧ m < k ∧ FiredFor CepEngine.withDefaultRules.rules 0 s stream m
    · obtain ⟨m, him, hmk, hm⟩ := hbefore
      obtain ⟨alerts, hout, habout⟩ := firedFor_iff_answer.mp hm
      exact ⟨m, alerts, him, by omega, hout, habout⟩
    · -- the match that the probe has started is still waiting
      have hle : t₁ ≤ t' := by
        cases Nat.lt_or_eq_of_le hkj with
        | inl hlt => exact time_le hmono hlt hz hy
        | inr he =>
          subst he
          obtain ⟨rfl, -⟩ : t₁ = t' ∧ e₁ = e' := by simpa [hz] using hy
          exact le_rfl
      have hchain := chain_of_passwd hik hx hs hsyn hz hs₁ hpasswd (by simp only; omega)
      have hraises := hchain.raises hr le_rfl hmono fun o m ho hom hmk hm => by
        obtain rfl : i = o := by simpa using ho
        exact hbefore ⟨m, hom, hmk, hm⟩
      obtain ⟨alerts, hout, habout⟩ := firedFor_iff_answer.mp ⟨hraises, t₁, e₁, hz, hs₁⟩
      exact ⟨k, alerts, hik, hkj, hout, habout⟩

theorem pattern_of_passwd_rule : ∀ idx : Fin SignatureDetector.withDefaultRules.patterns.length,
    SignatureDetector.withDefaultRules.ruleNames.get
      (idx.cast SignatureDetector.withDefaultRules.named) =
      "path-traversal-passwd" →
    Utf8.ascii "passwd" <:+: SignatureDetector.withDefaultRules.patterns.get idx := by decide

/-- What `scan` raises for "/etc/passwd" is known to both. -/
theorem passwd_of_scan (hfind : find.Complete) {event : NetworkEvent} {a : Alert}
    (h : a ∈ (SignatureDetector.withDefaultRules.scan event find).2)
    (hname : a.ruleName = "path-traversal-passwd") :
    Utf8.ascii "passwd" <:+: event.payloadSample := by
  obtain ⟨id, idx, hidx, rfl⟩ := mem_signatureAlerts h
  exact (pattern_of_passwd_rule idx hname).trans
    ((mem_matched_iff hfind (patterns_nonempty idx)).mp hidx)

end Runs

theorem badAfterProbe_exploit : BadAfterProbe findByEnd probeThenExploit 42 0 2 where
  later := by decide
  events := ⟨0, synEvent 42, 2000000000, payloadEvent 42, rfl, rfl, by decide, rfl, rfl, by decide⟩
  scanned := ⟨_, rfl, by decide +kernel⟩

theorem known_bad_correlated_iff_exploit : Correlated probeThenExploit 42 0 2 :=
  (known_bad_correlated_iff (by decide) badAfterProbe_exploit).mpr
    ⟨2, 2000000000, payloadEvent 42, by decide, by decide, rfl, rfl, by decide⟩

/-- A payload that the signature detector knows and the CEP engine does not. -/
def cmdEvent (ip : UInt32) : NetworkEvent :=
  { payloadEvent ip with payloadSample := Utf8.ascii "cmd.exe" }

def probeThenCmd : List (Nat × NetworkEvent) := [(0, synEvent 42), (1000000000, cmdEvent 42)]

theorem badAfterProbe_cmd : BadAfterProbe findByEnd probeThenCmd 42 0 1 where
  later := by decide
  events := ⟨0, synEvent 42, 1000000000, cmdEvent 42, rfl, rfl, by decide, rfl, rfl, by decide⟩
  scanned := ⟨_, rfl, by decide +kernel⟩

theorem signature_unknown_to_cep : ¬ ∀ find : OverlappingSearch, find.Complete →
    ∀ stream : List (Nat × NetworkEvent), (stream.map Prod.fst).Pairwise (· ≤ ·) →
    ∀ s i j, BadAfterProbe find stream s i j → Correlated stream s i j := by
  intro hall
  obtain ⟨k, alerts, hk, hk', hout, a, ha, -⟩ :=
    hall findByEnd findByEnd_complete probeThenCmd (by decide) 42 0 1 badAfterProbe_cmd
  obtain rfl : k = 1 := by omega
  have hnone : returned CepEngine.withDefaultRules.rules probeThenCmd 1 = some [] := by
    decide +kernel
  rw [hnone, Option.some.injEq] at hout
  subst hout
  cases ha

end ThreatEngine.Detection
