import ThreatEngine.Detection.CepRuns

/-! No chain is missed. The match that the first event of a chain starts is never
behind the chain until an alert is raised, and at the chain's last event some
match of the source is completed. -/
namespace ThreatEngine.Detection

/-- A match begun at instant `t₀` is still held after `k` events, unfinished and
past every step whose event on the chain is among them. -/
def Carried (rules : List CepRule) (i : Nat) (rule : CepRule) (s : UInt32)
    (stream : List (Nat × NetworkEvent)) (idx : List Nat) (t₀ k : Nat) : Prop :=
  ∃ p ∈ held rules i s (stream.take k), p.startedAt = t₀ ∧ p.step < rule.steps.length ∧
    ∀ n m : Nat, idx[n]? = some m → m < k → n < p.step

theorem time_le {stream : List (Nat × NetworkEvent)} (h : (stream.map Prod.fst).Pairwise (· ≤ ·))
    {k j : Nat} (hkj : k < j) {x y : Nat × NetworkEvent} (hx : stream[k]? = some x)
    (hy : stream[j]? = some y) : x.1 ≤ y.1 := by
  obtain ⟨hk, rfl⟩ := List.getElem?_eq_some_iff.mp hx
  obtain ⟨hj, rfl⟩ := List.getElem?_eq_some_iff.mp hy
  exact List.pairwise_iff_getElem.mp (List.pairwise_map.mp h) k j hk hj hkj

section Chains
variable {rule : CepRule} {s : UInt32} {stream : List (Nat × NetworkEvent)} {idx : List Nat}
    {j : Nat}

theorem Traces.lt_of_lt (h : Traces rule s stream idx) {n n' m m' : Nat} (hn : idx[n]? = some m)
    (hn' : idx[n']? = some m') (hlt : n < n') : m < m' := by
  obtain ⟨hl, rfl⟩ := List.getElem?_eq_some_iff.mp hn
  obtain ⟨hl', rfl⟩ := List.getElem?_eq_some_iff.mp hn'
  exact List.pairwise_iff_getElem.mp h.increasing n n' hl hl' hlt

theorem Traces.expects (h : Traces rule s stream idx) {n k : Nat} {x : Nat × NetworkEvent}
    (hn : idx[n]? = some k) (hx : stream[k]? = some x) : x.2.srcIp = s ∧ rule.expects x.2 n = true := by
  obtain ⟨t, e, c, hk, hs, hc⟩ := h.satisfies n k hn
  obtain rfl := Option.some.inj (hx.symm.trans hk)
  exact ⟨hs, expects_eq_true_iff.mpr ⟨c, hc⟩⟩

end Chains

section Completeness
variable {rules : List CepRule} {i : Nat} {rule : CepRule} {s : UInt32}
    {stream : List (Nat × NetworkEvent)}
  {idx : List Nat} {t₀ k o : Nat} {x : Nat × NetworkEvent}

theorem held_take_succ (hr : rules[i]? = some rule) (hx : stream[k]? = some x) :
    held rules i s (stream.take (k + 1)) =
      if s = x.2.srcIp then (rule.track x.1 x.2 (held rules i s (stream.take k))).1
      else held rules i s (stream.take k) := by
  rw [List.take_add_one, hx, Option.toList_some, held_concat hr]

/-- The first event of a chain starts the match that is carried. -/
theorem Traces.carried_start (h : Traces rule s stream idx) (hr : rules[i]? = some rule)
    (hn : 2 ≤ rule.steps.length) (ho : idx[0]? = some o) (hx : stream[o]? = some x) :
    Carried rules i rule s stream idx x.1 (o + 1) := by
  obtain ⟨hs, he⟩ := h.expects ho hx
  refine ⟨⟨1, x.1⟩, ?_, rfl, hn, fun n m hm hlt => ?_⟩
  · rw [held_take_succ hr hx, if_pos hs.symm, CepRule.track, if_pos he]
    exact List.mem_append_right _ List.mem_cons_self
  · by_contra hge
    have := h.lt_of_lt ho hm (Nat.not_lt.mp hge)
    omega

/-- The step lemma: an event in the window on which the rule raises nothing. -/
theorem Carried.step (h : Carried rules i rule s stream idx t₀ k) (ht : Traces rule s stream idx)
    (hr : rules[i]? = some rule) (hx : stream[k]? = some x) (hw : x.1 - t₀ ≤ rule.window)
    (hno : ¬ FiredFor rules i s stream k) : Carried rules i rule s stream idx t₀ (k + 1) := by
  obtain ⟨p, hp, rfl, hlt, hpast⟩ := h
  unfold Carried
  rw [held_take_succ hr hx]
  split
  · next hs =>
    -- nothing was completed, so everything that could advance did
    have hnil : (rule.track x.1 x.2 (held rules i s (stream.take k))).2 = [] := by
      obtain ⟨id, hid⟩ := raised_eq hr hx
      by_contra hne
      refine hno ⟨fun hnil => hne ?_, x.1, x.2, hx, hs.symm⟩
      have hlen := congrArg List.length (hid.symm.trans hnil)
      rw [length_alerts, ← hs] at hlen
      exact List.eq_nil_of_length_eq_zero hlen
    have hfresh : rule.fresh x.1 p = true := decide_eq_true hw
    have hmem := mem_track_of_nil hp hfresh hnil
    -- how far the chain is when its event is this one
    have hreach (n m : Nat) (hm : idx[n]? = some m) (hmk : m < k + 1) : n < p.step ∨
        n = p.step ∧ rule.expects x.2 p.step = true := by
      cases Nat.lt_succ_iff_lt_or_eq.mp hmk with
      | inl hlt => exact Or.inl (hpast n m hm hlt)
      | inr he =>
        subst he
        have hexp := (ht.expects hm hx).2
        have hle : n ≤ p.step := by
          cases n with
          | zero => exact Nat.zero_le _
          | succ n =>
            obtain ⟨hl, _⟩ := List.getElem?_eq_some_iff.mp hm
            have hprev : idx[n]? = some idx[n] := List.getElem?_eq_getElem (by omega)
            exact hpast n _ hprev (ht.lt_of_lt hprev hm (Nat.lt_succ_self n))
        cases Nat.lt_or_eq_of_le hle with
        | inl hlt => exact Or.inl hlt
        | inr he => exact Or.inr ⟨he, he ▸ hexp⟩
    by_cases hexp : rule.expects x.2 p.step = true
    · have hadv : rule.advance x.2 p = some ⟨p.step + 1, p.startedAt⟩ :=
        advance_eq_some_iff.mpr ⟨hexp, rfl⟩
      rw [hadv] at hmem
      refine ⟨_, hmem, rfl, ?_, fun n m hm hmk => ?_⟩
      · rw [Option.getD_some]
        by_contra hge
        exact track_completes hp hfresh hexp (le_antisymm hlt (Nat.not_lt.mp hge)) hnil
      · cases hreach n m hm hmk with
        | inl hlt => exact Nat.lt_succ_of_lt hlt
        | inr he => exact he.1 ▸ Nat.lt_succ_self n
    · have hadv : rule.advance x.2 p = none := by simp [CepRule.advance, hexp]
      rw [hadv] at hmem
      exact ⟨p, hmem, rfl, hlt, fun n m hm hmk => (hreach n m hm hmk).resolve_right fun he => hexp he.2⟩
  · next hs =>
    refine ⟨p, hp, rfl, hlt, fun n m hm hmk => ?_⟩
    cases Nat.lt_succ_iff_lt_or_eq.mp hmk with
    | inl hlt => exact hpast n m hm hlt
    | inr he =>
      subst he
      exact absurd (ht.expects hm hx).1.symm hs

/-- The run lemma: from its first event to its last the chain is carried. -/
theorem Traces.carried (h : Traces rule s stream idx) (hr : rules[i]? = some rule)
    (hn : 2 ≤ rule.steps.length) (ho : idx[0]? = some o) (hx : stream[o]? = some x)
    (hbetween : ∀ m y, o < m → m < k → stream[m]? = some y →
      y.1 - x.1 ≤ rule.window ∧ ¬ FiredFor rules i s stream m) (hok : o < k) (hk : k ≤ stream.length) :
    Carried rules i rule s stream idx x.1 k := by
  induction hok with
  | refl => exact h.carried_start hr hn ho hx
  | @step k hok ih =>
    have hy : stream[k]? = some stream[k] := List.getElem?_eq_getElem hk
    obtain ⟨hw, hno⟩ := hbetween k _ hok (Nat.lt_succ_self k) hy
    exact (ih (fun m y hm hmk => hbetween m y hm (Nat.lt_succ_of_lt hmk)) (Nat.le_of_succ_le hk)).step h hr
      hy hw hno

/-- On the last event of a chain the rule raises an alert, unless it has raised
one strictly between the chain's first event and this one. -/
theorem Chain.raises {j : Nat} (hchain : Chain rule s stream j idx) (hr : rules[i]? = some rule)
    (hn : 2 ≤ rule.steps.length) (hmono : (stream.map Prod.fst).Pairwise (· ≤ ·))
    (hno : ∀ o k, idx.head? = some o → o < k → k < j → ¬ FiredFor rules i s stream k) :
    raised rules i stream j ≠ [] := by
  have htraces := hchain.toTraces
  obtain ⟨n, hlen⟩ : ∃ n, rule.steps.length = n + 2 := ⟨rule.steps.length - 2, by omega⟩
  have hidx : idx.length = n + 2 := hchain.length.trans hlen
  have ho : idx[0]? = some idx[0] := List.getElem?_eq_getElem (by omega)
  have hprev : idx[n]? = some idx[n] := List.getElem?_eq_getElem (by omega)
  have hlast : idx[n + 1]? = some j := by
    rw [← hchain.ends, List.getLast?_eq_getElem?, hidx]
    rfl
  obtain ⟨t, e, _, hx, _⟩ := htraces.satisfies 0 _ ho
  obtain ⟨t', e', _, hy, hs, _⟩ := htraces.satisfies (n + 1) _ hlast
  have hhead : idx.head? = some idx[0] := List.head?_eq_getElem?.trans ho
  have hwin := hchain.within _ _ _ _ _ hhead hx hy
  have hbetween : ∀ m z, idx[0] < m → m < j → stream[m]? = some z →
      z.1 - t ≤ rule.window ∧ ¬ FiredFor rules i s stream m := by
    intro m z hm hmj hz
    have hle : z.1 ≤ t' := time_le hmono hmj hz hy
    exact ⟨by omega, hno _ m hhead hm hmj⟩
  obtain ⟨p, hp, hstart, hlt, hpast⟩ := htraces.carried hr hn ho hx hbetween
    (htraces.lt_of_lt ho hlast (Nat.succ_pos n)) (List.getElem?_eq_some_iff.mp hy).1.le
  have hstep : p.step = n + 1 := by
    have := hpast n _ hprev (htraces.lt_of_lt hprev hlast (Nat.lt_succ_self n))
    omega
  have hexp : rule.expects e' p.step = true := hstep ▸ (htraces.expects hlast hy).2
  obtain ⟨id, hid⟩ := raised_eq hr hy
  have hne : (rule.track t' e' (held rules i e'.srcIp (stream.take j))).2 ≠ [] :=
    track_completes (hs ▸ hp) (decide_eq_true (hstart ▸ hwin)) hexp (by omega)
  rw [hid]
  refine List.ne_nil_of_length_pos ?_
  rw [length_alerts]
  exact List.length_pos_of_ne_nil hne

/-- Completeness: on the last event of a chain within the window a rule of at
least two steps raises exactly one alert, unless it has raised one for the
source strictly between the chain's first event and this one; and `process`
returns it with what the other rules raise. -/
theorem cep_complete (hr : rules[i]? = some rule) (hn : 2 ≤ rule.steps.length)
    (hmono : (stream.map Prod.fst).Pairwise (· ≤ ·)) {j : Nat} (hchain : Chain rule s stream j idx)
    (hno : ∀ o k, idx.head? = some o → o < k → k < j → ¬ FiredFor rules i s stream k) :
    (raised rules i stream j).length = 1 ∧ returned rules stream j =
      some ((List.range rules.length).flatMap fun i => raised rules i stream j) := by
  have hlt : j < stream.length := hchain.toTraces.lt_length (List.mem_of_getLast? hchain.ends)
  refine ⟨?_, process_eq_raised rules (List.getElem?_eq_getElem hlt)⟩
  exact le_antisymm (length_raised_le hr stream j) (List.length_pos_of_ne_nil (hchain.raises hr hn hmono hno))

end Completeness

theorem chain_probe :
    Chain ⟨"probe-then-exploit-attempt", .critical, [.isSynOnly, .hasSignaturePayload], 5000000000⟩ 42
      probeThenExploit 2 [0, 2] := by
  refine ⟨⟨by decide, fun n k hk => ?_⟩, rfl, rfl, fun o t e t' e' ho hx hx' => ?_⟩
  · match n with
    | 0 =>
      obtain rfl : 0 = k := by simpa using hk
      exact ⟨0, synEvent 42, .isSynOnly, rfl, rfl, rfl, by decide⟩
    | 1 =>
      obtain rfl : 2 = k := by simpa using hk
      exact ⟨2000000000, payloadEvent 42, .hasSignaturePayload, rfl, rfl, rfl, by decide +kernel⟩
    | n + 2 => simp at hk
  · obtain rfl : 0 = o := by simpa using ho
    obtain ⟨rfl, -⟩ : 0 = t ∧ synEvent 42 = e := by simpa [probeThenExploit] using hx
    obtain ⟨rfl, -⟩ : 2000000000 = t' ∧ payloadEvent 42 = e' := by simpa [probeThenExploit] using hx'
    decide

theorem cep_complete_probe :
    (raised CepEngine.withDefaultRules.rules 0 probeThenExploit 2).length = 1 ∧
    returned CepEngine.withDefaultRules.rules probeThenExploit 2 =
      some ((List.range CepEngine.withDefaultRules.rules.length).flatMap fun i =>
        raised CepEngine.withDefaultRules.rules i probeThenExploit 2) := by
  refine cep_complete rfl le_rfl (by decide) chain_probe fun o k ho hok hk hfired => ?_
  obtain ⟨_, t, e, hx, hs⟩ := hfired
  obtain rfl : k = 1 := by omega
  obtain ⟨-, rfl⟩ : 1000000000 = t ∧ payloadEvent 7 = e := by simpa [probeThenExploit] using hx
  exact absurd hs (by decide)

end ThreatEngine.Detection
