import ThreatEngine.Lib.Utf8

/-! What lossy decoding is for, without the bytes' automaton: well-formed
sequences are copied, and where none begins, the longest piece that could have
begun one is replaced, or else a single byte. -/
namespace Utf8

/-- The continuation bytes that a sequence owes. -/
inductive Follows : Tail → List UInt8 → Prop
  | last {tail : Tail} {b : UInt8} (hlow : tail.low ≤ b) (hhigh : b ≤ tail.high)
      (howed : tail.owed = 1) :
      Follows tail [b]
  | more {tail : Tail} {b : UInt8} {c : List UInt8} (hlow : tail.low ≤ b) (hhigh : b ≤ tail.high)
      (howed : tail.owed ≠ 1) (h : Follows ⟨tail.owed - 1, 0x80, 0xBF⟩ c) :
      Follows tail (b :: c)

/-- One well-formed sequence. -/
inductive WellFormed : List UInt8 → Prop
  | single {b : UInt8} (hb : b < 0x80) : WellFormed [b]
  | multi {b : UInt8} {tail : Tail} {c : List UInt8} (hlead : lead b = some tail)
      (h : Follows tail c) :
      WellFormed (b :: c)

/-- One byte, or what a well-formed sequence begins with. -/
def Subpart (c : List UInt8) : Prop :=
  c ≠ [] ∧ (c.length = 1 ∨ ∃ more, WellFormed (c ++ more))

/-- No well-formed sequence begins `bs`, and `c` is the longest subpart that does. -/
structure MaximalSubpart (c bs : List UInt8) : Prop where
  illFormed : ∀ w, WellFormed w → ¬ w <+: bs
  begins : c <+: bs
  subpart : Subpart c
  longest : ∀ c', c' <+: bs → Subpart c' → c'.length ≤ c.length

/-- `out` is `bs` with every maximal ill-formed subpart replaced. -/
inductive Lossy : List UInt8 → List UInt8 → Prop
  | nil : Lossy [] []
  | copy {w bs out : List UInt8} (hw : WellFormed w) (h : Lossy bs out) :
      Lossy (w ++ bs) (w ++ out)
  | replace {c bs out : List UInt8} (hc : MaximalSubpart c (c ++ bs)) (h : Lossy bs out) :
      Lossy (c ++ bs) (replacement ++ out)

/-- `c` is what can be read of the continuation before `rest`, which breaks it. -/
inductive CutOff : Tail → List UInt8 → List UInt8 → Prop
  | stop {tail : Tail} {rest : List UInt8}
      (h : ∀ b ∈ rest.head?, ¬(tail.low ≤ b ∧ b ≤ tail.high)) :
      CutOff tail [] rest
  | more {tail : Tail} {b : UInt8} {c rest : List UInt8} (hlow : tail.low ≤ b)
      (hhigh : b ≤ tail.high) (howed : tail.owed ≠ 1)
      (h : CutOff ⟨tail.owed - 1, 0x80, 0xBF⟩ c rest) :
      CutOff tail (b :: c) rest

section Continuations
variable {tail : Tail} {b : UInt8} {bs c c' rest seen : List UInt8}

/-- A sequence that has begun is completed or cut off. -/
theorem follows_or_cutOff (tail : Tail) (bs : List UInt8) :
    ∃ c rest, bs = c ++ rest ∧ (Follows tail c ∨ CutOff tail c rest) := by
  induction bs generalizing tail with
  | nil => exact ⟨[], [], rfl, .inr (.stop (by simp))⟩
  | cons b bs ih =>
    by_cases hb : tail.low ≤ b ∧ b ≤ tail.high
    · by_cases howed : tail.owed = 1
      · exact ⟨[b], bs, rfl, .inl (.last hb.1 hb.2 howed)⟩
      · obtain ⟨c, rest, rfl, h | h⟩ := ih ⟨tail.owed - 1, 0x80, 0xBF⟩
        · exact ⟨b :: c, rest, rfl, .inl (.more hb.1 hb.2 howed h)⟩
        · exact ⟨b :: c, rest, rfl, .inr (.more hb.1 hb.2 howed h)⟩
    · exact ⟨[], b :: bs, rfl, .inr (.stop (by simpa using hb))⟩

theorem follows_cons_iff : Follows tail (b :: c) ↔ (tail.low ≤ b ∧ b ≤ tail.high) ∧
    (tail.owed = 1 ∧ c = [] ∨ tail.owed ≠ 1 ∧ Follows ⟨tail.owed - 1, 0x80, 0xBF⟩ c) := by
  constructor
  · intro h
    cases h with
    | last hlow hhigh howed => exact ⟨⟨hlow, hhigh⟩, .inl ⟨howed, rfl⟩⟩
    | more hlow hhigh howed h => exact ⟨⟨hlow, hhigh⟩, .inr ⟨howed, h⟩⟩
  · rintro ⟨⟨hlow, hhigh⟩, ⟨howed, rfl⟩ | ⟨howed, h⟩⟩
    · exact .last hlow hhigh howed
    · exact .more hlow hhigh howed h

/-- Nothing beyond what can be read belongs to a sequence that is cut off. -/
theorem CutOff.length_le (h : CutOff tail c rest) {more : List UInt8}
    (hfollows : Follows tail (c' ++ more)) (hpre : c' <+: c ++ rest) : c'.length ≤ c.length := by
  induction h generalizing c' with
  | stop hstop =>
    cases c' with
    | nil => exact le_rfl
    | cons b' c' =>
      obtain ⟨after, rfl⟩ := hpre
      exact absurd (follows_cons_iff.mp hfollows).1 (hstop b' rfl)
  | more hlow hhigh howed h ih =>
    cases c' with
    | nil => exact Nat.zero_le _
    | cons b' c' =>
      obtain ⟨rfl, hpre'⟩ := List.cons_prefix_cons.mp hpre
      obtain ⟨-, ⟨hone, -⟩ | ⟨-, hfollows'⟩⟩ := follows_cons_iff.mp hfollows
      · exact absurd hone howed
      · exact Nat.succ_le_succ (ih hfollows' hpre')

theorem CutOff.not_follows (h : CutOff tail c rest) (hfollows : Follows tail c') :
    ¬ c' <+: c ++ rest := by
  induction h generalizing c' with
  | stop hstop =>
    cases c' with
    | nil => cases hfollows
    | cons b' c' =>
      rintro ⟨after, rfl⟩
      exact hstop b' rfl (follows_cons_iff.mp hfollows).1
  | more hlow hhigh howed h ih =>
    cases c' with
    | nil => cases hfollows
    | cons b' c' =>
      obtain ⟨-, ⟨hone, -⟩ | ⟨-, hfollows'⟩⟩ := follows_cons_iff.mp hfollows
      · exact absurd hone howed
      · exact fun hpre => ih hfollows' (List.cons_prefix_cons.mp hpre).2

theorem continuation_bounds : (0x80 : UInt8) ≤ 0xBF := by decide

/-- What owes something can be completed. -/
theorem exists_follows (hbounds : tail.low ≤ tail.high) (howed : tail.owed ≠ 0) :
    ∃ c, Follows tail c := by
  obtain ⟨owed, low, high⟩ := tail
  induction owed generalizing low high with
  | zero => exact absurd rfl howed
  | succ owed ih =>
    by_cases h : owed = 0
    · exact ⟨[low], .last (UInt8.le_refl _) hbounds (by simp [h])⟩
    · obtain ⟨c, hc⟩ := ih 0x80 0xBF continuation_bounds h
      exact ⟨low :: c, .more (UInt8.le_refl _) hbounds (by simpa using h) hc⟩

theorem CutOff.exists_follows (h : CutOff tail c rest) (hbounds : tail.low ≤ tail.high)
    (howed : tail.owed ≠ 0) :
    ∃ more, Follows tail (c ++ more) := by
  induction h with
  | stop => exact Utf8.exists_follows hbounds howed
  | more hlow hhigh hone h ih =>
    obtain ⟨more, hmore⟩ := ih continuation_bounds (by simp only; omega)
    exact ⟨more, .more hlow hhigh hone hmore⟩

theorem decode_follows (h : Follows tail c) (seen bs : List UInt8) :
    decode (some (seen, tail)) (c ++ bs) = seen ++ c ++ decode none bs := by
  induction h generalizing seen with
  | last hlow hhigh howed => simp [decode, hlow, hhigh, howed]
  | more hlow hhigh howed h ih => simp [decode, hlow, hhigh, howed, ih]

theorem decode_cutOff (h : CutOff tail c rest) (seen : List UInt8) :
    decode (some (seen, tail)) (c ++ rest) = replacement ++ decode none rest := by
  induction h generalizing seen with
  | @stop tail rest hstop =>
    cases rest with
    | nil => simp [decode]
    | cons b rest => exact decode_broken (hstop b rfl)
  | more hlow hhigh howed h ih => simp [decode, hlow, hhigh, howed, ih]

end Continuations

section Sequences
variable {b : UInt8} {bs c out w : List UInt8} {tail : Tail}

theorem lead_bounds (h : lead b = some tail) :
    0x80 ≤ b ∧ tail.low ≤ tail.high ∧ tail.owed ≠ 0 := by
  have hhigh : 0x80 ≤ b := by
    by_contra hlt
    unfold lead at h
    split_ifs at h <;> simp_all [UInt8.le_iff_toNat_le, ← UInt8.toNat_inj] <;> omega
  refine ⟨hhigh, ?_⟩
  unfold lead at h
  split_ifs at h <;> cases h <;> decide

theorem WellFormed.nonempty (h : WellFormed w) : w ≠ [] := by
  cases h <;> exact List.cons_ne_nil _ _

theorem wellFormed_of_lead (h : lead b = some tail) : WellFormed (b :: c) ↔ Follows tail c := by
  refine ⟨fun hw => ?_, .multi h⟩
  cases hw with
  | single hb => exact absurd hb (UInt8.not_lt.mpr (lead_bounds h).1)
  | multi hlead hfollows =>
    obtain rfl := Option.some.inj (h.symm.trans hlead)
    exact hfollows

/-- A lead byte opens a sequence. -/
theorem decode_lead (h : lead b = some tail) (bs : List UInt8) :
    decode none (b :: bs) = decode (some ([b], tail)) bs := by
  have hb : ¬ b < 0x80 := UInt8.not_lt.mpr (lead_bounds h).1
  simp [decode, start, hb, h]

theorem decode_wellFormed (h : WellFormed w) (bs : List UInt8) :
    decode none (w ++ bs) = w ++ decode none bs := by
  cases h with
  | single hb => simp [decode, start_ascii hb]
  | multi hlead h => rw [List.cons_append, decode_lead hlead, decode_follows h]; rfl

/-- A sequence that is cut off is a maximal subpart. -/
theorem CutOff.maximalSubpart (h : CutOff tail c bs) (hlead : lead b = some tail) :
    MaximalSubpart (b :: c) (b :: (c ++ bs)) := by
  obtain ⟨hb, hbounds, howed⟩ := lead_bounds hlead
  refine ⟨fun w hw hpre => ?_, List.prefix_append (b :: c) bs, ?_, fun c' hpre hc' => ?_⟩
  · cases w with
    | nil => exact hw.nonempty rfl
    | cons b' w =>
      obtain ⟨rfl, hpre'⟩ := List.cons_prefix_cons.mp hpre
      exact h.not_follows ((wellFormed_of_lead hlead).mp hw) hpre'
  · obtain ⟨more, hmore⟩ := h.exists_follows hbounds howed
    exact ⟨List.cons_ne_nil _ _, .inr ⟨more, .multi hlead hmore⟩⟩
  · obtain ⟨hne, hone | ⟨more, hmore⟩⟩ := hc'
    · exact hone.trans_le (Nat.succ_le_succ (Nat.zero_le _))
    · cases c' with
      | nil => exact absurd rfl hne
      | cons b' c' =>
        obtain ⟨rfl, hpre'⟩ := List.cons_prefix_cons.mp hpre
        exact Nat.succ_le_succ (h.length_le ((wellFormed_of_lead hlead).mp hmore) hpre')

/-- So is a byte that begins no sequence. -/
theorem maximalSubpart_stray (hb : ¬ b < 0x80) (hlead : lead b = none) (bs : List UInt8) :
    MaximalSubpart [b] (b :: bs) := by
  have hill (w : List UInt8) (hw : WellFormed (b :: w)) : False := by
    cases hw with
    | single hb' => exact hb hb'
    | multi hlead' => simp [hlead] at hlead'
  refine ⟨fun w hw hpre => ?_, List.prefix_append [b] bs, ⟨List.cons_ne_nil _ _, .inl rfl⟩,
    fun c' hpre hc' => ?_⟩
  · cases w with
    | nil => exact hw.nonempty rfl
    | cons b' w =>
      obtain rfl := (List.cons_prefix_cons.mp hpre).1
      exact hill w hw
  · obtain ⟨hne, hone | ⟨more, hmore⟩⟩ := hc'
    · exact hone.le
    · cases c' with
      | nil => exact absurd rfl hne
      | cons b' c' =>
        obtain rfl := (List.cons_prefix_cons.mp hpre).1
        exact (hill _ hmore).elim

/-- What begins a text is copied or replaced. -/
theorem begins_cases (b : UInt8) (bs : List UInt8) :
    (∃ w rest, b :: bs = w ++ rest ∧ WellFormed w) ∨
    ∃ c rest, b :: bs = c ++ rest ∧ MaximalSubpart c (b :: bs) ∧
      decode none (b :: bs) = replacement ++ decode none rest := by
  by_cases hb : b < 0x80
  · exact .inl ⟨[b], bs, rfl, .single hb⟩
  · cases hlead : lead b with
    | none =>
      refine .inr ⟨[b], bs, rfl, maximalSubpart_stray hb hlead bs, ?_⟩
      simp [decode, start, hb, hlead]
    | some tail =>
      obtain ⟨c, rest, rfl, h | h⟩ := follows_or_cutOff tail bs
      · exact .inl ⟨b :: c, rest, rfl, .multi hlead h⟩
      · refine .inr ⟨b :: c, rest, rfl, h.maximalSubpart hlead, ?_⟩
        rw [decode_lead hlead, decode_cutOff h]

/-- There is one maximal subpart at most. -/
theorem MaximalSubpart.unique {c' : List UInt8} (h : MaximalSubpart c bs)
    (h' : MaximalSubpart c' bs) : c = c' := by
  have hlength : c.length = c'.length :=
    le_antisymm (h'.longest c h.begins h.subpart) (h.longest c' h'.begins h'.subpart)
  exact (List.prefix_of_prefix_length_le h.begins h'.begins hlength.le).eq_of_length hlength

theorem decode_maximalSubpart (h : MaximalSubpart c (c ++ bs)) :
    decode none (c ++ bs) = replacement ++ decode none bs := by
  cases c with
  | nil => exact absurd rfl h.subpart.1
  | cons b c =>
    obtain ⟨w, rest, hsplit, hw⟩ | ⟨c', rest, hsplit, hc', hdecode⟩ := begins_cases b (c ++ bs)
    · exact absurd ⟨rest, hsplit.symm⟩ (h.illFormed w hw)
    · obtain rfl := h.unique hc'
      obtain rfl : bs = rest := by simpa using hsplit
      exact hdecode

theorem length_rest_lt {l rest : List UInt8} (hsplit : l = c ++ rest) (hc : c ≠ []) :
    rest.length < l.length := by
  have hpos := List.length_pos_of_ne_nil hc
  rw [hsplit, List.length_append]
  omega

/-- By induction on the length, since a whole sequence goes at once. -/
theorem lossy_fromUtf8Lossy (bs : List UInt8) : Lossy bs (fromUtf8Lossy bs) := by
  induction hn : bs.length using Nat.strong_induction_on generalizing bs with
  | _ n ih =>
    subst hn
    cases bs with
    | nil => exact .nil
    | cons b bs =>
      obtain ⟨w, rest, hsplit, hw⟩ | ⟨c, rest, hsplit, hc, hdecode⟩ := begins_cases b bs
      · have hrest := ih _ (length_rest_lt hsplit hw.nonempty) rest rfl
        rw [fromUtf8Lossy, hsplit, decode_wellFormed hw]
        exact .copy hw hrest
      · have hrest := ih _ (length_rest_lt hsplit hc.subpart.1) rest rfl
        rw [fromUtf8Lossy, hdecode, hsplit]
        exact .replace (hsplit ▸ hc) hrest

/-- The automaton computes what lossy decoding is for, and that is unique. -/
theorem lossy_iff : Lossy bs out ↔ out = fromUtf8Lossy bs := by
  constructor
  · intro h
    induction h with
    | nil => rfl
    | copy hw _ ih => rw [fromUtf8Lossy, decode_wellFormed hw, ih, fromUtf8Lossy]
    | replace hc _ ih => rw [fromUtf8Lossy, decode_maximalSubpart hc, ih, fromUtf8Lossy]
  · rintro rfl
    exact lossy_fromUtf8Lossy bs

/-- An ASCII text is in what replaces `bs` if and only if it is in `bs`. -/
theorem Lossy.infix_iff (h : Lossy bs out) {part : List UInt8}
    (hp : part.all (fun c => decide (c < 0x80)) = true) (hne : part ≠ []) :
    part <:+: out ↔ part <:+: bs := by
  have hcontains : contains (fromUtf8Lossy bs) part = true ↔ part <:+: bs :=
    contains_fromUtf8Lossy hp hne
  rwa [contains, decide_eq_true_iff, ← lossy_iff.mp h] at hcontains

end Sequences

end Utf8
