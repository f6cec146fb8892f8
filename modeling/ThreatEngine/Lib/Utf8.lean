import Mathlib.Data.List.Infix

/-! Lossy decoding of UTF-8, byte by byte: a well-formed sequence is copied and
every maximal ill-formed subsequence becomes U+FFFD. Texts stay in their UTF-8
form, so searching one in another is searching bytes. -/
namespace Utf8

/-- How many continuation bytes are owed, and the bounds of the next one. -/
structure Tail where
  owed : Nat
  low : UInt8
  high : UInt8
  deriving DecidableEq

/-- What a lead byte of a multi-byte sequence owes. -/
def lead (b : UInt8) : Option Tail :=
  if 0xC2 ≤ b ∧ b ≤ 0xDF then some ⟨1, 0x80, 0xBF⟩
  else if b = 0xE0 then some ⟨2, 0xA0, 0xBF⟩
  else if b = 0xED then some ⟨2, 0x80, 0x9F⟩
  else if 0xE1 ≤ b ∧ b ≤ 0xEF then some ⟨2, 0x80, 0xBF⟩
  else if b = 0xF0 then some ⟨3, 0x90, 0xBF⟩
  else if 0xF1 ≤ b ∧ b ≤ 0xF3 then some ⟨3, 0x80, 0xBF⟩
  else if b = 0xF4 then some ⟨3, 0x80, 0x8F⟩
  else none

/-- U+FFFD. -/
def replacement : List UInt8 := [0xEF, 0xBF, 0xBD]

/-- What a byte between two sequences puts out, and the sequence it opens. -/
def start (b : UInt8) : List UInt8 × Option (List UInt8 × Tail) :=
  if b < 0x80 then ([b], none)
  else match lead b with
    | some tail => ([], some ([b], tail))
    | none => (replacement, none)

/-- The first argument is the sequence being read, if any. -/
def decode : Option (List UInt8 × Tail) → List UInt8 → List UInt8
  | none, [] => []
  | some _, [] => replacement
  | none, b :: bs => (start b).1 ++ decode (start b).2 bs
  | some (seen, tail), b :: bs =>
    if tail.low ≤ b ∧ b ≤ tail.high then
      if tail.owed = 1 then seen ++ b :: decode none bs
      else decode (some (seen ++ [b], ⟨tail.owed - 1, 0x80, 0xBF⟩)) bs
    else replacement ++ (start b).1 ++ decode (start b).2 bs

def fromUtf8Lossy (bs : List UInt8) : List UInt8 := decode none bs

/-- The bytes of an ASCII text. -/
def ascii (s : String) : List UInt8 := s.toList.map fun c => c.toNat.toUInt8

def contains (text part : List UInt8) : Bool := decide (part <:+: text)

example : fromUtf8Lossy [0x61, 0xE2, 0x82, 0x62, 0xC3, 0xA9] =
    [0x61, 0xEF, 0xBF, 0xBD, 0x62, 0xC3, 0xA9] := by decide

/-- The sequence being read consists of non-ASCII bytes and waits for one more. -/
structure Open (seen : List UInt8) (tail : Tail) : Prop where
  nonempty : seen ≠ []
  high : ∀ b ∈ seen, 0x80 ≤ b
  low : 0x80 ≤ tail.low

section Needles
variable {part : List UInt8} {b : UInt8} {bs seen : List UInt8} {tail : Tail}

theorem lead_low (h : lead b = some tail) : 0x80 ≤ tail.low := by
  unfold lead at h
  split_ifs at h <;> cases h <;> decide

theorem Open.first (hb : 0x80 ≤ b) (h : lead b = some tail) : Open [b] tail :=
  ⟨List.cons_ne_nil _ _, fun _ hc => List.mem_singleton.mp hc ▸ hb, lead_low h⟩

theorem Open.more (h : Open seen tail) (hb : tail.low ≤ b) (owed : Nat) :
    Open (seen ++ [b]) ⟨owed, 0x80, 0xBF⟩ := by
  refine ⟨by simp, fun c hc => ?_, UInt8.le_refl _⟩
  obtain hc | hc := List.mem_append.mp hc
  · exact h.high c hc
  · exact List.mem_singleton.mp hc ▸ UInt8.le_trans h.low hb

/-- A non-ASCII byte is in no occurrence of an ASCII text. -/
theorem infix_cons_high (hp : ∀ c ∈ part, c < 0x80) (hne : part ≠ []) (hb : 0x80 ≤ b)
    (l : List UInt8) :
    part <:+: b :: l ↔ part <:+: l := by
  rw [List.infix_cons_iff, or_iff_right]
  intro hpre
  cases part with
  | nil => exact hne rfl
  | cons c part =>
    obtain rfl := (List.cons_prefix_cons.mp hpre).1
    exact absurd (hp c List.mem_cons_self) (UInt8.not_lt.mpr hb)

theorem infix_append_high (hp : ∀ c ∈ part, c < 0x80) (hne : part ≠ []) {high : List UInt8}
    (hh : ∀ b ∈ high, 0x80 ≤ b) (l : List UInt8) : part <:+: high ++ l ↔ part <:+: l := by
  induction high with
  | nil => rfl
  | cons b high ih =>
    rw [List.cons_append, infix_cons_high hp hne (hh b List.mem_cons_self)]
    exact ih fun c hc => hh c (List.mem_cons_of_mem _ hc)

theorem high_replacement : ∀ b ∈ replacement, 0x80 ≤ b := by
  simp only [replacement, List.forall_mem_cons]
  exact ⟨by decide, by decide, by decide, fun _ h => absurd h List.not_mem_nil⟩

/-- What a non-ASCII byte starts. -/
theorem start_high (hb : 0x80 ≤ b) :
    start b = (replacement, none) ∨ ∃ tail, start b = ([], some ([b], tail)) ∧ Open [b] tail := by
  unfold start
  rw [if_neg (UInt8.not_lt.mpr hb)]
  cases h : lead b with
  | none => exact .inl rfl
  | some tail => exact .inr ⟨tail, rfl, .first hb h⟩

theorem start_ascii (hb : b < 0x80) : start b = ([b], none) := by
  rw [start, if_pos hb]

/-- A byte that does not continue the sequence is read as if there were none. -/
theorem decode_broken (h : ¬(tail.low ≤ b ∧ b ≤ tail.high)) :
    decode (some (seen, tail)) (b :: bs) = replacement ++ decode none (b :: bs) := by
  simp [decode, h]

/-- An open sequence puts out a non-ASCII byte first. -/
theorem decode_open (h : Open seen tail) (bs : List UInt8) :
    ∃ a out, 0x80 ≤ a ∧ decode (some (seen, tail)) bs = a :: out := by
  induction bs generalizing seen tail with
  | nil => exact ⟨_, _, by decide, rfl⟩
  | cons b bs ih =>
    by_cases hb : tail.low ≤ b ∧ b ≤ tail.high
    · by_cases howed : tail.owed = 1
      · cases seen with
        | nil => exact absurd rfl h.nonempty
        | cons a seen => exact ⟨a, _, h.high a List.mem_cons_self, by simp [decode, hb, howed]; rfl⟩
      · obtain ⟨a, out, ha, hout⟩ := ih (h.more hb.1 (tail.owed - 1))
        exact ⟨a, out, ha, by simpa [decode, hb, howed] using hout⟩
    · exact ⟨_, _, by decide, decode_broken hb⟩

/-- So does a non-ASCII byte. -/
theorem decode_high (hb : 0x80 ≤ b) (bs : List UInt8) :
    ∃ a out, 0x80 ≤ a ∧ decode none (b :: bs) = a :: out := by
  rw [decode]
  obtain h | ⟨tail, h, hopen⟩ := start_high hb
  · rw [h]
    exact ⟨_, _, by decide, rfl⟩
  · rw [h]
    exact decode_open hopen bs

/-- An ASCII text starts the output where it starts the input. -/
theorem prefix_decode (hp : ∀ c ∈ part, c < 0x80) : part <+: decode none bs ↔ part <+: bs := by
  induction bs generalizing part with
  | nil => rfl
  | cons b bs ih =>
    cases part with
    | nil => simp
    | cons c part =>
      by_cases hb : b < 0x80
      · rw [decode, start_ascii hb, List.singleton_append, List.cons_prefix_cons, List.cons_prefix_cons,
          ih fun d hd => hp d (List.mem_cons_of_mem _ hd)]
      · have hc := hp c List.mem_cons_self
        obtain ⟨a, out, ha, hout⟩ := decode_high (UInt8.not_lt.mp hb) bs
        rw [hout, List.cons_prefix_cons, List.cons_prefix_cons]
        refine iff_of_false (fun h => ?_) fun h => ?_
        · exact UInt8.not_lt.mpr ha (h.1 ▸ hc)
        · exact hb (h.1 ▸ hc)

/-- An ASCII text is in the output if and only if it is in the input. -/
theorem infix_decode (hp : ∀ c ∈ part, c < 0x80) (hne : part ≠ []) :
    (part <:+: decode none bs ↔ part <:+: bs) ∧
    ∀ seen tail, Open seen tail → (part <:+: decode (some (seen, tail)) bs ↔ part <:+: bs) := by
  induction bs with
  | nil =>
    refine ⟨Iff.rfl, fun seen tail _ => ?_⟩
    have h := infix_append_high hp hne high_replacement []
    rwa [List.append_nil] at h
  | cons b bs ih =>
    have hnone : part <:+: decode none (b :: bs) ↔ part <:+: b :: bs := by
      by_cases hb : b < 0x80
      · have hpre : part <+: decode none (b :: bs) ↔ part <+: b :: bs := prefix_decode hp
        rw [decode, start_ascii hb, List.singleton_append] at hpre ⊢
        rw [List.infix_cons_iff, List.infix_cons_iff, hpre, ih.1]
      · rw [decode, infix_cons_high hp hne (UInt8.not_lt.mp hb)]
        obtain h | ⟨tail, h, hopen⟩ := start_high (UInt8.not_lt.mp hb)
        · rw [h, infix_append_high hp hne high_replacement, ih.1]
        · rw [h, List.nil_append, ih.2 _ _ hopen]
    refine ⟨hnone, fun seen tail hopen => ?_⟩
    by_cases hb : tail.low ≤ b ∧ b ≤ tail.high
    · have hhigh : 0x80 ≤ b := UInt8.le_trans hopen.low hb.1
      rw [infix_cons_high hp hne hhigh]
      by_cases howed : tail.owed = 1
      · have hdecode : decode (some (seen, tail)) (b :: bs) = seen ++ b :: decode none bs := by
          simp [decode, hb, howed]
        rw [hdecode, infix_append_high hp hne hopen.high, infix_cons_high hp hne hhigh, ih.1]
      · have hdecode : decode (some (seen, tail)) (b :: bs) =
            decode (some (seen ++ [b], ⟨tail.owed - 1, 0x80, 0xBF⟩)) bs := by
          simp [decode, hb, howed]
        rw [hdecode, ih.2 _ _ (hopen.more hb.1 _)]
    · rw [decode_broken hb, infix_append_high hp hne high_replacement, hnone]

/-- Searching the decoded text for an ASCII text is searching the bytes. -/
theorem contains_fromUtf8Lossy (hp : part.all (fun c => decide (c < 0x80)) = true)
    (hne : part ≠ []) :
    contains (fromUtf8Lossy bs) part = true ↔ part <:+: bs := by
  have hascii : ∀ c ∈ part, c < 0x80 := fun c hc => of_decide_eq_true (List.all_eq_true.mp hp c hc)
  rw [contains, decide_eq_true_iff, fromUtf8Lossy, (infix_decode hascii hne).1]

end Needles

end Utf8
