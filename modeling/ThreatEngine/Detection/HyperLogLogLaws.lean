import ThreatEngine.Detection.HyperLogLog
import ThreatEngine.Lib.Harmonic

/-! The registers of the counter after any keys, and what its estimate makes of
them: it is defined, is at least the number of touched buckets, and does not
fall when a key is added. -/
namespace ThreatEngine.Detection

/-- Real arithmetic in which a division by zero, a negative power of zero and the
logarithm of a number that is not positive have no result. -/
def CheckedReal : Type := Option ℝ

open Classical in
noncomputable instance : Float64 CheckedReal where
  add x y := Option.map₂ (α := ℝ) (β := ℝ) (· + ·) x y
  mul x y := Option.map₂ (α := ℝ) (β := ℝ) (· * ·) x y
  div x y := Option.bind (α := ℝ) x fun x => Option.bind (α := ℝ) y fun y => if y = 0 then none else some (x / y)
  natCast n := some (n : ℝ)
  ofScientific m s e := some (OfScientific.ofScientific m s e : ℝ)
  ln x := Option.bind (α := ℝ) x fun x => if 0 < x then some (Real.log x) else none
  powi x n := Option.bind (α := ℝ) x fun x => if x = 0 ∧ n < 0 then none else some (x ^ n)
  lt x y := ((Option.map₂ (α := ℝ) (β := ℝ) (fun x y => decide (x < y)) x y)).getD false
  le x y := ((Option.map₂ (α := ℝ) (β := ℝ) (fun x y => decide (x ≤ y)) x y)).getD false
  text x := (Option.map (α := ℝ) Float64.text x).getD "NaN"

namespace CheckedReal

def of (x : ℝ) : CheckedReal := some x

theorem of_add (x y : ℝ) : of x + of y = of (x + y) := rfl

theorem of_mul (x y : ℝ) : of x * of y = of (x * y) := rfl

theorem of_div (x : ℝ) {y : ℝ} (hy : y ≠ 0) : of x / of y = of (x / y) := if_neg hy

theorem of_lt (x y : ℝ) : Float64.lt (of x) (of y) = Float64.lt x y := rfl

theorem of_ln {x : ℝ} (hx : 0 < x) : Float64.ln (of x) = of (Real.log x) := if_pos hx

theorem of_powi {x : ℝ} (hx : x ≠ 0) (n : ℤ) : Float64.powi (of x) n = of (x ^ n) :=
  if_neg fun h => hx h.1

theorem foldl_of (l : List ℝ) (x : ℝ) : (l.map of).foldl (· + ·) (of x) = of (l.foldl (· + ·) x) := by
  induction l generalizing x with
  | nil => rfl
  | cons y l ih => exact ih (x + y)

end CheckedReal

section Ranks
variable {b : Nat}

theorem two_pow_le_sentinel (hb : 1 ≤ b ∧ b ≤ 63) (x : UInt64) :
    2 ^ (b - 1) ≤ (x ||| 1 <<< (b - 1).toUInt64).toNat := by
  have hpow : 2 ^ (b - 1) < 2 ^ 64 := Nat.pow_lt_pow_right (by decide) (by omega)
  have hword : ((1 : UInt64) <<< (b - 1).toUInt64).toNat = 2 ^ (b - 1) := by
    have hshift : (b - 1).toUInt64.toNat % 64 = b - 1 := by
      simp
      omega
    rw [UInt64.toNat_shiftLeft, hshift, UInt64.toNat_one, Nat.one_shiftLeft, Nat.mod_eq_of_lt hpow]
  rw [UInt64.toNat_or, hword]
  exact Nat.right_le_or

/-- The sentinel bit bounds the leading zeros. -/
theorem rankOf_bounds (hb : 1 ≤ b ∧ b ≤ 63) (h : UInt64) :
    1 ≤ (rankOf b h).toNat ∧ (rankOf b h).toNat ≤ 65 - b := by
  have hle := two_pow_le_sentinel hb (h <<< b.toUInt64)
  have hpos := Nat.two_pow_pos (b - 1)
  have hzeros : leadingZeros (h <<< b.toUInt64 ||| 1 <<< (b - 1).toUInt64) ≤ 64 - b := by
    have hlog := (Nat.le_log2 (by omega)).mpr hle
    unfold leadingZeros
    split
    · next hz => simp [hz] at hle
    · omega
  unfold rankOf
  generalize leadingZeros (h <<< b.toUInt64 ||| 1 <<< (b - 1).toUInt64) = n at hzeros
  have hn : (n.toUInt8 + 1).toNat = n + 1 := by
    rw [UInt8.toNat_add]
    simp
    omega
  rw [hn]
  omega

end Ranks

namespace HyperLogLog

/-- What register `i` holds after `keys`: the highest rank of the keys in its bucket, if any. -/
structure Registers (H : Hasher) (b : Nat) (keys : List (List UInt8)) (s : HyperLogLog) : Prop where
  bits : s.bucketBits = b
  upper : ∀ key ∈ keys, rankOf b (H.plain key) ≤ s.buckets.getD (bucketOf b (H.plain key)) 0
  attained : ∀ i, s.buckets.getD i 0 ≠ 0 →
    ∃ key ∈ keys, bucketOf b (H.plain key) = i ∧ s.buckets.getD i 0 = rankOf b (H.plain key)

section Registers
variable {H : Hasher} {b : Nat} {keys keys' : List (List UInt8)} {s s' : HyperLogLog}

theorem getD_add (H : Hasher) (s : HyperLogLog) (key : List UInt8) (i : Nat) :
    (s.add H key).buckets.getD i 0 =
    if i = bucketOf s.bucketBits (H.plain key) ∧ s.buckets.getD i 0 < rankOf s.bucketBits (H.plain key)
      then rankOf s.bucketBits (H.plain key) else s.buckets.getD i 0 := by
  have hlt : bucketOf s.bucketBits (H.plain key) < s.buckets.length := by
    rw [s.sized]
    exact bucketOf_lt s.bits _
  rw [buckets_add]
  generalize bucketOf s.bucketBits (H.plain key) = bucket at hlt ⊢
  by_cases hi : i = bucket
  · subst hi
    by_cases h : s.buckets.getD i 0 < rankOf s.bucketBits (H.plain key)
    · rw [if_pos h, if_pos ⟨rfl, h⟩]
      simp [List.getD_eq_getElem?_getD, hlt]
    · rw [if_neg h, if_neg fun hc => h hc.2]
  · rw [if_neg (c := i = bucket ∧ _) fun hc => hi hc.1]
    split
    · simp [List.getD_eq_getElem?_getD, List.getElem?_set_ne (Ne.symm hi)]
    · rfl

/-- Adding a key lowers no register. -/
theorem le_getD_add (H : Hasher) (s : HyperLogLog) (key : List UInt8) (i : Nat) :
    s.buckets.getD i 0 ≤ (s.add H key).buckets.getD i 0 := by
  rw [getD_add]
  split
  · next h => exact UInt8.le_of_lt h.2
  · exact UInt8.le_refl _

theorem registers_new (H : Hasher) (b : Nat) (bits : 1 ≤ b ∧ b ≤ 63) : Registers H b []
    (new b bits) where
  bits := rfl
  upper := by simp
  attained i hi := absurd (buckets_new b bits i) hi

/-- The step lemma of the registers. -/
theorem Registers.add (h : Registers H b keys s) (key : List UInt8) : Registers H b (keys ++ [key])
    (s.add H key) := by
  have hget := getD_add H s key
  rw [h.bits] at hget
  refine ⟨add_bucketBits.trans h.bits, fun key' hk => ?_, fun i hi => ?_⟩
  · obtain hold | hnew := List.mem_append.mp hk
    · exact UInt8.le_trans (h.upper key' hold) (le_getD_add H s key _)
    · obtain rfl := List.mem_singleton.mp hnew
      rw [hget]
      split
      · exact UInt8.le_refl _
      · next hn => exact UInt8.not_lt.mp fun hlt => hn ⟨rfl, hlt⟩
  · rw [hget] at hi ⊢
    split
    · next hraised => exact ⟨key, List.mem_append_right _ (List.mem_singleton_self key), hraised.1.symm, rfl⟩
    · next hkept =>
      rw [if_neg hkept] at hi
      obtain ⟨key', hm, hb, he⟩ := h.attained i hi
      exact ⟨key', List.mem_append_left _ hm, hb, he⟩

/-- The run lemma of the registers. -/
theorem registers_foldl (H : Hasher) (bits : 1 ≤ b ∧ b ≤ 63) (keys : List (List UInt8)) :
    Registers H b keys (keys.foldl (HyperLogLog.add H) (new b bits)) := by
  induction keys using List.reverseRecOn with
  | nil => exact registers_new H b bits
  | append_singleton keys key ih =>
    rw [List.foldl_append]
    exact ih.add key

theorem Registers.eq_zero (h : Registers H b keys s) {i : Nat}
    (hi : ∀ key ∈ keys, bucketOf b (H.plain key) ≠ i) : s.buckets.getD i 0 = 0 := by
  by_contra hne
  obtain ⟨key, hm, hb, _⟩ := h.attained i hne
  exact hi key hm hb

theorem Registers.attained_of_mem (h : Registers H b keys s) {key : List UInt8} (hk : key ∈ keys) :
    ∃ key' ∈ keys, bucketOf b (H.plain key') = bucketOf b (H.plain key) ∧
      s.buckets.getD (bucketOf b (H.plain key)) 0 = rankOf b (H.plain key') := by
  refine h.attained _ fun hz => rankOf_ne_zero b (H.plain key) ?_
  have hle := h.upper key hk
  rw [hz] at hle
  exact UInt8.le_zero_iff.mp hle

/-- Registers are as high as the keys make them: more keys, higher registers. -/
theorem Registers.mono (h : Registers H b keys s) (h' : Registers H b keys' s')
    (hsub : keys ⊆ keys') (i : Nat) : s.buckets.getD i 0 ≤ s'.buckets.getD i 0 := by
  by_cases hz : s.buckets.getD i 0 = 0
  · rw [hz]
    exact UInt8.zero_le
  · obtain ⟨key, hm, hb, he⟩ := h.attained i hz
    rw [he, ← hb]
    exact h'.upper key (hsub hm)

/-- Only the set of keys counts. -/
theorem Registers.unique (h : Registers H b keys s) (h' : Registers H b keys' s')
    (hset : ∀ key, key ∈ keys ↔ key ∈ keys') : s = s' := by
  have hbits : s.bucketBits = s'.bucketBits := h.bits.trans h'.bits.symm
  have hlen : s.buckets.length = s'.buckets.length := by rw [s.sized, s'.sized, hbits]
  have hbuckets : s.buckets = s'.buckets := by
    refine List.ext_getElem hlen fun i hi hi' => ?_
    have hle := h.mono h' (fun key => (hset key).mp) i
    have hge := h'.mono h (fun key => (hset key).mpr) i
    have he := UInt8.le_antisymm hle hge
    simpa [List.getD_eq_getElem?_getD, hi, hi'] using he
  rw [HyperLogLog.mk.injEq]
  exact ⟨hbuckets, hbits⟩

end Registers

section Estimate
open Finset Harmonic
variable {s s' : HyperLogLog}

def register (s : HyperLogLog) (i : Nat) : Nat := (s.buckets.getD i 0).toNat

def touched (s : HyperLogLog) : Finset Nat :=
  (range s.buckets.length).filter fun i => s.register i ≠ 0

noncomputable def alpha (m : ℝ) : ℝ := 0.7213 / (1.0 + 1.079 / m)

theorem register_eq_zero {i : Nat} : s.register i = 0 ↔ s.buckets.getD i 0 = 0 := by
  rw [register, ← UInt8.toNat_inj]
  rfl

theorem mem_touched {i : Nat} : i ∈ s.touched ↔ s.register i ≠ 0 := by
  rw [touched, mem_filter, mem_range, and_iff_right_iff_imp]
  intro hi
  by_contra hge
  exact hi (by simp [register, List.getD_eq_getElem?_getD, List.getElem?_eq_none (Nat.not_lt.mp hge)])

theorem card_touched (s : HyperLogLog) : s.touched.card = s.occupied :=
  (occupied_eq_card fun i => by rw [mem_touched, ne_eq, ne_eq, register_eq_zero]).symm

theorem touched_subset (s : HyperLogLog) : s.touched ⊆ range s.buckets.length := filter_subset _ _

theorem occupied_le (s : HyperLogLog) : s.occupied ≤ s.buckets.length := by
  rw [← card_touched]
  exact (card_le_card s.touched_subset).trans (card_range _).le

/-- The sum of the raw estimator. -/
theorem harmonic_eq_mass (s : HyperLogLog) :
    (s.buckets.map fun r => (2.0 : ℝ) ^ (-(r.toNat : ℤ))).foldl (· + ·) 0.0 =
      mass (range s.buckets.length) s.register := by
  have hlist : (s.buckets.map fun r => (2.0 : ℝ) ^ (-(r.toNat : ℤ))) =
      (List.range s.buckets.length).map fun i => weight (s.register i) := by
    refine List.ext_getElem (by simp) fun i hi _ => ?_
    simp only [List.length_map] at hi
    simp only [List.getElem_map, List.getElem_range, weight_eq, register, List.getD_eq_getElem?_getD,
      List.getElem?_eq_getElem hi, Option.getD_some]
    norm_num
  have hzero : (0.0 : ℝ) = 0 := by norm_num
  rw [hlist, hzero, ← List.sum_eq_foldl]
  rfl

theorem size_pos (s : HyperLogLog) : (0 : ℝ) < s.buckets.length := by
  have := Nat.two_pow_pos s.bucketBits
  rw [s.sized]
  exact_mod_cast this

theorem zeros_eq (s : HyperLogLog) :
    ((s.buckets.countP (· == 0) : ℕ) : ℝ) = s.buckets.length - s.occupied := by
  have := zeros_add_occupied s
  rw [eq_sub_iff_add_eq]
  exact_mod_cast this

/-- More than 90% of the buckets are untouched. -/
def Sparse (s : HyperLogLog) : Prop := (0.9 : ℝ) * s.buckets.length < s.buckets.length - s.occupied

theorem mass_register_pos (s : HyperLogLog) : 0 < mass (range s.buckets.length) s.register :=
  mass_pos (nonempty_range_iff.mpr fun h => s.size_pos.ne' (by rw [h, Nat.cast_zero]))

theorem mass_register_le (s : HyperLogLog) :
    mass (range s.buckets.length) s.register ≤ s.buckets.length - s.occupied / 2 := by
  have h := mass_le s.touched_subset (r := s.register)
    (fun i _ hi => by_contra fun hne => hi (mem_touched.mpr hne)) fun i hi => mem_touched.mp hi
  rwa [card_range, card_touched] at h

theorem sparse_iff (s : HyperLogLog) :
    Float64.lt (0.9 : ℝ) ((s.buckets.countP (· == 0) : ℕ) / (s.buckets.length : ℝ)) = true ↔ s.Sparse := by
  rw [zeros_eq, Sparse, ← lt_div_iff₀ s.size_pos]
  exact decide_eq_true_iff

open Classical in
/-- The two formulas, in terms of the touched buckets. -/
theorem estimate_eq (s : HyperLogLog) : s.estimate ℝ =
    if s.Sparse then s.buckets.length * Real.log (s.buckets.length / (s.buckets.length - s.occupied))
    else alpha s.buckets.length * s.buckets.length * s.buckets.length / mass (range s.buckets.length) s.register := by
  rw [estimate_real, zeros_eq, harmonic_eq_mass, alpha]
  refine if_congr ?_ rfl rfl
  rw [Sparse, lt_div_iff₀ s.size_pos]

/-- From four buckets on the correction factor is at least a half. -/
theorem half_le_alpha {m : ℝ} (hm : 4 ≤ m) : 1 / 2 ≤ alpha m := by
  have hle : 1.079 / m ≤ 1.079 / 4 := div_le_div_of_nonneg_left (by norm_num) (by norm_num) hm
  have hpos : 0 < 1.079 / m := by positivity
  rw [alpha, le_div_iff₀ (by linarith)]
  norm_num at hle ⊢
  linarith

section Bits
variable (hb : 2 ≤ s.bucketBits)
include hb

theorem four_le_size : (4 : ℝ) ≤ s.buckets.length := by
  have h : 2 ^ 2 ≤ 2 ^ s.bucketBits := Nat.pow_le_pow_right (by decide) hb
  rw [s.sized]
  exact_mod_cast h

/-- The raw estimator is never below half the table. -/
theorem half_size_le_raw : s.buckets.length / 2 ≤
    alpha s.buckets.length * s.buckets.length * s.buckets.length / mass (range s.buckets.length) s.register := by
  have hm := s.size_pos
  have halpha := half_le_alpha (four_le_size hb)
  have hmass : mass (range s.buckets.length) s.register ≤ s.buckets.length := by
    have := mass_register_le s
    have : (0 : ℝ) ≤ s.occupied := Nat.cast_nonneg _
    linarith
  rw [le_div_iff₀ (mass_register_pos s)]
  calc (s.buckets.length : ℝ) / 2 * mass (range s.buckets.length) s.register
      ≤ s.buckets.length / 2 * s.buckets.length := mul_le_mul_of_nonneg_left hmass (by linarith)
    _ = 1 / 2 * s.buckets.length * s.buckets.length := by ring
    _ ≤ alpha s.buckets.length * s.buckets.length * s.buckets.length :=
        mul_le_mul_of_nonneg_right (mul_le_mul_of_nonneg_right halpha hm.le) hm.le

/-- No estimate is below the number of touched buckets. -/
theorem occupied_le_estimate : (s.occupied : ℝ) ≤ s.estimate ℝ := by
  have hm := s.size_pos
  rw [estimate_eq]
  split
  · next hsparse =>
    have hle := le_linearCounting (v := s.buckets.length - s.occupied) (by unfold Sparse at hsparse; linarith) hm
    linarith
  · have halpha := half_le_alpha (four_le_size hb)
    have hk : (0 : ℝ) ≤ s.occupied := Nat.cast_nonneg _
    rw [le_div_iff₀ (mass_register_pos s)]
    calc (s.occupied : ℝ) * mass (range s.buckets.length) s.register
        ≤ s.occupied * (s.buckets.length - s.occupied / 2) :=
          mul_le_mul_of_nonneg_left (mass_register_le s) hk
      _ ≤ 1 / 2 * s.buckets.length * s.buckets.length := by
          linarith [sq_nonneg ((s.buckets.length : ℝ) - s.occupied)]
      _ ≤ alpha s.buckets.length * s.buckets.length * s.buckets.length :=
          mul_le_mul_of_nonneg_right (mul_le_mul_of_nonneg_right halpha hm.le) hm.le

/-- Higher registers, higher estimate, also where the formulas change over. -/
theorem estimate_mono (hbits : s'.bucketBits = s.bucketBits)
    (hle : ∀ i, s.register i ≤ s'.register i) : s.estimate ℝ ≤ s'.estimate ℝ := by
  have hlen : s'.buckets.length = s.buckets.length := by rw [s.sized, s'.sized, hbits]
  have hm := s.size_pos
  have hocc : (s.occupied : ℝ) ≤ s'.occupied := by
    rw [← card_touched, ← card_touched]
    refine Nat.cast_le.mpr (card_le_card fun i hi => mem_touched.mpr fun hz => ?_)
    have := hle i
    exact mem_touched.mp hi (by omega)
  by_cases hsparse : s.Sparse
  · rw [estimate_eq s, if_pos hsparse]
    unfold Sparse at hsparse
    by_cases hsparse' : s'.Sparse
    · rw [estimate_eq s', if_pos hsparse', hlen]
      unfold Sparse at hsparse'
      rw [hlen] at hsparse'
      refine mul_le_mul_of_nonneg_left (Real.log_le_log (div_pos hm (by linarith)) ?_) hm.le
      exact div_le_div_of_nonneg_left hm.le (by linarith) (by linarith)
    · -- the change from linear counting to the raw estimator
      have hraw := half_size_le_raw (s := s') (hbits ▸ hb)
      rw [estimate_eq s', if_neg hsparse']
      rw [hlen] at hraw ⊢
      have hlin := linearCounting_le (v := s.buckets.length - s.occupied) (by linarith) hm
      have hratio : (s.buckets.length - (s.buckets.length - s.occupied)) / (s.buckets.length - s.occupied : ℝ) ≤ 1 / 2 := by
        rw [div_le_iff₀ (by linarith)]
        linarith
      have := mul_le_mul_of_nonneg_left hratio hm.le
      linarith
  · have hsparse' : ¬s'.Sparse := by
      unfold Sparse at hsparse ⊢
      rw [hlen]
      linarith
    rw [estimate_eq s, estimate_eq s', if_neg hsparse, if_neg hsparse', hlen]
    have halpha := half_le_alpha (four_le_size hb)
    have hpos := mass_register_pos s'
    rw [hlen] at hpos
    exact div_le_div_of_nonneg_left (by positivity) hpos (mass_anti fun i _ => hle i)

end Bits

/-- Neither a division by zero nor the logarithm of a number that is not positive. -/
theorem estimate_checked (s : HyperLogLog) :
    s.estimate CheckedReal = CheckedReal.of (s.estimate ℝ) := by
  have hm := s.size_pos
  have hpos : 0 < 1.0 + 1.079 / (s.buckets.length : ℝ) := by positivity
  have hsum : (s.buckets.map fun r => Float64.powi (2.0 : CheckedReal) (-(r.toNat : ℤ))).foldl (· + ·) 0.0 =
      CheckedReal.of (mass (range s.buckets.length) s.register) := by
    have hmap : (s.buckets.map fun r => Float64.powi (2.0 : CheckedReal) (-(r.toNat : ℤ))) =
        (s.buckets.map fun r => (2.0 : ℝ) ^ (-(r.toNat : ℤ))).map CheckedReal.of := by
      rw [List.map_map]
      exact List.map_congr_left fun r _ => CheckedReal.of_powi (by norm_num) _
    rw [hmap, ← harmonic_eq_mass]
    exact CheckedReal.foldl_of _ _
  have hcond : Float64.lt (0.9 : CheckedReal)
      (((s.buckets.countP (· == 0) : ℕ) : CheckedReal) / (s.buckets.length : CheckedReal)) =
        Float64.lt (0.9 : ℝ) ((s.buckets.countP (· == 0) : ℕ) / (s.buckets.length : ℝ)) := by
    change Float64.lt (CheckedReal.of 0.9) (CheckedReal.of _ / CheckedReal.of _) = _
    rw [CheckedReal.of_div _ hm.ne', CheckedReal.of_lt]
  unfold estimate
  simp only [hsum, hcond]
  split
  · next hsparse =>
    have hzeros : 0 < ((s.buckets.countP (· == 0) : ℕ) : ℝ) := by
      rw [sparse_iff, Sparse, ← zeros_eq] at hsparse
      linarith
    change CheckedReal.of _ * Float64.ln (CheckedReal.of _ / CheckedReal.of _) = _
    rw [CheckedReal.of_div _ hzeros.ne', CheckedReal.of_ln (div_pos hm hzeros), CheckedReal.of_mul]
    rfl
  · change CheckedReal.of 0.7213 / (CheckedReal.of 1.0 + CheckedReal.of 1.079 / CheckedReal.of _) *
      CheckedReal.of _ * CheckedReal.of _ / CheckedReal.of _ = _
    rw [CheckedReal.of_div _ hm.ne', CheckedReal.of_add, CheckedReal.of_div _ hpos.ne', CheckedReal.of_mul,
      CheckedReal.of_mul, CheckedReal.of_div _ (mass_register_pos s).ne', ← harmonic_eq_mass]
    rfl

end Estimate

/-- The counter after `keys`. -/
def counted (H : Hasher) {b : Nat} (bits : 1 ≤ b ∧ b ≤ 63) (keys : List (List UInt8)) :
    HyperLogLog :=
  keys.foldl (HyperLogLog.add H) (new b bits)

/-- What the registers hold after `keys`, and what the estimate makes of them. -/
structure Lawful (H : Hasher) {b : Nat} (bits : 1 ≤ b ∧ b ≤ 63) (keys : List (List UInt8)) :
    Prop where
  ranks : ∀ key, 1 ≤ (rankOf b (H.plain key)).toNat ∧ (rankOf b (H.plain key)).toNat ≤ 65 - b
  empty : ∀ i < 2 ^ b, (∀ key ∈ keys, bucketOf b (H.plain key) ≠ i) → (counted H bits keys).buckets.getD i 0 = 0
  highest : ∀ i < 2 ^ b, (∃ key ∈ keys, bucketOf b (H.plain key) = i) → ∃ key ∈ keys, bucketOf b (H.plain key) = i ∧
    (counted H bits keys).buckets.getD i 0 = rankOf b (H.plain key) ∧
    ∀ key' ∈ keys, bucketOf b (H.plain key') = i → rankOf b (H.plain key') ≤ rankOf b (H.plain key)
  set_only : ∀ keys', (∀ key, key ∈ keys ↔ key ∈ keys') → counted H bits keys = counted H bits keys'
  defined : (counted H bits keys).estimate CheckedReal =
    CheckedReal.of ((counted H bits keys).estimate ℝ)
  monotone : ∀ key, (counted H bits keys).estimate ℝ ≤ ((counted H bits keys).add H key).estimate ℝ
  occupied_le : ((counted H bits keys).occupied : ℝ) ≤ (counted H bits keys).estimate ℝ

theorem hyperloglog_laws (H : Hasher) {b : Nat} (hb : 2 ≤ b) (bits : 1 ≤ b ∧ b ≤ 63)
    (keys : List (List UInt8)) : Lawful H bits keys := by
  have h : Registers H b keys (counted H bits keys) := registers_foldl H bits keys
  have hb' : 2 ≤ (counted H bits keys).bucketBits := h.bits.symm ▸ hb
  refine ⟨fun key => rankOf_bounds bits _, fun i _ hi => h.eq_zero hi, fun i _ hi => ?_, fun keys' hset => ?_,
    estimate_checked _, fun key => ?_, occupied_le_estimate hb'⟩
  · obtain ⟨key, hk, rfl⟩ := hi
    obtain ⟨key', hk', hbucket, hreg⟩ := h.attained_of_mem hk
    refine ⟨key', hk', hbucket, hreg, fun other ho hob => ?_⟩
    rw [← hreg, ← hob]
    exact h.upper other ho
  · exact h.unique (registers_foldl H bits keys') hset
  · exact estimate_mono hb' add_bucketBits fun i => UInt8.le_iff_toNat_le.mp (le_getD_add H _ key i)

/-- Two keys, one of them twice, in four buckets that their first byte chooses. -/
theorem hyperloglog_laws_two :
    Lawful ⟨fun _ _ => 0, fun key => (key.getD 0 0).toUInt64 <<< 62⟩ (b := 2) (by decide) [[1], [2], [1]] :=
  hyperloglog_laws _ le_rfl (by decide) _

end HyperLogLog

end ThreatEngine.Detection
