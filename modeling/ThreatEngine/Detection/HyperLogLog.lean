import Mathlib.Analysis.SpecialFunctions.Log.Basic
import Mathlib.Data.Nat.Count
import ThreatEngine.Detection.CountMin

/-! The HyperLogLog counter of `anomaly.rs`. Its floating point operations are a
parameter, with exact real arithmetic as the instance that theorems are about. -/
namespace ThreatEngine.Detection

/-- The operations of `f64` that the detector uses. `text` is the format `{:.0}`. -/
class Float64 (F : Type) extends Add F, Mul F, Div F, NatCast F, OfScientific F where
  ln : F → F
  powi : F → Int → F
  lt : F → F → Bool
  le : F → F → Bool
  text : F → String

/-- The nearest integer, ties to even. -/
noncomputable def roundTiesEven (x : ℝ) : ℤ :=
  if Int.fract x = 1 / 2 then (if Even ⌊x⌋ then ⌊x⌋ else ⌊x⌋ + 1) else round x

open Classical in
noncomputable instance : Float64 ℝ where
  ln := Real.log
  powi x n := x ^ n
  lt x y := decide (x < y)
  le x y := decide (x ≤ y)
  text x := toString (roundTiesEven x)

/-- Rational arithmetic with the first approximant of the logarithm around one. -/
def Approximate : Type := Rat

instance : Float64 Approximate where
  add := Rat.add
  mul := Rat.mul
  div := Rat.div
  natCast n := (n : Rat)
  ofScientific m s e := (OfScientific.ofScientific m s e : Rat)
  ln (x : Rat) := 2 * (x - 1) / (x + 1)
  powi (x : Rat) n := x.zpow n
  lt (x : Rat) y := x.blt y
  le (x : Rat) y := !Rat.blt y x
  text (x : Rat) := toString x.floor

/-- Arithmetic in which every comparison has the same outcome. -/
def Constant (_ : Bool) : Type := Unit

instance (b : Bool) : Float64 (Constant b) where
  add _ _ := ()
  mul _ _ := ()
  div _ _ := ()
  natCast _ := ()
  ofScientific _ _ _ := ()
  ln _ := ()
  powi _ _ := ()
  lt _ _ := b
  le _ _ := b
  text _ := ""

structure HyperLogLog where
  buckets : List UInt8
  bucketBits : Nat
  bits : 1 ≤ bucketBits ∧ bucketBits ≤ 63
  sized : buckets.length = 2 ^ bucketBits

def leadingZeros (x : UInt64) : Nat := if x = 0 then 64 else 63 - x.toNat.log2

/-- The bucket of a hash: its highest bits. -/
def bucketOf (bucketBits : Nat) (h : UInt64) : Nat := (h >>> (64 - bucketBits).toUInt64).toNat

/-- One more than the leading zeros of the other bits, which are never all zero. -/
def rankOf (bucketBits : Nat) (h : UInt64) : UInt8 :=
  (leadingZeros (h <<< bucketBits.toUInt64 ||| 1 <<< (bucketBits - 1).toUInt64)).toUInt8 + 1

namespace HyperLogLog

def new (bucketBits : Nat) (bits : 1 ≤ bucketBits ∧ bucketBits ≤ 63) : HyperLogLog where
  buckets := List.replicate (2 ^ bucketBits) 0
  bucketBits := bucketBits
  bits := bits
  sized := List.length_replicate

def add (H : Hasher) (s : HyperLogLog) (key : List UInt8) : HyperLogLog :=
  let h := H.plain key
  if s.buckets.getD (bucketOf s.bucketBits h) 0 < rankOf s.bucketBits h then
    { s with
      buckets := s.buckets.set (bucketOf s.bucketBits h) (rankOf s.bucketBits h)
      sized := by simpa using s.sized }
  else s

def estimate (F : Type) [Float64 F] (s : HyperLogLog) : F :=
  let m : F := (s.buckets.length : F)
  let zeroBuckets : F := ((s.buckets.countP (· == 0) : Nat) : F)
  if Float64.lt 0.9 (zeroBuckets / m) then m * Float64.ln (m / zeroBuckets)
  else
    let alpha : F := 0.7213 / (1.0 + 1.079 / m)
    let sum : F := (s.buckets.map fun r => Float64.powi (2.0 : F) (-(r.toNat : Int))).foldl (· + ·) 0.0
    alpha * m * m / sum

/-- How many buckets have been touched. -/
def occupied (s : HyperLogLog) : Nat := s.buckets.countP (· != 0)

variable {s : HyperLogLog} {H : Hasher} {key : List UInt8}

theorem toNat_toUInt64_sub {b : Nat} (h : 1 ≤ b) : (64 - b).toUInt64.toNat = 64 - b := by
  simp
  omega

theorem bucketOf_lt {b : Nat} (hb : 1 ≤ b ∧ b ≤ 63) (h : UInt64) : bucketOf b h < 2 ^ b := by
  have hlt := h.toNat_lt
  have hsplit : 2 ^ 64 = 2 ^ (64 - b) * 2 ^ b := by
    rw [← pow_add]
    congr 1
    omega
  rw [bucketOf, UInt64.toNat_shiftRight, toNat_toUInt64_sub hb.1, Nat.shiftRight_eq_div_pow,
    Nat.mod_eq_of_lt (by omega)]
  exact Nat.div_lt_of_lt_mul (hsplit ▸ hlt)

theorem leadingZeros_le (x : UInt64) : leadingZeros x ≤ 64 := by
  unfold leadingZeros
  split <;> omega

theorem rankOf_ne_zero (b : Nat) (h : UInt64) : rankOf b h ≠ 0 := by
  unfold rankOf
  have hle := leadingZeros_le (h <<< b.toUInt64 ||| 1 <<< (b - 1).toUInt64)
  generalize leadingZeros (h <<< b.toUInt64 ||| 1 <<< (b - 1).toUInt64) = n at hle
  intro hz
  have hz := congrArg UInt8.toNat hz
  simp [UInt8.toNat_add] at hz
  omega

theorem buckets_new (b : Nat) (bits : 1 ≤ b ∧ b ≤ 63) (i : Nat) :
    (new b bits).buckets.getD i 0 = 0 := by
  rw [new, List.getD_eq_getElem?_getD, List.getElem?_replicate]
  split <;> rfl

@[simp] theorem add_bucketBits : (s.add H key).bucketBits = s.bucketBits := by
  unfold add
  simp only []
  split <;> rfl

theorem buckets_add : (s.add H key).buckets =
    if s.buckets.getD (bucketOf s.bucketBits (H.plain key)) 0 < rankOf s.bucketBits (H.plain key) then
      s.buckets.set (bucketOf s.bucketBits (H.plain key)) (rankOf s.bucketBits (H.plain key))
    else s.buckets := by
  simp only [add]
  split <;> rfl

/-- The touched buckets after an `add`: those before it and the key's own. -/
theorem touched_add (i : Nat) : (s.add H key).buckets.getD i 0 ≠ 0 ↔
    s.buckets.getD i 0 ≠ 0 ∨ i = bucketOf s.bucketBits (H.plain key) := by
  have hlt : bucketOf s.bucketBits (H.plain key) < s.buckets.length := by
    rw [s.sized]
    exact bucketOf_lt s.bits _
  have hrank := rankOf_ne_zero s.bucketBits (H.plain key)
  rw [buckets_add]
  generalize bucketOf s.bucketBits (H.plain key) = bucket at hlt ⊢
  generalize rankOf s.bucketBits (H.plain key) = rank at hrank ⊢
  split
  · by_cases hi : i = bucket
    · subst hi
      simp [List.getD_eq_getElem?_getD, hlt, hrank]
    · simp [List.getD_eq_getElem?_getD, List.getElem?_set_ne (Ne.symm hi), hi]
  · next hle =>
    refine ⟨Or.inl, fun h => h.elim id fun hi => ?_⟩
    subst hi
    intro hz
    rw [hz] at hle
    exact hle (UInt8.pos_iff_ne_zero.mpr hrank)

theorem occupied_eq_card {B : Finset Nat} (h : ∀ i, s.buckets.getD i 0 ≠ 0 ↔ i ∈ B) :
    s.occupied = B.card := by
  have hlist : s.buckets = (List.range s.buckets.length).map fun i => s.buckets.getD i 0 :=
    List.ext_getElem (by simp) fun i hi _ => by simp [List.getD_eq_getElem?_getD, hi]
  have hB : (Finset.range s.buckets.length).filter (fun i => s.buckets.getD i 0 ≠ 0) = B := by
    ext i
    rw [Finset.mem_filter, h i, Finset.mem_range, and_iff_right_iff_imp]
    intro hi
    by_contra hge
    exact (h i).mpr hi (by simp [List.getD_eq_getElem?_getD, List.getElem?_eq_none (Nat.not_lt.mp hge)])
  rw [occupied, hlist, List.countP_map, ← hB, ← Nat.count_eq_card_filter_range, Nat.count]
  congr 1
  funext i
  rw [Bool.eq_iff_iff]
  simp

theorem zeros_add_occupied (s : HyperLogLog) :
    s.buckets.countP (· == 0) + s.occupied = s.buckets.length := by
  rw [occupied, List.length_eq_countP_add_countP (· == 0)]
  congr 1
  refine List.countP_congr fun r _ => ?_
  simp

section Real

/-- The estimate over the reals, in the notation of the reals. -/
theorem estimate_real (s : HyperLogLog) : s.estimate ℝ =
    if (0.9 : ℝ) < (s.buckets.countP (· == 0) : ℕ) / (s.buckets.length : ℝ) then
      s.buckets.length * Real.log (s.buckets.length / (s.buckets.countP (· == 0) : ℕ))
    else 0.7213 / (1.0 + 1.079 / s.buckets.length) * s.buckets.length * s.buckets.length /
      (s.buckets.map fun r => (2.0 : ℝ) ^ (-(r.toNat : ℤ))).foldl (· + ·) 0.0 := by
  simp only [estimate, Float64.lt, decide_eq_true_eq]
  rfl

/-- Linear counting is at least the number of touched buckets, by `1 - 1 / x ≤ log x`. -/
theorem le_linearCounting {m v : ℝ} (hv : 0 < v) (hm : 0 < m) : m - v ≤ m * Real.log (m / v) := by
  have hlog := Real.one_sub_inv_le_log_of_pos (div_pos hm hv)
  rw [inv_div] at hlog
  calc m - v = m * (1 - v / m) := by field_simp
    _ ≤ m * Real.log (m / v) := mul_le_mul_of_nonneg_left hlog hm.le

/-- And at most `m / v` times it, by `log x ≤ x - 1`. -/
theorem linearCounting_le {m v : ℝ} (hv : 0 < v) (hm : 0 < m) :
    m * Real.log (m / v) ≤ m * ((m - v) / v) := by
  have hlog := Real.log_le_sub_one_of_pos (div_pos hm hv)
  have hsub : m / v - 1 = (m - v) / v := by field_simp
  exact mul_le_mul_of_nonneg_left (hsub ▸ hlog) hm.le

/-- Each bucket adds something to the harmonic sum, and at most one. -/
theorem harmonic_bounds (l : List UInt8) (x : ℝ) :
    x ≤ (l.map fun r => (2.0 : ℝ) ^ (-(r.toNat : ℤ))).foldl (· + ·) x ∧
      (l.map fun r => (2.0 : ℝ) ^ (-(r.toNat : ℤ))).foldl (· + ·) x ≤ x + l.length ∧
      (l ≠ [] → x < (l.map fun r => (2.0 : ℝ) ^ (-(r.toNat : ℤ))).foldl (· + ·) x) := by
  induction l generalizing x with
  | nil => simp
  | cons r l ih =>
    have hpos : (0 : ℝ) < (2.0 : ℝ) ^ (-(r.toNat : ℤ)) := by positivity
    have hle : (2.0 : ℝ) ^ (-(r.toNat : ℤ)) ≤ 1 :=
      zpow_le_one_of_nonpos₀ (by norm_num) (by omega)
    obtain ⟨hlow, hup, _⟩ := ih (x + (2.0 : ℝ) ^ (-(r.toNat : ℤ)))
    rw [List.map_cons, List.foldl_cons, List.length_cons]
    push_cast
    exact ⟨by linarith, by linarith, fun _ => by linarith⟩

/-- With more than 90% of 1024 buckets empty, linear counting reaches 25 at 25 touched ones. -/
theorem linear_threshold {v : ℕ} (hv : (921.6 : ℝ) < v) :
    (25.0 : ℝ) ≤ 1024 * Real.log (1024 / (v : ℝ)) ↔ v ≤ 999 := by
  have hpos : (0 : ℝ) < v := by linarith
  constructor
  · intro h
    by_contra hlt
    have hge : (1000 : ℝ) ≤ v := by exact_mod_cast Nat.not_le.mp hlt
    have hratio : (1024 - (v : ℝ)) / v ≤ 0.024 := by
      rw [div_le_iff₀ hpos]
      linarith
    have := linearCounting_le hpos (by norm_num : (0 : ℝ) < 1024)
    linarith
  · intro h
    have hle : (v : ℝ) ≤ 999 := by exact_mod_cast h
    have := le_linearCounting hpos (by norm_num : (0 : ℝ) < 1024)
    linarith

/-- The raw estimate of 1024 buckets is above 25, as their harmonic sum is at most 1024. -/
theorem harmonic_threshold {l : List UInt8} (hl : l.length = 1024) :
    (25.0 : ℝ) ≤ 0.7213 / (1.0 + 1.079 / (1024 : ℝ)) * 1024 * 1024 /
      (l.map fun r => (2.0 : ℝ) ^ (-(r.toNat : ℤ))).foldl (· + ·) 0.0 := by
  have hne : l ≠ [] := List.ne_nil_of_length_pos (by omega)
  obtain ⟨_, hup, hlow⟩ := harmonic_bounds l 0.0
  have hsum := hlow hne
  rw [hl] at hup
  push_cast at hup
  rw [le_div_iff₀ (by linarith)]
  norm_num at hup ⊢
  linarith

/-- The threshold: with 1024 buckets the estimate reaches 25 exactly when 25 of
them have been touched, whichever of the two formulas answers. -/
theorem threshold_iff {s : HyperLogLog} (hb : s.bucketBits = 10) :
    (25.0 : ℝ) ≤ s.estimate ℝ ↔ 25 ≤ s.occupied := by
  have hlen : s.buckets.length = 1024 := by rw [s.sized, hb]; rfl
  have hsum := zeros_add_occupied s
  rw [estimate_real, hlen]
  rw [hlen] at hsum
  generalize s.buckets.countP (· == 0) = v at hsum
  push_cast
  split
  · next hsparse =>
    have hv : (921.6 : ℝ) < v := by
      linarith [(lt_div_iff₀ (by norm_num : (0 : ℝ) < 1024)).mp hsparse]
    rw [linear_threshold hv]
    omega
  · next hdense =>
    -- at least 103 buckets have been touched
    have hle : v ≤ 921 := by
      by_contra hgt
      have hge : (922 : ℝ) ≤ v := by exact_mod_cast Nat.not_le.mp hgt
      have hratio := not_lt.mp hdense
      rw [div_le_iff₀ (by norm_num)] at hratio
      linarith
    exact iff_of_true (harmonic_threshold hlen) (by omega)

end Real

end HyperLogLog

end ThreatEngine.Detection
