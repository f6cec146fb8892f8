import ThreatEngine.Detection.Anomaly
import ThreatEngine.Detection.FxCollisions
import ThreatEngine.Detection.HyperLogLogLaws

/-! The estimate for keys without collisions in 1024 buckets. Up to 102 keys
linear counting answers and stays near the truth. From 103 keys on the raw
estimator answers, which is far too high for a table that is mostly empty. -/
namespace ThreatEngine.Detection.HyperLogLog
open Finset Harmonic

section Distinct
variable {H : Hasher} {b : Nat} {keys : List (List UInt8)} {s : HyperLogLog}
    {S : Finset (List UInt8)}

/-- The ranks of the keys, weighed as the raw estimator weighs registers. -/
noncomputable def rankMass (H : Hasher) (b : Nat) (S : Finset (List UInt8)) : ℝ :=
  mass S fun key => (rankOf b (H.plain key)).toNat

theorem touched_of_keys (h : Registers H b keys s) (hkeys : ∀ key, key ∈ keys ↔ key ∈ S) :
    s.touched = S.image fun key => bucketOf b (H.plain key) := by
  ext i
  rw [mem_touched, ne_eq, register_eq_zero, mem_image]
  constructor
  · intro hi
    obtain ⟨key, hk, hb, _⟩ := h.attained i hi
    exact ⟨key, (hkeys key).mp hk, hb⟩
  · rintro ⟨key, hk, rfl⟩ hz
    obtain ⟨key', _, _, he⟩ := h.attained_of_mem ((hkeys key).mpr hk)
    exact rankOf_ne_zero b _ (he.symm.trans hz)

variable (hinj : Set.InjOn (fun key => bucketOf b (H.plain key)) S)
include hinj

theorem occupied_of_keys (h : Registers H b keys s) (hkeys : ∀ key, key ∈ keys ↔ key ∈ S) :
    s.occupied = S.card := by
  rw [← card_touched, touched_of_keys h hkeys, card_image_of_injOn hinj]

/-- Without collisions every key has its register to itself. -/
theorem mass_of_keys (h : Registers H b keys s) (hkeys : ∀ key, key ∈ keys ↔ key ∈ S) :
    mass (range s.buckets.length) s.register = s.buckets.length - S.card + rankMass H b S := by
  have hreg : ∀ key ∈ S, s.register (bucketOf b (H.plain key)) = (rankOf b (H.plain key)).toNat := by
    intro key hk
    obtain ⟨key', hk', hb, he⟩ := h.attained_of_mem ((hkeys key).mpr hk)
    rw [register, he, hinj ((hkeys key').mp hk') hk hb]
  rw [mass_split s.touched_subset fun i _ hi => by_contra fun hne => hi (mem_touched.mpr hne), card_range,
    card_touched, occupied_of_keys hinj h hkeys, touched_of_keys h hkeys, mass_image hinj hreg]
  rfl

end Distinct

section Switch
variable {H : Hasher} {keys : List (List UInt8)} {s : HyperLogLog} {S : Finset (List UInt8)}

theorem rankMass_le (H : Hasher) {b : Nat} (S : Finset (List UInt8)) :
    rankMass H b S ≤ S.card / 2 := by
  have hle : rankMass H b S ≤ S.card * (1 / 2) := by
    rw [← nsmul_eq_mul]
    refine sum_le_card_nsmul S _ _ fun key _ => weight_le_half fun hz => ?_
    exact rankOf_ne_zero b (H.plain key) (UInt8.toNat_inj.mp hz)
  linarith

theorem alpha_bounds :
    (755541 : ℝ) ≤ alpha 1024 * 1024 * 1024 ∧ alpha 1024 * 1024 * 1024 ≤ 755542 := by
  unfold alpha
  norm_num

/-- The estimate is at most twice the count for a sparse table, and otherwise
only when the ranks are low enough, which takes 483 keys or more. -/
theorem le_twice_iff (h : Registers H 10 keys s) (hkeys : ∀ key, key ∈ keys ↔ key ∈ S)
    (hinj : Set.InjOn (fun key => bucketOf 10 (H.plain key)) S) :
    s.estimate ℝ ≤ 2 * S.card ↔ S.card ≤ 102 ∨
      483 ≤ S.card ∧ alpha 1024 * 1024 * 1024 ≤ 2 * S.card * (1024 - S.card + rankMass H 10 S) := by
  have hlen : s.buckets.length = 1024 := by
    rw [s.sized, h.bits]
    rfl
  have hocc := occupied_of_keys hinj h hkeys
  have hmass := mass_of_keys hinj h hkeys
  have hpos := mass_register_pos s
  rw [estimate_eq, Sparse, hmass, hlen, hocc]
  rw [hmass, hlen] at hpos
  push_cast at hpos ⊢
  split
  · next hsparse =>
    have hk : S.card ≤ 102 := by
      by_contra hgt
      have : (103 : ℝ) ≤ S.card := by exact_mod_cast Nat.not_le.mp hgt
      linarith
    have hk' : (S.card : ℝ) ≤ 102 := by exact_mod_cast hk
    refine iff_of_true ?_ (Or.inl hk)
    have hlin := linearCounting_le (v := 1024 - (S.card : ℝ)) (by linarith) (by norm_num : (0 : ℝ) < 1024)
    have hratio : (1024 - (1024 - (S.card : ℝ))) / (1024 - S.card) ≤ S.card / 922 := by
      rw [sub_sub_cancel]
      exact div_le_div_of_nonneg_left (Nat.cast_nonneg _) (by norm_num) (by linarith)
    have := Nat.cast_nonneg (α := ℝ) S.card
    linarith
  · next hdense =>
    have hk : ¬S.card ≤ 102 := by
      intro hle
      have : (S.card : ℝ) ≤ 102 := by exact_mod_cast hle
      linarith
    rw [div_le_iff₀ hpos, or_iff_right hk]
    refine ⟨fun hle => ⟨?_, hle⟩, And.right⟩
    -- with ranks of one, `2 k (1024 - k / 2)` passes the constant between 482 and 483 keys
    by_contra hlt
    have hk' : (S.card : ℝ) ≤ 482 := by exact_mod_cast Nat.lt_succ_iff.mp (Nat.not_le.mp hlt)
    have hrank := mul_le_mul_of_nonneg_left (rankMass_le H (b := 10) S) (Nat.cast_nonneg (α := ℝ) S.card)
    have hprod : 0 ≤ (482 - (S.card : ℝ)) * (1566 - S.card) :=
      mul_nonneg (by linarith) (by linarith)
    linarith [alpha_bounds.1]

/-- For keys in different buckets the estimate lies between their number and
twice that up to 102 keys; from 103 to 482 it never does, and from 483 on it
does when the keys' ranks are low enough. -/
theorem within_twice_iff (H : Hasher) (S : Finset (List UInt8))
    (hinj : Set.InjOn (fun key => bucketOf 10 (H.plain key)) S) (keys : List (List UInt8))
    (hkeys : ∀ key, key ∈ keys ↔ key ∈ S) :
    (S.card : ℝ) ≤ (counted H (by decide : 1 ≤ 10 ∧ 10 ≤ 63) keys).estimate ℝ ∧
        (counted H (by decide : 1 ≤ 10 ∧ 10 ≤ 63) keys).estimate ℝ ≤ 2 * S.card ↔
      S.card ≤ 102 ∨ 483 ≤ S.card ∧
        alpha 1024 * 1024 * 1024 ≤ 2 * S.card * (1024 - S.card + rankMass H 10 S) := by
  have h : Registers H 10 keys (counted H (by decide : 1 ≤ 10 ∧ 10 ≤ 63) keys) :=
    registers_foldl H _ keys
  have hlow := occupied_le_estimate (s := counted H (by decide : 1 ≤ 10 ∧ 10 ≤ 63) keys) (by rw [h.bits]; decide)
  rw [occupied_of_keys hinj h hkeys] at hlow
  rw [← le_twice_iff h hkeys hinj]
  exact ⟨And.right, fun hle => ⟨hlow, hle⟩⟩

/-- The ports 0 to 102, as the detector adds them. -/
def firstPorts : List (List UInt8) :=
  (List.range 103).map fun port => WindowedAnomalyDetector.portBytes port.toUInt16

theorem firstPorts_buckets :
    (firstPorts.map fun key => bucketOf 10 (fxWord.plain key)).Nodup := by decide +kernel

theorem firstPorts_inj :
    Set.InjOn (fun key => bucketOf 10 (fxWord.plain key)) firstPorts.toFinset :=
  fun _ hk _ hk' he => List.inj_on_of_nodup_map firstPorts_buckets (List.mem_toFinset.mp hk) (List.mem_toFinset.mp hk') he

theorem card_firstPorts : firstPorts.toFinset.card = 103 :=
  (List.toFinset_card_of_nodup firstPorts_buckets.of_map).trans rfl

theorem within_twice_iff_firstPorts :
    (firstPorts.toFinset.card : ℝ) ≤ (counted fxWord (by decide : 1 ≤ 10 ∧ 10 ≤ 63) firstPorts).estimate ℝ ∧
        (counted fxWord (by decide : 1 ≤ 10 ∧ 10 ≤ 63) firstPorts).estimate ℝ ≤ 2 * firstPorts.toFinset.card ↔
      firstPorts.toFinset.card ≤ 102 ∨ 483 ≤ firstPorts.toFinset.card ∧ alpha 1024 * 1024 * 1024 ≤
        2 * firstPorts.toFinset.card * (1024 - firstPorts.toFinset.card + rankMass fxWord 10 firstPorts.toFinset) :=
  within_twice_iff fxWord _ firstPorts_inj firstPorts fun _ => List.mem_toFinset.symm

/-- FxHash sends the first 103 ports to 103 buckets, and the estimate is above 776. -/
theorem not_within_twice :
    Set.InjOn (fun key => bucketOf 10 (fxWord.plain key)) firstPorts.toFinset ∧
    firstPorts.toFinset.card = 103 ∧
    776 < (counted fxWord (by decide : 1 ≤ 10 ∧ 10 ≤ 63) firstPorts).estimate ℝ := by
  refine ⟨firstPorts_inj, card_firstPorts, ?_⟩
  have h : Registers fxWord 10 firstPorts (counted fxWord (by decide : 1 ≤ 10 ∧ 10 ≤ 63) firstPorts) :=
    registers_foldl fxWord _ firstPorts
  generalize counted fxWord (by decide : 1 ≤ 10 ∧ 10 ≤ 63) firstPorts = s at h
  have hlen : s.buckets.length = 1024 := by
    rw [s.sized, h.bits]
    rfl
  have hocc : s.occupied = 103 :=
    (occupied_of_keys firstPorts_inj h fun _ => List.mem_toFinset.symm).trans card_firstPorts
  have hmass := mass_register_le s
  have hpos := mass_register_pos s
  rw [estimate_eq, Sparse, hlen, hocc, if_neg (by norm_num)]
  rw [hlen, hocc] at hmass
  rw [hlen] at hpos
  push_cast at hmass ⊢
  rw [lt_div_iff₀ hpos]
  linarith [alpha_bounds.1]

end Switch

end ThreatEngine.Detection.HyperLogLog
