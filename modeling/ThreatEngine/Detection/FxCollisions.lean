import Mathlib.Data.Nat.ModEq
import Mathlib.Data.Nat.Bitwise
import ThreatEngine.Detection.CountMin

/-! The rows of the sketch under FxHash. The low bits of a product by an odd
constant depend on the low bits of the factor only, so with a width of `2 ^ 11`
two keys share their cells in every row or in none. -/
namespace ThreatEngine.Detection

def rotateLeft5 (h : UInt64) : UInt64 := (h <<< 5) ||| (h >>> 59)

/-- How FxHash takes in one word. -/
def fxAbsorb (h x : UInt64) : UInt64 := (rotateLeft5 h ^^^ x) * 0x517cc1b727220a95

/-- The bytes as a little-endian number. -/
def littleEndian (bytes : List UInt8) : UInt64 :=
  bytes.foldr (fun b w => w * 256 + b.toUInt64) 0

def nativeWord (bigEndian : Bool) (bytes : List UInt8) : UInt64 :=
  littleEndian (if bigEndian then bytes.reverse else bytes)

/-- What is assumed of FxHash: a seed and then a slice of four bytes are taken in
as the seed, the length, and the bytes as one native-endian word. -/
structure FxHashed (bigEndian : Bool) (H : Hasher) : Prop where
  seeded : ∀ seed key, key.length = 4 →
    H.seeded seed key = fxAbsorb (fxAbsorb (fxAbsorb 0 seed) 4) (nativeWord bigEndian key)

/-- The sketch of the detector, of any depth, after increments for these sources. -/
def countedSources (H : Hasher) (depth : Nat) (stream : List UInt32) : CountMinSketch :=
  (stream.map octets).foldl (CountMinSketch.increment H) (.new 2048 depth)

/-- Some stream and some source make the estimate strictly better than row `row`. -/
def RowImprovable (H : Hasher) (depth row : Nat) : Prop :=
  ∃ (stream : List UInt32) (ip : UInt32),
    (countedSources H depth stream).estimate H (octets ip) <
      (countedSources H depth stream).cell row ((countedSources H depth stream).hash H (octets ip) row)

theorem mul_odd_mod_eq_iff {k a b : Nat} (hk : Nat.Coprime (2 ^ 11) k) :
    a * k % 2 ^ 11 = b * k % 2 ^ 11 ↔ a % 2 ^ 11 = b % 2 ^ 11 :=
  ⟨fun h => Nat.ModEq.cancel_right_of_coprime hk h, fun h => Nat.ModEq.mul_right k h⟩

theorem xor_mod_eq_iff {a x y : Nat} :
    (a ^^^ x) % 2 ^ 11 = (a ^^^ y) % 2 ^ 11 ↔ x % 2 ^ 11 = y % 2 ^ 11 := by
  rw [Nat.xor_mod_two_pow, Nat.xor_mod_two_pow]
  exact (Nat.xor_right_injective).eq_iff

/-- Two words taken in by the same state agree in their low bits afterwards
exactly when they did before. -/
theorem fxAbsorb_low_iff (h x y : UInt64) :
    (fxAbsorb h x).toNat % 2048 = (fxAbsorb h y).toNat % 2048 ↔ x.toNat % 2048 = y.toNat % 2048 := by
  have hlow (x : UInt64) : (fxAbsorb h x).toNat % 2 ^ 11 =
      ((rotateLeft5 h).toNat ^^^ x.toNat) * 0x517cc1b727220a95 % 2 ^ 11 := by
    rw [fxAbsorb, UInt64.toNat_mul, Nat.mod_mod_of_dvd _ (by decide), UInt64.toNat_xor]
    rfl
  change _ % 2 ^ 11 = _ % 2 ^ 11 ↔ _ % 2 ^ 11 = _ % 2 ^ 11
  rw [hlow, hlow, mul_odd_mod_eq_iff (by decide), xor_mod_eq_iff]

section Rows
variable {bigEndian : Bool} {H : Hasher} {depth : Nat} {stream : List UInt32}

theorem hash_eq_iff (hH : FxHashed bigEndian H) {s : CountMinSketch} (hw : s.width = 2048)
    (row : Nat) (ip ip' : UInt32) : s.hash H (octets ip) row = s.hash H (octets ip') row ↔
      (nativeWord bigEndian (octets ip)).toNat % 2048 = (nativeWord bigEndian (octets ip')).toNat % 2048 := by
  rw [CountMinSketch.hash, CountMinSketch.hash, hw, hH.seeded _ _ rfl, hH.seeded _ _ rfl]
  exact fxAbsorb_low_iff _ _ _

@[simp] theorem countedSources_depth : (countedSources H depth stream).depth = depth :=
  CountMinSketch.foldl_increment_depth _ _

@[simp] theorem countedSources_width : (countedSources H depth stream).width = 2048 :=
  CountMinSketch.foldl_increment_width _ _

/-- A source's cell in any row counts the sources with the same low bits. -/
theorem toNat_cell (hH : FxHashed bigEndian H) (ip : UInt32) {row : Nat} (hrow : row < depth) :
    ((countedSources H depth stream).cell row
      ((countedSources H depth stream).hash H (octets ip) row)).toNat =
        min (2 ^ 32 - 1) (stream.countP fun ip' => (nativeWord bigEndian (octets ip')).toNat % 2048 ==
          (nativeWord bigEndian (octets ip)).toNat % 2048) := by
  have hcounts : (countedSources H depth stream).Counts H (stream.map octets) :=
    CountMinSketch.counts_foldl H 2048 depth _
  have hlt := CountMinSketch.hash_lt (s := countedSources H depth stream) H (octets ip) row (by simp)
  rw [hcounts row _ (by simpa using hrow) hlt, List.countP_map]
  congr 1
  refine List.countP_congr fun ip' _ => ?_
  simp only [Function.comp_apply, beq_iff_eq]
  exact hash_eq_iff hH countedSources_width row ip' ip

/-- No row is made better by the others: whatever is counted and queried, all
rows read the same. -/
theorem estimate_eq_cell (hH : FxHashed bigEndian H) (ip : UInt32) {row : Nat}
    (hrow : row < depth) : (countedSources H depth stream).estimate H (octets ip) =
      (countedSources H depth stream).cell row
        ((countedSources H depth stream).hash H (octets ip) row) := by
  have hd : 0 < (countedSources H depth stream).depth := by
    rw [countedSources_depth]
    omega
  obtain ⟨row', hrow', he⟩ := (CountMinSketch.estimate_spec H (octets ip) hd).1
  rw [countedSources_depth] at hrow'
  rw [he]
  apply UInt32.toNat_inj.mp
  rw [toNat_cell hH ip hrow, toNat_cell hH ip hrow']

/-- At no depth does any row gain from the others. -/
theorem depth_buys_nothing (hH : FxHashed bigEndian H) {row : Nat} (hrow : row < depth) :
    ¬ RowImprovable H depth row := by
  intro ⟨stream, ip, hlt⟩
  rw [estimate_eq_cell hH ip hrow] at hlt
  exact absurd hlt (UInt32.lt_irrefl _)

end Rows

/-- FxHash on a little-endian target, for slices of four bytes. -/
def fxLittle : Hasher where
  seeded seed key := fxAbsorb (fxAbsorb (fxAbsorb 0 seed) 4) (nativeWord false key)
  plain key := fxAbsorb (fxAbsorb 0 4) (nativeWord false key)

theorem fxHashed_fxLittle : FxHashed false fxLittle := ⟨fun _ _ _ => rfl⟩

/-- FxHash on a little-endian target, for slices of one, two, four or eight bytes:
the length is taken in and then the bytes as one word. -/
def fxWord : Hasher where
  seeded seed key := fxAbsorb (fxAbsorb (fxAbsorb 0 seed) key.length.toUInt64) (nativeWord false key)
  plain key := fxAbsorb (fxAbsorb 0 key.length.toUInt64) (nativeWord false key)

theorem depth_buys_nothing_four : ¬ RowImprovable fxLittle 4 0 :=
  depth_buys_nothing fxHashed_fxLittle (by decide)

/-- Sources of one /16 share their counters in every row. -/
example : (countedSources fxLittle 4 [0x0A000001, 0x0A000002]).estimate fxLittle (octets 0x0A000003) = 2 := by
  decide +kernel

theorem not_all_rows_improvable :
    ¬ ∀ depth, 2 ≤ depth → ∀ row, row < depth → RowImprovable fxLittle depth row := by
  intro h
  obtain ⟨stream, ip, hlt⟩ := h 4 (by decide) 0 (by decide)
  rw [estimate_eq_cell fxHashed_fxLittle ip (Nat.succ_pos 3)] at hlt
  exact absurd hlt (UInt32.lt_irrefl _)

end ThreatEngine.Detection
