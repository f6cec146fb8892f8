import Mathlib.Data.List.Count
import Mathlib.Data.List.Induction
import Mathlib.Data.List.MinMax
import ThreatEngine.Models

/-! The Count-Min sketch of `anomaly.rs`. The hasher is a parameter: what is
counted in a cell does not depend on it. -/
namespace ThreatEngine.Detection

/-- What the sketches take from a hasher: a seed and a key after it, and a key alone. -/
structure Hasher where
  seeded : UInt64 → List UInt8 → UInt64
  plain : List UInt8 → UInt64

structure CountMinSketch where
  depth : Nat
  width : Nat
  table : List (List UInt32)
  seeds : List UInt64
  rows : table.length = depth
  cols : ∀ cells ∈ table, cells.length = width

namespace CountMinSketch

def new (width depth : Nat) : CountMinSketch where
  depth := depth
  width := width
  table := List.replicate depth (List.replicate width 0)
  seeds := (List.range depth).map fun i => 0x9E3779B97F4A7C15 * (i.toUInt64 + 1)
  rows := List.length_replicate
  cols := fun cells h => by rw [List.eq_of_mem_replicate h, List.length_replicate]

def hash (H : Hasher) (s : CountMinSketch) (key : List UInt8) (row : Nat) : Nat :=
  (H.seeded (s.seeds.getD row 0) key).toNat % s.width

def cell (s : CountMinSketch) (row col : Nat) : UInt32 := (s.table.getD row []).getD col 0

/-- `saturating_add(1)`. -/
def saturatingSucc (c : UInt32) : UInt32 := if c = 0xFFFFFFFF then c else c + 1

def increment (H : Hasher) (s : CountMinSketch) (key : List UInt8) : CountMinSketch where
  depth := s.depth
  width := s.width
  table := s.table.mapIdx fun row cells => cells.modify (s.hash H key row) saturatingSucc
  seeds := s.seeds
  rows := by simpa using s.rows
  cols := fun cells h => by
    obtain ⟨row, hrow, rfl⟩ := List.mem_mapIdx.mp h
    simpa using s.cols _ (List.getElem_mem hrow)

def estimate (H : Hasher) (s : CountMinSketch) (key : List UInt8) : UInt32 :=
  (((List.range s.depth).map fun row => s.cell row (s.hash H key row)).min?).getD 0

def clear (s : CountMinSketch) : CountMinSketch where
  depth := s.depth
  width := s.width
  table := s.table.map fun cells => cells.map fun _ => 0
  seeds := s.seeds
  rows := by simpa using s.rows
  cols := fun cells h => by
    obtain ⟨cells', h', rfl⟩ := List.mem_map.mp h
    simpa using s.cols cells' h'

/-- Every cell is the number of the keys that hash to it, as far as 32 bits go. -/
def Counts (H : Hasher) (s : CountMinSketch) (keys : List (List UInt8)) : Prop :=
  ∀ row col, row < s.depth → col < s.width →
    (s.cell row col).toNat = min (2 ^ 32 - 1) (keys.countP fun key => s.hash H key row == col)

variable {H : Hasher} {s : CountMinSketch} {key : List UInt8} {keys : List (List UInt8)}
    {row col : Nat}

@[simp] theorem increment_depth : (s.increment H key).depth = s.depth := rfl

@[simp] theorem increment_width : (s.increment H key).width = s.width := rfl

@[simp] theorem hash_increment (key' : List UInt8) :
  (s.increment H key).hash H key' row = s.hash H key' row := rfl

theorem toNat_saturatingSucc (c : UInt32) :
    (saturatingSucc c).toNat = min (2 ^ 32 - 1) (c.toNat + 1) := by
  have hlt := c.toNat_lt
  unfold saturatingSucc
  split
  · next h =>
    subst h
    rfl
  · next h =>
    have hne : c.toNat ≠ 2 ^ 32 - 1 := fun he => h (UInt32.toNat_inj.mp he)
    rw [UInt32.toNat_add, UInt32.toNat_one, Nat.mod_eq_of_lt (by omega)]
    omega

theorem cell_increment (hrow : row < s.depth) (hcol : col < s.width) :
    (s.increment H key).cell row col =
      if s.hash H key row = col then saturatingSucc (s.cell row col) else s.cell row col := by
  have hr : row < s.table.length := s.rows ▸ hrow
  have hc : col < s.table[row].length := (s.cols _ (List.getElem_mem hr)).symm ▸ hcol
  simp only [cell, increment, List.getD_eq_getElem?_getD, List.getElem?_mapIdx,
    List.getElem?_eq_getElem hr, Option.map_some, Option.getD_some, List.getElem?_modify,
    List.getElem?_eq_getElem hc]
  split <;> simp

theorem counts_new (H : Hasher) (width depth : Nat) : (new width depth).Counts H [] := by
  intro row col hrow hcol
  have hrow' : row < depth := hrow
  have hcol' : col < width := hcol
  simp [cell, new, List.getD_eq_getElem?_getD, hrow', hcol']

theorem counts_clear (H : Hasher) (s : CountMinSketch) : s.clear.Counts H [] := by
  intro row col hrow hcol
  have hr : row < s.table.length := s.rows ▸ hrow
  have hc : col < s.table[row].length := (s.cols _ (List.getElem_mem hr)).symm ▸ hcol
  simp [cell, clear, List.getD_eq_getElem?_getD, List.getElem?_eq_getElem hr, hc]

/-- Clearing gives back a new sketch. -/
theorem clear_eq_new {width depth : Nat} (hd : s.depth = depth) (hw : s.width = width)
    (hs : s.seeds = (new width depth).seeds) : s.clear = new width depth := by
  have htable : s.table.map (fun cells => cells.map fun _ => (0 : UInt32)) =
      List.replicate depth (List.replicate width 0) := by
    rw [List.eq_replicate_iff, List.length_map, s.rows, hd]
    refine ⟨rfl, fun cells hc => ?_⟩
    obtain ⟨cells', hm, rfl⟩ := List.mem_map.mp hc
    rw [List.map_const', s.cols cells' hm, hw]
  simp only [clear, new, CountMinSketch.mk.injEq]
  exact ⟨hd, hw, htable, hs⟩

/-- The step lemma of counting. -/
theorem Counts.increment (h : s.Counts H keys) (key : List UInt8) :
    (s.increment H key).Counts H (keys ++ [key]) := by
  intro row col hrow hcol
  have hold := h row col hrow hcol
  have hcell : (s.increment H key).cell row col = _ := cell_increment hrow hcol
  simp only [hcell, List.countP_append, List.countP_singleton, hash_increment, beq_iff_eq]
  split
  · rw [toNat_saturatingSucc, hold]
    omega
  · rw [hold, Nat.add_zero]

@[simp] theorem foldl_increment_depth (keys : List (List UInt8)) (s : CountMinSketch) :
    (keys.foldl (increment H) s).depth = s.depth := by
  induction keys generalizing s with
  | nil => rfl
  | cons key keys ih => exact ih (s.increment H key)

@[simp] theorem foldl_increment_width (keys : List (List UInt8)) (s : CountMinSketch) :
    (keys.foldl (increment H) s).width = s.width := by
  induction keys generalizing s with
  | nil => rfl
  | cons key keys ih => exact ih (s.increment H key)

/-- The run lemma of counting. -/
theorem counts_foldl (H : Hasher) (width depth : Nat) (keys : List (List UInt8)) :
    (keys.foldl (increment H) (new width depth)).Counts H keys := by
  induction keys using List.reverseRecOn with
  | nil => exact counts_new H width depth
  | append_singleton keys key ih =>
    rw [List.foldl_append]
    exact ih.increment key

theorem hash_lt (H : Hasher) (key : List UInt8) (row : Nat) (hw : 0 < s.width) :
    s.hash H key row < s.width := Nat.mod_lt _ hw

/-- The estimate is the least of the key's cells, one for every row. -/
theorem estimate_spec (H : Hasher) (key : List UInt8) (hd : 0 < s.depth) :
    (∃ row, row < s.depth ∧ s.estimate H key = s.cell row (s.hash H key row)) ∧
      ∀ row, row < s.depth → s.estimate H key ≤ s.cell row (s.hash H key row) := by
  have hne : ((List.range s.depth).map fun row => s.cell row (s.hash H key row)) ≠ [] := by
    simp [hd.ne']
  obtain ⟨m, hm⟩ := Option.isSome_iff_exists.mp (List.isSome_min?_of_ne_nil hne)
  have hest : s.estimate H key = m := by rw [estimate, hm, Option.getD_some]
  obtain ⟨hmem, hle⟩ := List.min?_eq_some_iff.mp hm
  obtain ⟨row, hrow, rfl⟩ := List.mem_map.mp hmem
  refine ⟨⟨row, List.mem_range.mp hrow, hest⟩, fun row' hrow' => ?_⟩
  rw [hest]
  exact hle _ (List.mem_map_of_mem (List.mem_range.mpr hrow'))

section Bounds
variable (hd : 0 < s.depth) (hw : 0 < s.width)
include hd hw

/-- The estimate never falls short of the true count. -/
theorem Counts.count_le_estimate (h : s.Counts H keys) (key : List UInt8) :
    min (2 ^ 32 - 1) (keys.count key) ≤ (s.estimate H key).toNat := by
  obtain ⟨row, hrow, he⟩ := (estimate_spec H key hd).1
  rw [he, h row _ hrow (hash_lt H key row hw)]
  have hle : keys.count key ≤ keys.countP fun key' => s.hash H key' row == s.hash H key row := by
    refine List.countP_mono_left fun key' _ hk => ?_
    rw [eq_of_beq hk]
    exact beq_self_eq_true _
  omega

/-- Collisions cannot raise it above the number of all increments. -/
theorem Counts.estimate_le_length (h : s.Counts H keys) (key : List UInt8) :
    (s.estimate H key).toNat ≤ keys.length := by
  obtain ⟨row, hrow, he⟩ := (estimate_spec H key hd).1
  rw [he, h row _ hrow (hash_lt H key row hw)]
  exact (Nat.min_le_right _ _).trans List.countP_le_length

/-- It is the true count as soon as one row keeps the key to itself. -/
theorem Counts.estimate_eq_count (h : s.Counts H keys) (hrow : row < s.depth)
    (halone : ∀ key' ∈ keys, s.hash H key' row = s.hash H key row → key' = key) :
    (s.estimate H key).toNat = min (2 ^ 32 - 1) (keys.count key) := by
  have hcell := h row _ hrow (hash_lt H key row hw)
  have hcount : (keys.countP fun key' => s.hash H key' row == s.hash H key row) =
      keys.count key := by
    refine List.countP_congr fun key' hk => ?_
    rw [beq_iff_eq, beq_iff_eq]
    exact ⟨halone key' hk, fun he => by rw [he]⟩
  rw [hcount] at hcell
  refine le_antisymm ?_ (h.count_le_estimate hd hw key)
  rw [← hcell]
  exact UInt32.le_iff_toNat_le.mp ((estimate_spec H key hd).2 row hrow)

end Bounds

section Runs

/-- The calls that change a sketch. -/
inductive Op where
  | increment (key : List UInt8)
  | clear

def apply (H : Hasher) (s : CountMinSketch) : Op → CountMinSketch
  | .increment key => s.increment H key
  | .clear => s.clear

def run (H : Hasher) (s : CountMinSketch) (ops : List Op) : CountMinSketch := ops.foldl (apply H) s

/-- The increments since the last clear, those before it forgotten. -/
def sinceClear (ops : List Op) : List (List UInt8) :=
  ops.foldl (fun keys op => match op with
    | .increment key => keys ++ [key]
    | .clear => []) []

/-- No call changes the size of the table or how keys are hashed. -/
theorem run_shape (H : Hasher) (s : CountMinSketch) (ops : List Op) :
    (s.run H ops).depth = s.depth ∧ (s.run H ops).width = s.width ∧ (s.run H ops).seeds = s.seeds := by
  induction ops generalizing s with
  | nil => exact ⟨rfl, rfl, rfl⟩
  | cons op ops ih =>
    obtain ⟨hd, hw, hs⟩ := ih (s.apply H op)
    cases op with
    | increment key => exact ⟨hd, hw, hs⟩
    | clear => exact ⟨hd, hw, hs⟩

theorem hash_run (s : CountMinSketch) (ops : List Op) (key : List UInt8) (row : Nat) :
    (s.run H ops).hash H key row = s.hash H key row := by
  obtain ⟨_, hw, hs⟩ := run_shape H s ops
  rw [hash, hash, hw, hs]

theorem run_append (s : CountMinSketch) (ops ops' : List Op) :
    s.run H (ops ++ ops') = (s.run H ops).run H ops' := List.foldl_append

/-- The run lemma of counting, with clears. -/
theorem counts_run (H : Hasher) (width depth : Nat) (ops : List Op) :
    ((new width depth).run H ops).Counts H (sinceClear ops) := by
  induction ops using List.reverseRecOn with
  | nil => exact counts_new H width depth
  | append_singleton ops op ih =>
    rw [run_append, sinceClear, List.foldl_append]
    cases op with
    | increment key => exact ih.increment key
    | clear => exact counts_clear H _

/-- One increment lowers no estimate. -/
theorem estimate_le_increment (hd : 0 < s.depth) (hw : 0 < s.width) (key key' : List UInt8) :
    s.estimate H key ≤ (s.increment H key').estimate H key := by
  obtain ⟨row, hrow, he⟩ := (estimate_spec (s := s.increment H key') H key hd).1
  have hle := (estimate_spec H key hd).2 row hrow
  have hcell : (s.increment H key').cell row (s.hash H key row) = _ :=
    cell_increment hrow (hash_lt H key row hw)
  rw [he, hash_increment, hcell]
  split
  · refine UInt32.le_trans hle (UInt32.le_iff_toNat_le.mpr ?_)
    have := (s.cell row (s.hash H key row)).toNat_lt
    rw [toNat_saturatingSucc]
    omega
  · exact hle

theorem estimate_le_increments (hd : 0 < s.depth) (hw : 0 < s.width) (key : List UInt8)
    (keys : List (List UInt8)) :
    s.estimate H key ≤ (s.run H (keys.map .increment)).estimate H key := by
  induction keys generalizing s with
  | nil => exact UInt32.le_refl _
  | cons key' keys ih =>
    exact UInt32.le_trans (estimate_le_increment hd hw key key') (ih (s := s.increment H key') hd hw)

/-- The constants of the rows are invertible, so a seed tells its row. -/
def rowOfSeed (seed : UInt64) : Nat := (seed * 0xF1DE83E19937733D - 1).toNat

theorem rowOfSeed_seeds {width depth row : Nat} (hrow : row < depth) (hd : depth ≤ 2 ^ 64) :
    rowOfSeed ((new width depth).seeds.getD row 0) = row := by
  have hseed : (new width depth).seeds.getD row 0 = 0x9E3779B97F4A7C15 * (row.toUInt64 + 1) := by
    simp [new, List.getD_eq_getElem?_getD, hrow]
  have hinv : (0x9E3779B97F4A7C15 : UInt64) * 0xF1DE83E19937733D = 1 := by decide
  rw [rowOfSeed, hseed, UInt64.mul_comm, ← UInt64.mul_assoc, UInt64.mul_comm 0xF1DE83E19937733D, hinv,
    UInt64.one_mul, UInt64.add_sub_cancel]
  simp
  omega

/-- Every choice of a column for every row and key is what some hasher does. -/
theorem exists_hasher {width depth : Nat} (hw : width ≤ 2 ^ 64) (hd : depth ≤ 2 ^ 64)
    (column : Nat → List UInt8 → Nat) (hcolumn : ∀ row key, column row key < width) :
    ∃ H : Hasher, ∀ row < depth, ∀ key, (new width depth).hash H key row = column row key := by
  refine ⟨⟨fun seed key => (column (rowOfSeed seed) key).toUInt64, fun _ => 0⟩, fun row hrow key => ?_⟩
  have hlt := hcolumn row key
  change (column (rowOfSeed ((new width depth).seeds.getD row 0)) key).toUInt64.toNat % width = column row key
  have hword : (column row key).toUInt64.toNat = column row key := by
    simp
    omega
  rw [rowOfSeed_seeds hrow hd, hword, Nat.mod_eq_of_lt hlt]

/-- The sketch after any increments and clears: its cells are counts, its
estimates lie above the true counts, rise between clears, and are exact for a
key that has a row to itself. -/
theorem count_min_exact (H : Hasher) {width depth : Nat} (hw : 0 < width) (hd : 0 < depth)
    (ops : List Op) :
    (∀ row < depth, ∀ col < width, (((new width depth).run H ops).cell row col).toNat =
      min (2 ^ 32 - 1) ((sinceClear ops).countP fun key => (new width depth).hash H key row == col)) ∧
    ∀ key, min (2 ^ 32 - 1) ((sinceClear ops).count key) ≤ (((new width depth).run H ops).estimate H key).toNat ∧
      (∀ keys : List (List UInt8), ((new width depth).run H ops).estimate H key ≤
        ((new width depth).run H (ops ++ keys.map .increment)).estimate H key) ∧
      ((∃ row < depth, ∀ key' ∈ sinceClear ops,
          (new width depth).hash H key' row = (new width depth).hash H key row → key' = key) →
        (((new width depth).run H ops).estimate H key).toNat = min (2 ^ 32 - 1) ((sinceClear ops).count key)) := by
  obtain ⟨hdepth, hwidth, _⟩ : ((new width depth).run H ops).depth = depth ∧
      ((new width depth).run H ops).width = width ∧ _ := run_shape H (new width depth) ops
  have hcounts := counts_run H width depth ops
  have hd' : 0 < ((new width depth).run H ops).depth := by rwa [hdepth]
  have hw' : 0 < ((new width depth).run H ops).width := by rwa [hwidth]
  constructor
  · intro row hrow col hcol
    rw [hcounts row col (by rwa [hdepth]) (by rwa [hwidth])]
    simp only [hash_run]
  · intro key
    refine ⟨hcounts.count_le_estimate hd' hw' key, fun keys => ?_, fun ⟨row, hrow, halone⟩ => ?_⟩
    · rw [run_append]
      exact estimate_le_increments hd' hw' key keys
    · refine hcounts.estimate_eq_count hd' hw' (by rwa [hdepth]) fun key' hk he => halone key' hk ?_
      simpa only [hash_run] using he

/-- All keys share the first row, and keys of even and of odd length have the others to themselves. -/
def firstRowShared : Hasher where
  seeded seed key := if rowOfSeed seed = 0 then 0 else key.length.toUInt64
  plain _ := 0

/-- Two keys, before and after a clear. -/
def twoKeys : List Op :=
  [.increment [7], .increment [], .clear, .increment [7], .increment [], .increment [7]]

/-- After the clear the shared cell counts both keys, and the estimate is exact all the same. -/
theorem count_min_exact_clear : (((new 2 2).run firstRowShared twoKeys).cell 0 0).toNat = 3 ∧
    (((new 2 2).run firstRowShared twoKeys).estimate firstRowShared [7]).toNat = 2 := by
  obtain ⟨hcells, hestimates⟩ := count_min_exact firstRowShared Nat.two_pos Nat.two_pos twoKeys
  refine ⟨(hcells 0 Nat.two_pos 0 Nat.two_pos).trans (by decide), ?_⟩
  exact ((hestimates [7]).2.2 ⟨1, Nat.one_lt_two, by decide⟩).trans (by decide)

end Runs

end CountMinSketch

end ThreatEngine.Detection
