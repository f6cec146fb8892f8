import Mathlib.Data.Nat.Init
import ThreatEngine.Lib.Mealy

/-! Machines that work in windows: an input that comes a whole window after the
start restarts the machine before it is answered. Between two restarts the run
is that of the machine inside, and its inputs lie within one window. -/
namespace Tumbling
open Mealy
variable {σ ι ο β : Type*}

structure Windowed (σ ι ο : Type*) where
  inner : Machine σ ι ο
  window : σ → Nat
  start : σ → Nat
  restart : Nat → σ → σ
  window_step : ∀ s i, window (inner.step s i).1 = window s
  start_step : ∀ s i, start (inner.step s i).1 = start s
  window_restart : ∀ now s, window (restart now s) = window s
  start_restart : ∀ now s, start (restart now s) = now

def Windowed.due (W : Windowed σ ι ο) (now : Nat) (s : σ) : Bool :=
  decide (W.window s ≤ now - W.start s)

def Windowed.roll (W : Windowed σ ι ο) (now : Nat) (s : σ) : σ :=
  if W.due now s then W.restart now s else s

/-- Inputs come with the instant at which they are answered. -/
def Windowed.rolling (W : Windowed σ ι ο) : Machine σ (Nat × ι) ο where
  init := W.inner.init
  step s x := W.inner.step (W.roll x.1 s) x.2

/-- The positions from `a` up to `b`. -/
def slice (l : List β) (a b : Nat) : List β := (l.take b).drop a

/-- The state before the input at `k`. -/
def Windowed.before (W : Windowed σ ι ο) (xs : List (Nat × ι)) (k : Nat) : σ :=
  W.rolling.after W.rolling.init (xs.take k)

def Windowed.RollsAt (W : Windowed σ ι ο) (xs : List (Nat × ι)) (k : Nat) : Prop :=
  ∃ x, xs[k]? = some x ∧ W.due x.1 (W.before xs k) = true

/-- Cut at the inputs that roll the window: `a` opens a segment, and none is
opened inside. -/
structure Windowed.Segment (W : Windowed σ ι ο) (xs : List (Nat × ι)) (a b : Nat) : Prop where
  le : a ≤ b
  bound : b ≤ xs.length
  opens : a = 0 ∨ W.RollsAt xs a
  quiet : ∀ k, a < k → k < b → ¬W.RollsAt xs k

section Slice

@[simp] theorem slice_self (l : List β) (a : Nat) : slice l a a = [] := by
  simp [slice]

theorem slice_succ {l : List β} {a b : Nat} {x : β} (h : a ≤ b) (hx : l[b]? = some x) :
    slice l a (b + 1) = slice l a b ++ [x] := by
  have hlt : b < l.length := (List.getElem?_eq_some_iff.mp hx).1
  have hlen : a ≤ (l.take b).length := by
    rw [List.length_take]
    omega
  rw [slice, List.take_add_one, hx, slice, List.drop_append_of_le_length hlen]
  rfl

theorem take_slice (l : List β) {a c b : Nat} (hac : a ≤ c) (hcb : c ≤ b) :
    (slice l a b).take (c - a) = slice l a c := by
  rw [slice, List.take_drop, List.take_take, Nat.add_sub_cancel' hac, Nat.min_eq_left hcb, slice]

theorem slice_suffix (l : List β) {a c : Nat} (hac : a ≤ c) (b : Nat) :
    slice l c b <:+ slice l a b := by
  have hdrop : slice l c b = (slice l a b).drop (c - a) := by
    rw [slice, slice, List.drop_drop, Nat.add_sub_cancel' hac]
  exact hdrop ▸ List.drop_suffix _ _

theorem length_slice {l : List β} {a b : Nat} (h : b ≤ l.length) :
    (slice l a b).length = b - a := by
  rw [slice, List.length_drop, List.length_take, Nat.min_eq_left h]

theorem exists_of_mem_slice {l : List β} {a b : Nat} {x : β} (h : x ∈ slice l a b) :
    ∃ j, a ≤ j ∧ j < b ∧ l[j]? = some x := by
  obtain ⟨i, hi⟩ := List.mem_iff_getElem?.mp h
  rw [slice, List.getElem?_drop, List.getElem?_take] at hi
  split at hi
  · next hlt => exact ⟨a + i, Nat.le_add_right a i, hlt, hi⟩
  · cases hi

end Slice

variable {W : Windowed σ ι ο} {xs : List (Nat × ι)} {a b : Nat}

theorem start_after (s : σ) (is : List ι) : W.start (W.inner.after s is) = W.start s :=
  after_keeps (P := fun s' => W.start s' = W.start s) (fun s' i h => (W.start_step s' i).trans h) rfl is

theorem window_after (s : σ) (is : List ι) : W.window (W.inner.after s is) = W.window s :=
  after_keeps (P := fun s' => W.window s' = W.window s) (fun s' i h => (W.window_step s' i).trans h) rfl is

/-- What rolling keeps, and what it establishes when it restarts. -/
theorem roll_keeps {P : σ → Prop} {now : Nat} {s : σ} (h : P s) (hrestart : P (W.restart now s)) :
    P (W.roll now s) := by
  unfold Windowed.roll
  split
  · exact hrestart
  · exact h

theorem window_roll (now : Nat) (s : σ) : W.window (W.roll now s) = W.window s :=
  roll_keeps (P := fun s' => W.window s' = W.window s) rfl (W.window_restart now s)

theorem window_rolling (s : σ) (is : List (Nat × ι)) :
    W.window (W.rolling.after s is) = W.window s :=
  after_keeps (P := fun s' => W.window s' = W.window s)
    (fun s' x h => (W.window_step _ x.2).trans ((window_roll x.1 s').trans h)) rfl is

theorem window_before (xs : List (Nat × ι)) (k : Nat) :
    W.window (W.before xs k) = W.window W.inner.init :=
  window_rolling _ _

theorem roll_of_early {now : Nat} {s : σ} (h : now - W.start s < W.window s) :
    W.roll now s = s := by
  rw [Windowed.roll, Windowed.due, decide_eq_false (Nat.not_le.mpr h)]
  rfl

theorem before_succ {k : Nat} {x : Nat × ι} (hx : xs[k]? = some x) :
    W.before xs (k + 1) = (W.inner.step (W.roll x.1 (W.before xs k)) x.2).1 := by
  rw [Windowed.before, List.take_add_one, hx, after_append]
  rfl

theorem output_at {k : Nat} {x : Nat × ι} (hx : xs[k]? = some x) :
    (W.rolling.outputs W.rolling.init xs)[k]? =
      some (W.inner.step (W.roll x.1 (W.before xs k)) x.2).2 :=
  getElem?_outputs _ _ hx

theorem Windowed.Segment.roll_eq (seg : W.Segment xs a b) {k : Nat} {x : Nat × ι} (ha : a < k)
    (hb : k < b) (hx : xs[k]? = some x) :
    W.roll x.1 (W.before xs k) = W.before xs k ∧ x.1 - W.start (W.before xs k) < W.window (W.before xs k) := by
  have hearly : x.1 - W.start (W.before xs k) < W.window (W.before xs k) := by
    by_contra h
    exact seg.quiet k ha hb ⟨x, hx, decide_eq_true (Nat.not_lt.mp h)⟩
  exact ⟨roll_of_early hearly, hearly⟩

/-- A segment's run is one of the machine inside, from the state in which the
segment's first input `x` is answered. -/
theorem Windowed.Segment.inner_run (seg : W.Segment xs a b) {x : Nat × ι} (hx : xs[a]? = some x)
    {c : Nat} (hac : a < c) (hcb : c ≤ b) :
    W.before xs c = W.inner.after (W.roll x.1 (W.before xs a)) ((slice xs a c).map Prod.snd) ∧
      slice (W.rolling.outputs W.rolling.init xs) a c =
        W.inner.outputs (W.roll x.1 (W.before xs a)) ((slice xs a c).map Prod.snd) := by
  induction c, hac using Nat.le_induction with
  | base =>
    rw [slice_succ (Nat.le_refl a) hx, slice_succ (Nat.le_refl a) (output_at hx), slice_self, slice_self,
      before_succ hx]
    exact ⟨rfl, rfl⟩
  | succ c hac ih =>
    obtain ⟨hstate, hout⟩ := ih (by omega)
    obtain ⟨y, hy⟩ : ∃ y, xs[c]? = some y :=
      ⟨_, List.getElem?_eq_getElem (by have := seg.bound; omega)⟩
    have hroll := (seg.roll_eq (by omega) (by omega) hy).1
    have hle : a ≤ c := by omega
    constructor
    · rw [before_succ hy, hroll, hstate, slice_succ hle hy, List.map_append, after_append]
      rfl
    · rw [slice_succ hle (output_at hy), hout, hroll, hstate, slice_succ hle hy, List.map_append, outputs_append]
      rfl

theorem Windowed.Segment.first (seg : W.Segment xs a b) {x : Nat × ι} (hx : xs[a]? = some x) :
    W.roll x.1 (W.before xs a) = W.restart x.1 (W.before xs a) ∨
      W.roll x.1 (W.before xs a) = W.inner.init := by
  unfold Windowed.roll
  split
  · exact Or.inl rfl
  · next hdue =>
    obtain rfl | ⟨y, hy, hdue'⟩ := seg.opens
    · exact Or.inr rfl
    · rw [hx] at hy
      obtain rfl := Option.some.inj hy
      exact absurd hdue' hdue

/-- What holds of a state that has seen and answered nothing, at first and after every restart, and
is kept by every step of the machine inside, holds when a window is opened. -/
theorem Windowed.Segment.opened {P : σ → List ι → List ο → Prop} (hinit : P W.inner.init [] [])
    (hstep : ∀ s is os i, P s is os → P (W.inner.step s i).1 (is ++ [i]) (os ++ [(W.inner.step s i).2]))
    (hrestart : ∀ now s is os, P s is os → P (W.restart now s) [] []) (seg : W.Segment xs a b)
    {x : Nat × ι} (hx : xs[a]? = some x) : P (W.roll x.1 (W.before xs a)) [] [] := by
  have hseen : ∃ is os, P (W.before xs a) is os := by
    refine after_keeps (P := fun s => ∃ is os, P s is os) (fun s y h => ?_) ⟨[], [], hinit⟩ _
    obtain ⟨is, os, hroll⟩ : ∃ is os, P (W.roll y.1 s) is os := by
      obtain ⟨is, os, h⟩ := h
      exact roll_keeps (P := fun s => ∃ is os, P s is os) ⟨is, os, h⟩ ⟨[], [], hrestart y.1 s is os h⟩
    exact ⟨_, _, hstep _ is os y.2 hroll⟩
  obtain ⟨is, os, h⟩ := hseen
  cases seg.first hx with
  | inl hroll => exact hroll ▸ hrestart x.1 _ is os h
  | inr hroll => exact hroll ▸ hinit

/-- The rule for the state that a window leaves. -/
theorem Windowed.Segment.rule_before {P : σ → List ι → List ο → Prop} (hinit : P W.inner.init [] [])
    (hstep : ∀ s is os i, P s is os → P (W.inner.step s i).1 (is ++ [i]) (os ++ [(W.inner.step s i).2]))
    (hrestart : ∀ now s is os, P s is os → P (W.restart now s) [] []) (seg : W.Segment xs a b) {c : Nat}
    (hac : a < c) (hcb : c ≤ b) : P (W.before xs c) ((slice xs a c).map Prod.snd)
      (slice (W.rolling.outputs W.rolling.init xs) a c) := by
  obtain ⟨x, hx⟩ : ∃ x, xs[a]? = some x :=
    ⟨_, List.getElem?_eq_getElem (by have := seg.bound; omega)⟩
  obtain ⟨hstate, hout⟩ := seg.inner_run hx hac hcb
  rw [hstate, hout]
  exact run_keeps hstep (seg.opened hinit hstep hrestart hx) _

/-- The rule of windows: what holds of a state that has seen and answered
nothing, at first and after every restart, and is kept by every step of the
machine inside, holds of each window, its inputs and its answers. -/
theorem Windowed.Segment.rule {P : σ → List ι → List ο → Prop} (hinit : P W.inner.init [] [])
    (hstep : ∀ s is os i, P s is os → P (W.inner.step s i).1 (is ++ [i]) (os ++ [(W.inner.step s i).2]))
    (hrestart : ∀ now s is os, P s is os → P (W.restart now s) [] []) (seg : W.Segment xs a b) {c : Nat}
    (hac : a ≤ c) (hcb : c ≤ b) :
    ∃ s, P s ((slice xs a c).map Prod.snd) (slice (W.rolling.outputs W.rolling.init xs) a c) := by
  obtain rfl | hlt := Nat.eq_or_lt_of_le hac
  · rw [slice_self, slice_self]
    exact ⟨W.inner.init, hinit⟩
  · exact ⟨_, seg.rule_before hinit hstep hrestart hlt hcb⟩

/-- A segment cut short. -/
theorem Windowed.Segment.take (seg : W.Segment xs a b) {c : Nat} (hac : a ≤ c) (hcb : c ≤ b) :
    W.Segment xs a c :=
  ⟨hac, Nat.le_trans hcb seg.bound, seg.opens, fun k hk hkc => seg.quiet k hk (Nat.lt_of_lt_of_le hkc hcb)⟩

/-- Every input is the last of a segment. -/
theorem exists_segment (W : Windowed σ ι ο) {xs : List (Nat × ι)} {k : Nat} (hk : k < xs.length) :
    ∃ a, a ≤ k ∧ W.Segment xs a (k + 1) := by
  induction k with
  | zero => exact ⟨0, Nat.le_refl 0, Nat.zero_le _, hk, Or.inl rfl, fun m hm hm' => by omega⟩
  | succ k ih =>
    by_cases hroll : W.RollsAt xs (k + 1)
    · exact ⟨k + 1, Nat.le_refl _, Nat.le_succ _, hk, Or.inr hroll, fun m hm hm' => by omega⟩
    · obtain ⟨a, ha, seg⟩ := ih (by omega)
      refine ⟨a, by omega, by omega, hk, seg.opens, fun m hm hm' => ?_⟩
      obtain rfl | hlt := Nat.eq_or_lt_of_le (Nat.le_of_lt_succ hm')
      · exact hroll
      · exact seg.quiet m hm hlt

/-- The inputs end with a segment, which is empty only if they are. -/
theorem exists_last_segment (W : Windowed σ ι ο) (xs : List (Nat × ι)) :
    ∃ a, W.Segment xs a xs.length ∧ (a < xs.length ∨ xs = []) := by
  obtain hnil | hpos := Nat.eq_zero_or_pos xs.length
  · obtain rfl := List.length_eq_zero_iff.mp hnil
    exact ⟨0, ⟨Nat.le_refl 0, Nat.le_refl 0, Or.inl rfl, fun k hk hk' => by omega⟩, Or.inr rfl⟩
  · have hlt : xs.length - 1 < xs.length := by omega
    obtain ⟨a, ha, seg⟩ := exists_segment W hlt
    rw [Nat.sub_add_cancel hpos] at seg
    exact ⟨a, seg, Or.inl (by omega)⟩

/-- The window is not rolled by inputs that come within it. -/
theorem start_of_early {k : Nat} (hk : k ≤ xs.length)
    (h : ∀ x ∈ xs.take k, x.1 - W.start W.inner.init < W.window W.inner.init) :
    W.start (W.before xs k) = W.start W.inner.init := by
  induction k with
  | zero => rfl
  | succ k ih =>
    obtain ⟨x, hx⟩ : ∃ x, xs[k]? = some x := ⟨_, List.getElem?_eq_getElem (by omega)⟩
    have htake : xs.take (k + 1) = xs.take k ++ [x] := by rw [List.take_add_one, hx]; rfl
    have ih := ih (by omega) fun y hy => h y (htake ▸ List.mem_append_left _ hy)
    have hroll : W.roll x.1 (W.before xs k) = W.before xs k := roll_of_early (by
      rw [ih, window_before]
      exact h x (htake ▸ List.mem_append_right _ List.mem_cons_self))
    rw [before_succ hx, W.start_step, hroll, ih]

/-- Inputs that all come within the first window are one segment. -/
theorem segment_of_early (h : ∀ x ∈ xs, x.1 - W.start W.inner.init < W.window W.inner.init) :
    W.Segment xs 0 xs.length := by
  refine ⟨Nat.zero_le _, Nat.le_refl _, Or.inl rfl, ?_⟩
  intro k _ hk ⟨x, hx, hdue⟩
  have hstart := start_of_early (Nat.le_of_lt hk) fun y hy => h y (List.mem_of_mem_take hy)
  have hearly := h x (List.mem_of_getElem? hx)
  rw [Windowed.due, decide_eq_true_eq, hstart, window_before] at hdue
  omega

/-- Instants do not decrease. -/
theorem instant_le (hmono : (xs.map Prod.fst).Pairwise (· ≤ ·)) {i j : Nat} (hij : i ≤ j)
    {x y : Nat × ι} (hx : xs[i]? = some x) (hy : xs[j]? = some y) : x.1 ≤ y.1 := by
  obtain ⟨hi, hx⟩ := List.getElem?_eq_some_iff.mp hx
  obtain ⟨hj, hy⟩ := List.getElem?_eq_some_iff.mp hy
  obtain rfl | hlt := Nat.eq_or_lt_of_le hij
  · exact (hx.symm.trans hy ▸ Nat.le_refl _)
  · rw [← hx, ← hy]
    exact List.pairwise_iff_getElem.mp (List.pairwise_map.mp hmono) i j hi hj hlt

/-- Inputs of one segment lie within less than the window of one another. -/
theorem Windowed.Segment.within (seg : W.Segment xs a b)
    (hmono : (W.start W.inner.init :: xs.map Prod.fst).Pairwise (· ≤ ·)) {i j : Nat} {x y : Nat × ι}
    (hai : a ≤ i) (hij : i < j) (hjb : j < b) (hx : xs[i]? = some x) (hy : xs[j]? = some y) :
    y.1 - x.1 < W.window W.inner.init := by
  obtain ⟨hstart, hpair⟩ := List.pairwise_cons.mp hmono
  have hlen : j < xs.length := (List.getElem?_eq_some_iff.mp hy).1
  obtain ⟨z, hz⟩ : ∃ z, xs[a]? = some z := ⟨_, List.getElem?_eq_getElem (by omega)⟩
  have horder : z.1 ≤ x.1 := instant_le hpair hai hz hx
  have hbase : W.start (W.roll z.1 (W.before xs a)) ≤ z.1 := by
    obtain h | h := seg.first hz
    · exact h ▸ Nat.le_of_eq (W.start_restart z.1 _)
    · rw [h]
      exact hstart _ (List.mem_map_of_mem (List.mem_of_getElem? hz))
  have hearly := (seg.roll_eq (by omega) hjb hy).2
  rw [(seg.inner_run hz (by omega) (Nat.le_of_lt hjb)).1, start_after, window_after, window_roll] at hearly
  rw [window_before] at hearly
  omega

end Tumbling
