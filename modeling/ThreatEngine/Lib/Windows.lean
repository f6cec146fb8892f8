import Mathlib.Data.List.Nodup
import Mathlib.Data.List.Perm.Basic

/-! Reading a growing list through windows on its latest entries, and keeping the
entries whose key is new. As long as each window reaches back to what has been kept
before, nothing is missed. -/
namespace Windows
variable {α β : Type*} [DecidableEq β] (key : α → β)

def keep (rows : List α) (a : α) : List α := if key a ∈ rows.map key then rows else rows ++ [a]

def keepAll (rows l : List α) : List α := l.foldl (keep key) rows

variable {key} {rows l : List α} {a : α}

theorem keepAll_append (rows l l' : List α) :
    keepAll key rows (l ++ l') = keepAll key (keepAll key rows l) l' := List.foldl_append

/-- Keys are kept once. -/
theorem nodup_keepAll (h : (rows.map key).Nodup) (l : List α) : ((keepAll key rows l).map key).Nodup := by
  induction l generalizing rows with
  | nil => exact h
  | cons a l ih =>
    refine ih ?_
    unfold keep
    split
    · exact h
    · next ha =>
      rw [List.map_append, List.map_singleton]
      exact List.nodup_append.mpr ⟨h, List.nodup_singleton _, fun b hb c hc he =>
        ha (List.mem_singleton.mp hc ▸ he ▸ hb)⟩

/-- Nothing is kept that has not been read. -/
theorem mem_of_mem_keepAll (h : a ∈ keepAll key rows l) : a ∈ rows ∨ a ∈ l := by
  induction l generalizing rows with
  | nil => exact Or.inl h
  | cons b l ih =>
    obtain hkept | hlater := ih h
    · unfold keep at hkept
      split at hkept
      · exact Or.inl hkept
      · obtain hold | hnew := List.mem_append.mp hkept
        · exact Or.inl hold
        · exact Or.inr (List.mem_singleton.mp hnew ▸ List.mem_cons_self)
    · exact Or.inr (List.mem_cons_of_mem b hlater)

theorem keepAll_new (h : ((rows ++ l).map key).Nodup) : keepAll key rows l = rows ++ l := by
  induction l generalizing rows with
  | nil => exact (List.append_nil rows).symm
  | cons a l ih =>
    have hmoved : rows ++ a :: l = rows ++ [a] ++ l := by simp
    have hnew : key a ∉ rows.map key := by
      intro ha
      rw [List.map_append, List.map_cons] at h
      exact List.nodup_append.mp h |>.2.2 (key a) ha (key a) List.mem_cons_self rfl
    have hkeep : keep key rows a = rows ++ [a] := if_neg hnew
    change keepAll key (keep key rows a) l = _
    rw [hkeep, hmoved]
    exact ih (hmoved ▸ h)

theorem keepAll_seen (h : ∀ a ∈ l, key a ∈ rows.map key) : keepAll key rows l = rows := by
  induction l with
  | nil => rfl
  | cons a l ih =>
    have hkeep : keep key rows a = rows := if_pos (h a List.mem_cons_self)
    change keepAll key (keep key rows a) l = _
    rw [hkeep]
    exact ih fun b hb => h b (List.mem_cons_of_mem a hb)

/-- The window law: a window that is not full, or shows a key that has been kept, reaches back to
what has been kept before. -/
theorem perm_keepAll {m m' w : Nat} (hkeys : (l.map key).Nodup) (hm : m ≤ m') (hm' : m' ≤ l.length)
    (hrows : rows.Perm (l.take m)) (hback : ((l.take m').reverse.take w).length < w ∨
      ∃ a ∈ (l.take m').reverse.take w, key a ∈ rows.map key) :
    (keepAll key rows ((l.take m').reverse.take w)).Perm (l.take m') := by
  have hlen : (l.take m').length = m' := List.length_take_of_le hm'
  have hwindow : (l.take m').reverse.take w = ((l.take m').drop (m' - w)).reverse := by
    rw [List.take_reverse, hlen]
  have hmem {a : α} : key a ∈ rows.map key ↔ key a ∈ (l.take m).map key :=
    (hrows.map key).mem_iff
  rw [hwindow] at hback ⊢
  have hstart : m' - w ≤ m := by
    obtain hshort | ⟨a, ha, hseen⟩ := hback
    · rw [List.length_reverse, List.length_drop, hlen] at hshort
      omega
    · by_contra hgap
      rw [List.mem_reverse, List.drop_take] at ha
      have hlate : key a ∈ (l.drop (m' - w)).map key := List.mem_map_of_mem (List.mem_of_mem_take ha)
      have hearly : key a ∈ (l.take (m' - w)).map key := by
        obtain ⟨b, hb, he⟩ := List.mem_map.mp (hmem.mp hseen)
        exact he ▸ List.mem_map_of_mem (List.take_subset_take_left l (Nat.le_of_not_le hgap) hb)
      rw [← List.take_append_drop (m' - w) l, List.map_append] at hkeys
      exact (List.nodup_append.mp hkeys).2.2 _ hearly _ hlate rfl
  have hsplit : l.take m' = l.take m ++ (l.take m').drop m := by
    have htake : (l.take m').take m = l.take m := by rw [List.take_take, Nat.min_eq_left hm]
    conv_lhs => rw [← List.take_append_drop m (l.take m'), htake]
  have hnew : (l.take m').drop (m' - w) = (l.take m).drop (m' - w) ++ (l.take m').drop m := by
    conv_lhs => rw [hsplit]
    rw [List.drop_append_of_le_length]
    rwa [List.length_take_of_le (Nat.le_trans hm hm')]
  have hpart : (rows ++ ((l.take m').drop m).reverse).Perm (l.take m') := by
    conv_rhs => rw [hsplit]
    exact hrows.append (List.reverse_perm _)
  have hfresh : ((rows ++ ((l.take m').drop m).reverse).map key).Nodup :=
    ((hpart.map key).nodup_iff).mpr (hkeys.sublist ((List.take_sublist m' l).map key))
  rw [hnew, List.reverse_append, keepAll_append, keepAll_new hfresh, keepAll_seen fun a ha => ?_]
  · exact hpart
  · rw [List.map_append]
    exact List.mem_append_left _
      (hmem.mpr (List.mem_map_of_mem (List.mem_of_mem_drop (List.mem_reverse.mp ha))))

end Windows
