import ThreatEngine.Queue.Threads

/-! The inductive invariant of the shared queue. At any moment the positions
`dequeuePos .. dequeuePos + capacity` are one for each slot, and each is in one
of three phases told by its slot's sequence number. -/
namespace ThreatEngine.Queue
variable {ι α : Type*}

/-- The position whose slot a thread has to itself. -/
def Call.owns : Call α → Option Nat
  | .pushWrite _ pos | .pushStore pos | .popTake pos | .popStore pos _ => some pos
  | _ => none

theorem owns_eq_some_iff {c : Call α} {p : Nat} :
    c.owns = some p ↔ c.pushing = some p ∨ c.popping = some p := by
  cases c <;> simp [Call.owns, Call.pushing, Call.popping]

theorem owns_eq_none_iff {c : Call α} : c.owns = none ↔ c.pushing = none ∧ c.popping = none := by
  cases c <;> simp [Call.owns, Call.pushing, Call.popping]

theorem owns_of_finished {c : Call α} (h : c.finished = true) : c.owns = none := by
  cases c <;> simp_all [Call.finished, Call.owns]

/-- `free`: no push has published the position. `full`: published, and no pop
has claimed it. `draining`: the pop of the position one round earlier has not
stored its sequence number yet. -/
inductive Phase (cap : Nat) (q : MpmcQueue α) (call : ι → Call α) (acc : List α) (p : Nat) : Prop where
  | free (hs : (q.slot p).sequence = p) (hv : q.enqueuePos ≤ p → (q.slot p).value = none)
      (ho : p < q.enqueuePos → ∃ t, (call t).pushing = some p)
  | full (hs : (q.slot p).sequence = p + 1) (he : p < q.enqueuePos) (hv : (q.slot p).value = acc[p]?)
  | draining (hc : cap ≤ p) (hs : (q.slot p).sequence + cap = p + 1) (he : q.enqueuePos ≤ p)
      (ho : ∃ t, (call t).popping = some (p - cap))

/-- What a thread may rely on at its program counter. -/
def Local (cap : Nat) (q : MpmcQueue α) (acc : List α) : Call α → Prop
  | .pushSeq _ pos => pos ≤ q.enqueuePos
  | .pushCas _ pos => pos ≤ q.enqueuePos ∧ pos ≤ (q.slot pos).sequence
  | .pushWrite x pos => q.dequeuePos ≤ pos ∧ pos < q.enqueuePos ∧ (q.slot pos).sequence = pos ∧
      (q.slot pos).value = none ∧ acc[pos]? = some x
  | .pushStore pos => q.dequeuePos ≤ pos ∧ pos < q.enqueuePos ∧ (q.slot pos).sequence = pos ∧
      (q.slot pos).value = acc[pos]?
  | .popSeq pos => pos ≤ q.dequeuePos
  | .popCas pos => pos ≤ q.dequeuePos ∧ pos + 1 ≤ (q.slot pos).sequence
  | .popTake pos => pos < q.dequeuePos ∧ q.dequeuePos ≤ pos + cap ∧
      (q.slot pos).sequence = pos + 1 ∧ (q.slot pos).value = acc[pos]?
  | .popStore pos item => pos < q.dequeuePos ∧ q.dequeuePos ≤ pos + cap ∧
      (q.slot pos).sequence = pos + 1 ∧ (q.slot pos).value = none ∧ item = acc[pos]?
  | _ => True

structure Inv (cap : Nat) (q : MpmcQueue α) (call : ι → Call α) (acc : List α) : Prop where
  two_le : 2 ≤ cap
  mask : q.mask + 1 = cap
  index : ∀ p p', p &&& q.mask = p' &&& q.mask ↔ p % cap = p' % cap
  length : acc.length = q.enqueuePos
  deq_le : q.dequeuePos ≤ q.enqueuePos
  enq_le : q.enqueuePos ≤ q.dequeuePos + cap
  window : ∀ p, q.dequeuePos ≤ p → p < q.dequeuePos + cap → Phase cap q call acc p
  locals : ∀ t, Local cap q acc (call t)
  push_unique : ∀ t t' p, (call t).pushing = some p → (call t').pushing = some p → t = t'
  pop_unique : ∀ t t' p, (call t).popping = some p → (call t').popping = some p → t = t'

section Update
variable [DecidableEq ι] {call : ι → Call α} {t : ι} {c' : Call α} {f : Call α → Option Nat}

theorem exists_update {p : Nat} (h : ∃ t', f (call t') = some p)
    (hk : f (call t) = some p → f c' = some p) :
    ∃ t', f (Function.update call t c' t') = some p := by
  obtain ⟨t', ht'⟩ := h
  refine ⟨t', ?_⟩
  by_cases he : t' = t
  · subst he
    simpa using hk ht'
  · simpa [he] using ht'

/-- A thread that keeps its position, or takes one nobody holds, breaks no uniqueness. -/
theorem unique_update (h : ∀ t t' p, f (call t) = some p → f (call t') = some p → t = t')
    (hk : ∀ p, f c' = some p → f (call t) = some p ∨ ∀ t', f (call t') ≠ some p) :
    ∀ t₁ t₂ p, f (Function.update call t c' t₁) = some p →
      f (Function.update call t c' t₂) = some p → t₁ = t₂ := by
  intro t₁ t₂ p h₁ h₂
  by_cases e₁ : t₁ = t <;> by_cases e₂ : t₂ = t
  · rw [e₁, e₂]
  · rw [e₁, Function.update_self] at h₁
    rw [Function.update_of_ne e₂] at h₂
    cases hk p h₁ with
    | inl hp => exact e₁.trans (h t t₂ p hp h₂)
    | inr hp => exact absurd h₂ (hp t₂)
  · rw [e₂, Function.update_self] at h₂
    rw [Function.update_of_ne e₁] at h₁
    cases hk p h₂ with
    | inl hp => exact (h t₁ t p h₁ hp).trans e₂.symm
    | inr hp => exact absurd h₁ (hp t₁)
  · rw [Function.update_of_ne e₁] at h₁
    rw [Function.update_of_ne e₂] at h₂
    exact h t₁ t₂ p h₁ h₂

end Update

section Facts
variable {cap : Nat} {q : MpmcQueue α} {call : ι → Call α} {acc : List α}

theorem Inv.same_slot (h : Inv cap q call acc) {p p' : Nat} (hp : p % cap = p' % cap) :
    q.slot p = q.slot p' := slot_congr q ((h.index p p').mpr hp)

theorem Inv.pushing_spec (h : Inv cap q call acc) {t : ι} {p : Nat}
    (hp : (call t).pushing = some p) :
    q.dequeuePos ≤ p ∧ p < q.enqueuePos ∧ (q.slot p).sequence = p := by
  have hl := h.locals t
  cases hc : call t <;> simp_all [Call.pushing, Local]

theorem Inv.popping_spec (h : Inv cap q call acc) {t : ι} {p : Nat}
    (hp : (call t).popping = some p) :
    p < q.dequeuePos ∧ q.dequeuePos ≤ p + cap ∧ (q.slot p).sequence = p + 1 := by
  have hl := h.locals t
  cases hc : call t <;> simp_all [Call.popping, Local]

/-- The slot of a position being popped is still draining one round later. -/
theorem Inv.popping_drains (h : Inv cap q call acc) {t : ι} {p : Nat}
    (hp : (call t).popping = some p) : q.enqueuePos ≤ p + cap := by
  obtain ⟨hlt, hle, hs⟩ := h.popping_spec hp
  have hcap := h.two_le
  have hslot : q.slot (p + cap) = q.slot p := h.same_slot (by simp)
  cases h.window (p + cap) hle (by omega) with
  | free hf _ _ => rw [hslot] at hf; omega
  | full hf _ _ => rw [hslot] at hf; omega
  | draining _ _ he _ => exact he

/-- No two threads are inside the protected part of the same slot. -/
theorem Inv.exclusive (h : Inv cap q call acc) {t t' : ι} (hne : t ≠ t') {p p' : Nat}
    (hp : (call t).owns = some p) (hp' : (call t').owns = some p') : p % cap ≠ p' % cap := by
  intro hm
  have hslot := h.same_slot hm
  have hcap := h.two_le
  have hsucc (a : Nat) : (a + 1) % cap ≠ a % cap := Residue.succ_mod_ne hcap
  rcases owns_eq_some_iff.mp hp with hp | hp <;> rcases owns_eq_some_iff.mp hp' with hp' | hp'
  · obtain ⟨_, _, hs⟩ := h.pushing_spec hp
    obtain ⟨_, _, hs'⟩ := h.pushing_spec hp'
    obtain rfl : p = p' := by rw [← hs, ← hs', hslot]
    exact hne (h.push_unique t t' p hp hp')
  · obtain ⟨_, _, hs⟩ := h.pushing_spec hp
    obtain ⟨_, _, hs'⟩ := h.popping_spec hp'
    obtain rfl : p = p' + 1 := by rw [← hs, ← hs', hslot]
    exact hsucc p' hm
  · obtain ⟨_, _, hs⟩ := h.popping_spec hp
    obtain ⟨_, _, hs'⟩ := h.pushing_spec hp'
    obtain rfl : p' = p + 1 := by rw [← hs, ← hs', hslot]
    exact hsucc p hm.symm
  · obtain ⟨_, _, hs⟩ := h.popping_spec hp
    obtain ⟨_, _, hs'⟩ := h.popping_spec hp'
    obtain rfl : p = p' := by rw [hslot] at hs; omega
    exact hne (h.pop_unique t t' p hp hp')

/-- A push that read its own position and wins the compare-exchange finds the
slot free: the sequence number cannot have moved since. -/
theorem Inv.claim_free (h : Inv cap q call acc)
    (hs : q.enqueuePos ≤ (q.slot q.enqueuePos).sequence) :
    q.enqueuePos < q.dequeuePos + cap ∧ (q.slot q.enqueuePos).sequence = q.enqueuePos ∧
      (q.slot q.enqueuePos).value = none := by
  have hcap := h.two_le
  have hlt : q.enqueuePos < q.dequeuePos + cap := by
    by_contra hge
    have he : q.enqueuePos = q.dequeuePos + cap := by have := h.enq_le; omega
    have hslot : q.slot q.enqueuePos = q.slot q.dequeuePos := h.same_slot (by simp [he])
    rw [hslot] at hs
    cases h.window q.dequeuePos le_rfl (by omega) with
    | free hf _ _ => omega
    | full hf _ _ => omega
    | draining _ hf _ _ => omega
  cases h.window q.enqueuePos h.deq_le hlt with
  | free hf hv _ => exact ⟨hlt, hf, hv le_rfl⟩
  | full _ he _ => omega
  | draining _ hf _ _ => omega

/-- A pop that wins the compare-exchange finds the slot full. -/
theorem Inv.claim_full (h : Inv cap q call acc)
    (hs : q.dequeuePos + 1 ≤ (q.slot q.dequeuePos).sequence) :
    q.dequeuePos < q.enqueuePos ∧ (q.slot q.dequeuePos).sequence = q.dequeuePos + 1 ∧
      (q.slot q.dequeuePos).value = acc[q.dequeuePos]? := by
  have hcap := h.two_le
  cases h.window q.dequeuePos le_rfl (by omega) with
  | free hf _ _ => omega
  | full hf he hv => exact ⟨he, hf, hv⟩
  | draining _ hf _ _ => omega

/-- The slot of a position that pops have passed serves a position of the window now. -/
theorem Inv.later_round (h : Inv cap q call acc) {p : Nat} (hp : p < q.dequeuePos) :
    ∃ r, q.dequeuePos ≤ r ∧ r < q.dequeuePos + cap ∧ p + cap ≤ r ∧ q.slot r = q.slot p := by
  have hcap := h.two_le
  obtain ⟨r, hr, hr', hm⟩ := Residue.exists_window (n := cap) (by omega) q.dequeuePos p
  have hd : (r - p) % cap = 0 := Nat.sub_mod_eq_zero_of_mod_eq hm
  have hle : cap ≤ r - p := Nat.le_of_dvd (by omega) (Nat.dvd_of_mod_eq_zero hd)
  exact ⟨r, hr, hr', by omega, h.same_slot hm⟩

/-- A position that pops have passed keeps a sequence number beyond its own. -/
theorem Inv.passed (h : Inv cap q call acc) {p : Nat} (hp : p < q.dequeuePos) :
    p + 1 ≤ (q.slot p).sequence := by
  have hcap := h.two_le
  obtain ⟨r, hr, hr', hge, hslot⟩ := h.later_round hp
  rw [← hslot]
  cases h.window r hr hr' with
  | free hs _ _ => omega
  | full hs _ _ => omega
  | draining _ hs _ _ => omega

/-- A position whose pop is over has passed to the next round. -/
theorem Inv.released (h : Inv cap q call acc) {p : Nat} (hp : p < q.dequeuePos)
    (hno : ∀ t, (call t).popping ≠ some p) : (q.slot p).sequence ≠ p + 1 := by
  have hcap := h.two_le
  obtain ⟨r, hr, hr', hge, hslot⟩ := h.later_round hp
  rw [← hslot]
  cases h.window r hr hr' with
  | free hs _ _ => omega
  | full hs _ _ => omega
  | draining _ hs _ ho =>
    intro he
    obtain ⟨t, ht⟩ := ho
    exact hno t (by rw [ht]; congr 1; omega)

/-- "Empty" is answered at the head, and only when no push has claimed it or
the one that has is still under way. -/
theorem Inv.empty_answer (h : Inv cap q call acc) {pos : Nat} (hpos : pos ≤ q.dequeuePos)
    (hs : (q.slot pos).sequence ≤ pos) :
    q.enqueuePos = q.dequeuePos ∨ ∃ t, (call t).pushing = some q.dequeuePos := by
  have hcap := h.two_le
  have hhead : pos = q.dequeuePos := by
    by_contra hne
    have := h.passed (p := pos) (by omega)
    omega
  subst hhead
  cases h.window q.dequeuePos le_rfl (by omega) with
  | free hf hv ho =>
    cases Nat.lt_or_ge q.dequeuePos q.enqueuePos with
    | inl hlt => exact Or.inr (ho hlt)
    | inr hge => exact Or.inl (le_antisymm hge h.deq_le)
  | full hf _ _ => omega
  | draining _ _ he _ => exact Or.inl (le_antisymm he h.deq_le)

/-- "Full" is answered at the tail, and only when no pop has claimed any of the
last `cap` positions or the first of them is still being popped. -/
theorem Inv.full_answer (h : Inv cap q call acc) {pos : Nat} (hpos : pos ≤ q.enqueuePos)
    (hs : (q.slot pos).sequence < pos) :
    cap ≤ q.enqueuePos ∧ (q.enqueuePos = q.dequeuePos + cap ∨
      ∃ t, (call t).popping = some (q.enqueuePos - cap)) := by
  have hcap := h.two_le
  have htail : pos = q.enqueuePos := by
    by_contra hne
    cases Nat.lt_or_ge pos q.dequeuePos with
    | inl hlt =>
      have := h.passed hlt
      omega
    | inr hge =>
      have hle := h.enq_le
      cases h.window pos hge (by omega) with
      | free hf _ _ => omega
      | full hf _ _ => omega
      | draining _ _ he _ => omega
  subst htail
  cases Nat.lt_or_ge q.enqueuePos (q.dequeuePos + cap) with
  | inl hlt =>
    cases h.window q.enqueuePos h.deq_le hlt with
    | free hf _ _ => omega
    | full _ he _ => omega
    | draining hc _ _ ho => exact ⟨hc, Or.inr ho⟩
  | inr hge =>
    have hle := h.enq_le
    exact ⟨by omega, Or.inl (by omega)⟩

end Facts

end ThreatEngine.Queue
