import ThreatEngine.Queue.Invariant

/-! Every atomic step keeps the invariant of the shared queue. -/
namespace ThreatEngine.Queue
variable {ι α : Type*} [DecidableEq ι]
variable {cap : Nat} {q : MpmcQueue α} {call : ι → Call α} {acc : List α} {t : ι}

theorem Phase.update {p : Nat} (h : Phase cap q call acc p) (t : ι) (c' : Call α)
    (hpush : (call t).pushing = some p → p < q.enqueuePos → c'.pushing = some p)
    (hpop : cap ≤ p → (call t).popping = some (p - cap) → c'.popping = some (p - cap)) :
    Phase cap q (Function.update call t c') acc p := by
  cases h with
  | free hs hv ho => exact .free hs hv fun hp => exists_update (ho hp) fun hc => hpush hc hp
  | full hs he hv => exact .full hs he hv
  | draining hc hs he ho => exact .draining hc hs he (exists_update ho (hpop hc))

omit [DecidableEq ι] in
theorem Phase.frame {q' : MpmcQueue α} {p : Nat} (h : Phase cap q call acc p)
    (hs : q'.slot p = q.slot p) (he : q'.enqueuePos = q.enqueuePos) : Phase cap q' call acc p := by
  cases h with
  | free hf hv ho => exact .free (hs ▸ hf) (by rw [hs, he]; exact hv) (by rw [he]; exact ho)
  | full hf hp hv => exact .full (hs ▸ hf) (he ▸ hp) (hs ▸ hv)
  | draining hc hf hp ho => exact .draining hc (hs ▸ hf) (he ▸ hp) ho

/-- What a thread relies on survives a store to a slot that it does not own. -/
theorem Local.frame {q' : MpmcQueue α} {c : Call α} (h : Local cap q acc c)
    (he : q'.enqueuePos = q.enqueuePos) (hd : q'.dequeuePos = q.dequeuePos)
    (hs : ∀ p, c.owns = some p → q'.slot p = q.slot p)
    (hm : ∀ p, (q.slot p).sequence ≤ (q'.slot p).sequence) : Local cap q' acc c := by
  cases c with
  | pushSeq x p => simpa [Local, he] using h
  | pushCas x p => exact ⟨he ▸ h.1, h.2.trans (hm p)⟩
  | pushWrite x p => simpa [Local, he, hd, hs p rfl] using h
  | pushStore p => simpa [Local, he, hd, hs p rfl] using h
  | popSeq p => simpa [Local, hd] using h
  | popCas p => exact ⟨hd ▸ h.1, h.2.trans (hm p)⟩
  | popTake p => simpa [Local, hd, hs p rfl] using h
  | popStore p r => simpa [Local, hd, hs p rfl] using h
  | _ => trivial

/-- Loads, failed compare-exchanges and returns touch nothing shared. -/
theorem Inv.silent (h : Inv cap q call acc) {c' : Call α} (ho : (call t).owns = none)
    (ho' : c'.owns = none) (hl : Local cap q acc c') : Inv cap q (Function.update call t c') acc := by
  obtain ⟨hpush, hpop⟩ := owns_eq_none_iff.mp ho
  obtain ⟨hpush', hpop'⟩ := owns_eq_none_iff.mp ho'
  refine ⟨h.two_le, h.mask, h.index, h.length, h.deq_le, h.enq_le, ?_, ?_, ?_, ?_⟩
  · intro p h₁ h₂
    exact (h.window p h₁ h₂).update t c' (by simp [hpush]) (by simp [hpop])
  · exact (Function.forall_update_iff call fun _ c => Local cap q acc c).mpr ⟨hl, fun t' _ => h.locals t'⟩
  · exact unique_update h.push_unique (by simp [hpush'])
  · exact unique_update h.pop_unique (by simp [hpop'])

omit [DecidableEq ι] in
theorem Inv.slot_storeSequence (h : Inv cap q call acc) {pos p : Nat} (n : Nat)
    (hne : pos % cap ≠ p % cap) : (q.storeSequence pos n).slot p = q.slot p := by
  rw [MpmcQueue.storeSequence, slot_setSlot, if_neg (fun he => hne ((h.index pos p).mp he))]

omit [DecidableEq ι] in
theorem Inv.slot_storeValue (h : Inv cap q call acc) {pos p : Nat} (v : Option α)
    (hne : pos % cap ≠ p % cap) : (q.storeValue pos v).slot p = q.slot p := by
  rw [MpmcQueue.storeValue, slot_setSlot, if_neg (fun he => hne ((h.index pos p).mp he))]

omit [DecidableEq ι] in
theorem slot_storeSequence_self (pos n : Nat) :
    (q.storeSequence pos n).slot pos = { q.slot pos with sequence := n } := by
  rw [MpmcQueue.storeSequence, slot_setSlot, if_pos rfl]

omit [DecidableEq ι] in
theorem slot_storeValue_self (pos : Nat) (v : Option α) :
    (q.storeValue pos v).slot pos = { q.slot pos with value := v } := by
  rw [MpmcQueue.storeValue, slot_setSlot, if_pos rfl]

theorem Inv.pushClaim (h : Inv cap q call acc) {x : α} {pos : Nat} (hc : call t = .pushCas x pos)
    (hpos : q.enqueuePos = pos) :
    Inv cap { q with enqueuePos := pos + 1 } (Function.update call t (.pushWrite x pos)) (acc ++ [x]) := by
  subst hpos
  have hl : Local cap q acc (.pushCas x q.enqueuePos) := hc ▸ h.locals t
  obtain ⟨hlt, hseq, hval⟩ := h.claim_free hl.2
  have hold {p : Nat} (hp : p < q.enqueuePos) : (acc ++ [x])[p]? = acc[p]? :=
    List.getElem?_append_left (h.length ▸ hp)
  have hnew : (acc ++ [x])[q.enqueuePos]? = some x := by simp [← h.length]
  refine ⟨h.two_le, h.mask, h.index, by simp [h.length], Nat.le_succ_of_le h.deq_le, hlt,
    ?_, ?_, ?_, ?_⟩
  · intro p h₁ h₂
    by_cases hp : p = q.enqueuePos
    · subst hp
      exact .free hseq (fun hle => by simp at hle) fun _ => ⟨t, by simp [Call.pushing]⟩
    · cases h.window p h₁ h₂ with
      | free hs hv ho =>
        refine .free hs (fun hle => hv (Nat.le_of_succ_le hle)) fun hp' => ?_
        exact exists_update (ho (by simp at hp'; omega)) (by simp [hc, Call.pushing])
      | full hs he hv => exact .full hs (Nat.lt_succ_of_lt he) (hv.trans (hold he).symm)
      | draining hcp hs he ho =>
        refine .draining hcp hs ?_ (exists_update ho (by simp [hc, Call.popping]))
        simp only
        omega
  · refine (Function.forall_update_iff call fun _ c =>
      Local cap { q with enqueuePos := q.enqueuePos + 1 } (acc ++ [x]) c).mpr ⟨?_, fun t' _ => ?_⟩
    · exact ⟨h.deq_le, Nat.lt_succ_self _, hseq, hval, hnew⟩
    · have hl' := h.locals t'
      cases hc' : call t' with
      | pushSeq y p => rw [hc'] at hl'; exact Nat.le_succ_of_le hl'
      | pushCas y p => rw [hc'] at hl'; exact ⟨Nat.le_succ_of_le hl'.1, hl'.2⟩
      | pushWrite y p =>
        rw [hc'] at hl'
        exact ⟨hl'.1, Nat.lt_succ_of_lt hl'.2.1, hl'.2.2.1, hl'.2.2.2.1, (hold hl'.2.1).trans hl'.2.2.2.2⟩
      | pushStore p =>
        rw [hc'] at hl'
        exact ⟨hl'.1, Nat.lt_succ_of_lt hl'.2.1, hl'.2.2.1, hl'.2.2.2.trans (hold hl'.2.1).symm⟩
      | popTake p =>
        rw [hc'] at hl'
        exact ⟨hl'.1, hl'.2.1, hl'.2.2.1, hl'.2.2.2.trans (hold (hl'.1.trans_le h.deq_le)).symm⟩
      | popStore p r =>
        rw [hc'] at hl'
        exact ⟨hl'.1, hl'.2.1, hl'.2.2.1, hl'.2.2.2.1,
          hl'.2.2.2.2.trans (hold (hl'.1.trans_le h.deq_le)).symm⟩
      | popSeq p => rw [hc'] at hl'; exact hl'
      | popCas p => rw [hc'] at hl'; exact hl'
      | _ => trivial
  · refine unique_update h.push_unique fun p hp => Or.inr fun t' ht' => ?_
    obtain rfl : q.enqueuePos = p := by simpa [Call.pushing] using hp
    exact absurd (h.pushing_spec ht').2.1 (lt_irrefl _)
  · exact unique_update h.pop_unique fun p hp => by simp [Call.popping] at hp

theorem Inv.write (h : Inv cap q call acc) {x : α} {pos : Nat} (hc : call t = .pushWrite x pos) :
    Inv cap (q.storeValue pos (some x)) (Function.update call t (.pushStore pos)) acc := by
  have hl : Local cap q acc (.pushWrite x pos) := hc ▸ h.locals t
  obtain ⟨hd, he, hseq, _, hacc⟩ := hl
  have hown : (call t).owns = some pos := by simp [hc, Call.owns]
  refine ⟨h.two_le, h.mask, h.index, h.length, h.deq_le, h.enq_le, ?_, ?_, ?_, ?_⟩
  · intro p h₁ h₂
    have hph := (h.window p h₁ h₂).update t (.pushStore pos)
      (fun hp _ => by simpa [hc, Call.pushing] using hp) (by simp [hc, Call.popping])
    by_cases hm : pos % cap = p % cap
    · obtain rfl := Residue.eq_of_window hd (he.trans_le h.enq_le) h₁ h₂ hm
      refine .free ((sequence_storeValue ..).trans hseq) (fun hle => ?_) fun _ => ⟨t, by simp [Call.pushing]⟩
      exact absurd hle (Nat.not_le.mpr he)
    · exact hph.frame (h.slot_storeValue _ hm) rfl
  · refine (Function.forall_update_iff call fun _ c => Local cap _ acc c).mpr ⟨?_, fun t' ht' => ?_⟩
    · refine ⟨hd, he, (sequence_storeValue ..).trans hseq, ?_⟩
      rw [slot_storeValue_self, hacc]
    · exact (h.locals t').frame rfl rfl
        (fun p hp => h.slot_storeValue _ (h.exclusive ht'.symm hown hp)) fun p => (sequence_storeValue ..).ge
  · exact unique_update h.push_unique fun p hp => Or.inl (by simpa [hc, Call.pushing] using hp)
  · exact unique_update h.pop_unique fun p hp => by simp [Call.popping] at hp

omit [DecidableEq ι] in
/-- A sequence store by the owner of a slot never lowers the number. -/
theorem Inv.sequence_le_storeSequence (h : Inv cap q call acc) {pos n : Nat}
    (hn : (q.slot pos).sequence ≤ n) (p : Nat) :
    (q.slot p).sequence ≤ ((q.storeSequence pos n).slot p).sequence := by
  by_cases hm : pos % cap = p % cap
  · rw [← (h.same_slot hm), ← slot_congr (q.storeSequence pos n) ((h.index pos p).mpr hm),
      slot_storeSequence_self]
    exact hn
  · rw [h.slot_storeSequence _ hm]

theorem Inv.publish (h : Inv cap q call acc) {pos : Nat} (hc : call t = .pushStore pos) :
    Inv cap (q.storeSequence pos (pos + 1)) (Function.update call t (.pushOk pos)) acc := by
  have hl : Local cap q acc (.pushStore pos) := hc ▸ h.locals t
  obtain ⟨hd, he, hseq, hval⟩ := hl
  have hown : (call t).owns = some pos := by simp [hc, Call.owns]
  refine ⟨h.two_le, h.mask, h.index, h.length, h.deq_le, h.enq_le, ?_, ?_, ?_, ?_⟩
  · intro p h₁ h₂
    by_cases hm : pos % cap = p % cap
    · obtain rfl := Residue.eq_of_window hd (he.trans_le h.enq_le) h₁ h₂ hm
      refine .full ?_ he ((value_storeSequence ..).trans hval)
      rw [slot_storeSequence_self]
    · have hph := (h.window p h₁ h₂).update t (.pushOk pos)
        (fun hp _ => ?_) (by simp [hc, Call.popping])
      · exact hph.frame (h.slot_storeSequence _ hm) rfl
      · exact absurd (congrArg (· % cap) (by simpa [hc, Call.pushing] using hp)) hm
  · refine (Function.forall_update_iff call fun _ c => Local cap _ acc c).mpr ⟨trivial, fun t' ht' => ?_⟩
    exact (h.locals t').frame rfl rfl
      (fun p hp => h.slot_storeSequence _ (h.exclusive ht'.symm hown hp))
      (h.sequence_le_storeSequence (by omega))
  · exact unique_update h.push_unique fun p hp => by simp [Call.pushing] at hp
  · exact unique_update h.pop_unique fun p hp => by simp [Call.popping] at hp

omit [DecidableEq ι] in
/-- A pop under way keeps later pops at most one round ahead. -/
theorem Inv.drain_room (h : Inv cap q call acc) {p : Nat} (hle : q.dequeuePos ≤ p + cap)
    (hs : (q.slot p).sequence = p + 1) (hd : (q.slot q.dequeuePos).sequence = q.dequeuePos + 1) :
    q.dequeuePos + 1 ≤ p + cap := by
  have hcap := h.two_le
  refine Nat.lt_of_le_of_ne hle fun he => ?_
  have hslot : q.slot q.dequeuePos = q.slot p := h.same_slot (by simp [he])
  rw [hslot] at hd
  omega

theorem Inv.popClaim (h : Inv cap q call acc) {pos : Nat} (hc : call t = .popCas pos)
    (hpos : q.dequeuePos = pos) :
    Inv cap { q with dequeuePos := pos + 1 } (Function.update call t (.popTake pos)) acc := by
  subst hpos
  have hcap := h.two_le
  have hl : Local cap q acc (.popCas q.dequeuePos) := hc ▸ h.locals t
  obtain ⟨hlt, hseq, hval⟩ := h.claim_full hl.2
  refine ⟨h.two_le, h.mask, h.index, h.length, hlt, ?_, ?_, ?_, ?_, ?_⟩
  · have := h.enq_le
    simp only
    omega
  · intro p h₁ h₂
    simp only at h₁ h₂
    by_cases hp : p = q.dequeuePos + cap
    · subst hp
      refine .draining (Nat.le_add_left _ _) ?_ h.enq_le ⟨t, by simp [Call.popping]⟩
      have hslot : q.slot (q.dequeuePos + cap) = q.slot q.dequeuePos := h.same_slot (by simp)
      rw [slot_dequeuePos, hslot, hseq]
      omega
    · have hph := (h.window p (by omega) (by omega)).update t (.popTake q.dequeuePos)
        (by simp [hc, Call.pushing]) (by simp [hc, Call.popping])
      exact hph.frame rfl rfl
  · refine (Function.forall_update_iff call fun _ c =>
      Local cap { q with dequeuePos := q.dequeuePos + 1 } acc c).mpr ⟨?_, fun t' _ => ?_⟩
    · exact ⟨Nat.lt_succ_self _, by simp only; omega, hseq, hval⟩
    · have hl' := h.locals t'
      cases hc' : call t' with
      | pushSeq y p => rw [hc'] at hl'; exact hl'
      | pushCas y p => rw [hc'] at hl'; exact hl'
      | pushWrite y p =>
        rw [hc'] at hl'
        refine ⟨Nat.lt_of_le_of_ne hl'.1 fun he => ?_, hl'.2⟩
        have := hl'.2.2.1
        rw [← he] at this
        omega
      | pushStore p =>
        rw [hc'] at hl'
        refine ⟨Nat.lt_of_le_of_ne hl'.1 fun he => ?_, hl'.2⟩
        have := hl'.2.2.1
        rw [← he] at this
        omega
      | popSeq p => rw [hc'] at hl'; exact Nat.le_succ_of_le hl'
      | popCas p => rw [hc'] at hl'; exact ⟨Nat.le_succ_of_le hl'.1, hl'.2⟩
      | popTake p =>
        rw [hc'] at hl'
        exact ⟨Nat.lt_succ_of_lt hl'.1, h.drain_room hl'.2.1 hl'.2.2.1 hseq, hl'.2.2⟩
      | popStore p r =>
        rw [hc'] at hl'
        exact ⟨Nat.lt_succ_of_lt hl'.1, h.drain_room hl'.2.1 hl'.2.2.1 hseq, hl'.2.2⟩
      | _ => trivial
  · exact unique_update h.push_unique fun p hp => by simp [Call.pushing] at hp
  · refine unique_update h.pop_unique fun p hp => Or.inr fun t' ht' => ?_
    obtain rfl : q.dequeuePos = p := by simpa [Call.popping] using hp
    exact absurd (h.popping_spec ht').1 (lt_irrefl _)

theorem Inv.take (h : Inv cap q call acc) {pos : Nat} (hc : call t = .popTake pos) :
    Inv cap (q.storeValue pos none)
      (Function.update call t (.popStore pos (q.slot pos).value)) acc := by
  have hcap := h.two_le
  have hl : Local cap q acc (.popTake pos) := hc ▸ h.locals t
  obtain ⟨hd, hle, hseq, hval⟩ := hl
  have hown : (call t).owns = some pos := by simp [hc, Call.owns]
  refine ⟨h.two_le, h.mask, h.index, h.length, h.deq_le, h.enq_le, ?_, ?_, ?_, ?_⟩
  · intro p h₁ h₂
    have hph := (h.window p h₁ h₂).update t (.popStore pos (q.slot pos).value)
      (by simp [hc, Call.pushing]) (fun _ hp => by simpa [hc, Call.popping] using hp)
    by_cases hm : pos % cap = p % cap
    · obtain rfl : pos + cap = p :=
        Residue.eq_of_window hle (by omega) h₁ h₂ (by simpa using hm)
      have hslot : q.slot (pos + cap) = q.slot pos := h.same_slot (by simp)
      refine .draining (Nat.le_add_left _ _) ?_ (h.popping_drains (t := t) (by simp [hc, Call.popping]))
        ⟨t, by simp [Call.popping]⟩
      rw [sequence_storeValue, hslot]
      omega
    · exact hph.frame (h.slot_storeValue _ hm) rfl
  · refine (Function.forall_update_iff call fun _ c => Local cap _ acc c).mpr ⟨?_, fun t' ht' => ?_⟩
    · refine ⟨hd, hle, (sequence_storeValue ..).trans hseq, ?_, hval⟩
      rw [slot_storeValue_self]
    · exact (h.locals t').frame rfl rfl
        (fun p hp => h.slot_storeValue _ (h.exclusive ht'.symm hown hp)) fun p => (sequence_storeValue ..).ge
  · exact unique_update h.push_unique fun p hp => by simp [Call.pushing] at hp
  · exact unique_update h.pop_unique fun p hp => Or.inl (by simpa [hc, Call.popping] using hp)

theorem Inv.release (h : Inv cap q call acc) {pos : Nat} {r : Option α}
    (hc : call t = .popStore pos r) :
    Inv cap (q.storeSequence pos (pos + (q.mask + 1))) (Function.update call t (.popOk pos r)) acc := by
  have hcap := h.two_le
  rw [h.mask]
  have hl : Local cap q acc (.popStore pos r) := hc ▸ h.locals t
  obtain ⟨hd, hle, hseq, hval, _⟩ := hl
  have hown : (call t).owns = some pos := by simp [hc, Call.owns]
  refine ⟨h.two_le, h.mask, h.index, h.length, h.deq_le, h.enq_le, ?_, ?_, ?_, ?_⟩
  · intro p h₁ h₂
    by_cases hm : pos % cap = p % cap
    · obtain rfl : pos + cap = p :=
        Residue.eq_of_window hle (by omega) h₁ h₂ (by simpa using hm)
      have hdr := h.popping_drains (t := t) (p := pos) (by simp [hc, Call.popping])
      have hslot : (q.storeSequence pos (pos + cap)).slot (pos + cap) =
          (q.storeSequence pos (pos + cap)).slot pos :=
        slot_congr _ ((h.index (pos + cap) pos).mpr (by simp))
      refine .free ?_ (fun _ => ?_) (fun hlt => absurd hlt (Nat.not_lt.mpr hdr))
      · rw [hslot, slot_storeSequence_self]
      · rw [hslot, slot_storeSequence_self]
        exact hval
    · have hph := (h.window p h₁ h₂).update t (.popOk pos r)
        (by simp [hc, Call.pushing]) (fun hcp hp => ?_)
      · exact hph.frame (h.slot_storeSequence _ hm) rfl
      · have hpos : pos = p - cap := by simpa [hc, Call.popping] using hp
        exact absurd (by rw [hpos, ← Nat.mod_eq_sub_mod hcp]) hm
  · refine (Function.forall_update_iff call fun _ c => Local cap _ acc c).mpr ⟨trivial, fun t' ht' => ?_⟩
    exact (h.locals t').frame rfl rfl
      (fun p hp => h.slot_storeSequence _ (h.exclusive ht'.symm hown hp))
      (h.sequence_le_storeSequence (by omega))
  · exact unique_update h.push_unique fun p hp => by simp [Call.pushing] at hp
  · exact unique_update h.pop_unique fun p hp => by simp [Call.popping] at hp

/-- The step lemma. -/
theorem Inv.move (h : Inv cap q call acc) {c c' : Call α} {q' : MpmcQueue α} (hc : call t = c)
    (hm : Move q c q' c') :
    Inv cap q' (Function.update call t c') (acc ++ accepted (observe t c c')) := by
  have hl : Local cap q acc c := hc ▸ h.locals t
  cases hm with
  | pushLoad x =>
    simpa [observe, accepted] using
      h.silent (hc ▸ rfl) rfl (show Local cap q acc (.pushSeq x q.enqueuePos) from le_rfl)
  | pushFree x pos hs =>
    simpa [observe, accepted] using
      h.silent (hc ▸ rfl) rfl (show Local cap q acc (.pushCas x pos) from ⟨hl, hs.ge⟩)
  | pushFull x pos hs =>
    simpa [observe, accepted] using
      h.silent (hc ▸ rfl) rfl (show Local cap q acc (.pushFull x) from trivial)
  | pushStale x pos hs =>
    simpa [observe, accepted] using
      h.silent (hc ▸ rfl) rfl (show Local cap q acc (.pushLoad x) from trivial)
  | pushClaim x pos he => simpa [observe, accepted] using h.pushClaim hc he
  | pushRetry x pos =>
    simpa [observe, accepted] using
      h.silent (hc ▸ rfl) rfl (show Local cap q acc (.pushSeq x q.enqueuePos) from le_rfl)
  | write x pos => simpa [observe, accepted] using h.write hc
  | publish pos => simpa [observe, accepted] using h.publish hc
  | popLoad =>
    simpa [observe, accepted] using
      h.silent (hc ▸ rfl) rfl (show Local cap q acc (.popSeq q.dequeuePos) from le_rfl)
  | popReady pos hs =>
    simpa [observe, accepted] using
      h.silent (hc ▸ rfl) rfl (show Local cap q acc (.popCas pos) from ⟨hl, hs.ge⟩)
  | popEmpty pos hs =>
    simpa [observe, accepted] using
      h.silent (hc ▸ rfl) rfl (show Local cap q acc .popEmpty from trivial)
  | popStale pos hs =>
    simpa [observe, accepted] using
      h.silent (hc ▸ rfl) rfl (show Local cap q acc .popLoad from trivial)
  | popClaim pos hd => simpa [observe, accepted] using h.popClaim hc hd
  | popRetry pos =>
    simpa [observe, accepted] using
      h.silent (hc ▸ rfl) rfl (show Local cap q acc (.popSeq q.dequeuePos) from le_rfl)
  | take pos => simpa [observe, accepted] using h.take hc
  | release pos r => simpa [observe, accepted] using h.release hc

theorem Inv.start (h : Inv cap q call acc) {op : Op α} (hf : (call t).finished = true) :
    Inv cap q (Function.update call t op.start) acc := by
  cases op with
  | push x => exact h.silent (owns_of_finished hf) rfl trivial
  | pop => exact h.silent (owns_of_finished hf) rfl trivial

theorem inv_init {k : Nat} (hk : 1 ≤ k) :
    Inv (2 ^ k) (threads ι α k).init.queue (threads ι α k).init.call [] := by
  have hpos : 0 < 2 ^ k := Nat.two_pow_pos k
  have hmask : 2 ^ k - 1 + 1 = 2 ^ k := Nat.sub_add_cancel hpos
  refine ⟨?_, hmask, fun p p' => ?_, rfl, le_rfl, Nat.zero_le _, fun p _ hp => ?_, fun _ => trivial, ?_, ?_⟩
  · exact (Nat.pow_le_pow_right (by omega) hk : 2 ^ 1 ≤ 2 ^ k)
  · change p &&& (2 ^ k - 1) = p' &&& (2 ^ k - 1) ↔ p % 2 ^ k = p' % 2 ^ k
    rw [Residue.and_mask hmask, Residue.and_mask hmask]
  · have hp' : p < 2 ^ k := by simpa [threads, State.init, MpmcQueue.ofCapacity] using hp
    refine .free ?_ (fun _ => ?_) fun hlt => absurd hlt (Nat.not_lt_zero p)
    · simp [threads, State.init, Residue.and_mask hmask, Nat.mod_eq_of_lt hp']
    · simp [threads, State.init]
  · intro t t' p hp
    simp [threads, State.init, Call.pushing] at hp
  · intro t t' p hp
    simp [threads, State.init, Call.popping] at hp

omit [DecidableEq ι] in
@[simp] theorem accepted_append (h h' : List (Event ι α)) :
    accepted (h ++ h') = accepted h ++ accepted h' := List.filterMap_append

/-- The run lemma: the invariant holds in every reachable state. -/
theorem inv_of_reachable {k : Nat} (hk : 1 ≤ k) {s : State ι α} (hr : (threads ι α k).Reachable s) :
    Inv (2 ^ k) s.queue s.call (accepted s.history) := by
  refine hr.rule (P := fun s => Inv (2 ^ k) s.queue s.call (accepted s.history)) (inv_init hk) ?_
  intro s a u _ ih hs
  obtain ⟨t, op, _, hf, rfl⟩ | ⟨t, b, q', c', _, hm, rfl⟩ := step_cases hs
  · exact ih.start hf
  · simpa using ih.move rfl hm

end ThreatEngine.Queue
