import Mathlib.Data.List.Range
import ThreatEngine.Queue.Steps

/-! What the history of a run says about the state it has reached: which
positions were claimed, written, published and returned, and by which threads. -/
namespace ThreatEngine.Queue
variable {ι α : Type*}

@[simp] theorem returned_append (h h' : List (Event ι α)) :
    returned (h ++ h') = returned h ++ returned h' := List.filterMap_append

@[simp] theorem pushClaims_append (h h' : List (Event ι α)) :
    pushClaims (h ++ h') = pushClaims h ++ pushClaims h' := List.filterMap_append

@[simp] theorem popClaims_append (h h' : List (Event ι α)) :
    popClaims (h ++ h') = popClaims h ++ popClaims h' := List.filterMap_append

/-- Claims are made one position after the other, and `accepted` lists the items by position. -/
structure Claimed (enq deq : Nat) (h : List (Event ι α)) : Prop where
  push_claims : pushClaims h = List.range enq
  pop_claims : popClaims h = List.range deq
  claim_item : ∀ t p x, .pushClaim t p x ∈ h → (accepted h)[p]? = some x

/-- The push that claimed `p` has written its item. -/
def Written (h : List (Event ι α)) (p : Nat) : Prop :=
  ∃ t x, .pushClaim t p x ∈ h ∧ .write t p x ∈ h

structure Writes (enq : Nat) (call : ι → Call α) (h : List (Event ι α)) : Prop where
  write_claim : ∀ t p x, .write t p x ∈ h → .pushClaim t p x ∈ h
  writing : ∀ t x p, call t = .pushWrite x p → .pushClaim t p x ∈ h
  written : ∀ p, p < enq → Written h p ∨ ∃ t x, call t = .pushWrite x p

/-- A push stores the sequence number of a position, and returns, only after it has written there. -/
structure Stores (call : ι → Call α) (h : List (Event ι α)) : Prop where
  storing : ∀ t p, call t = .pushStore p → ∃ x, .write t p x ∈ h
  returned : ∀ t p, .pushOk t p ∈ h → ∃ x, .write t p x ∈ h

/-- A position is reported by at most one return of each kind, and only after
its thread has let go of the slot. -/
structure Returns (enq deq : Nat) (call : ι → Call α) (h : List (Event ι α)) : Prop where
  push_ok : ∀ t p, .pushOk t p ∈ h → p < enq ∧ ∀ t', (call t').pushing ≠ some p
  pop_ok : ∀ t p r, .popOk t p r ∈ h → r = (accepted h)[p]? ∧ p < deq ∧
    ∀ t', (call t').popping ≠ some p
  pop_once : ((returned h).map Prod.fst).Nodup

theorem Written.mono {h h' : List (Event ι α)} {p : Nat} (hw : Written h p) :
    Written (h ++ h') p := by
  obtain ⟨t, x, hc, hw⟩ := hw
  exact ⟨t, x, List.mem_append_left _ hc, List.mem_append_left _ hw⟩

theorem mem_returned {h : List (Event ι α)} {p : Nat} {r : Option α} :
    (p, r) ∈ returned h ↔ ∃ t, .popOk t p r ∈ h := by
  simp only [returned, List.mem_filterMap]
  constructor
  · intro ⟨e, he, hr⟩
    cases e with
    | popOk t p' r' =>
      obtain ⟨rfl, rfl⟩ := by simpa using hr
      exact ⟨t, he⟩
    | _ => simp at hr
  · intro ⟨t, ht⟩
    exact ⟨_, ht, rfl⟩

variable {cap : Nat} {q : MpmcQueue α} {call : ι → Call α} {h : List (Event ι α)} {t : ι}

theorem Claimed.move (hi : Inv cap q call (accepted h)) (hk : Claimed q.enqueuePos q.dequeuePos h)
    {c c' : Call α}
    {q' : MpmcQueue α} (hm : Move q c q' c') : Claimed q'.enqueuePos q'.dequeuePos (h ++ observe t c c') := by
  cases hm with
  | pushClaim x pos he =>
    subst he
    refine ⟨?_, ?_, ?_⟩
    · rw [pushClaims_append, hk.push_claims]
      exact List.range_succ.symm
    · simpa [observe, popClaims] using hk.pop_claims
    · intro t' p y hy
      cases List.mem_append.mp hy with
      | inl hy =>
        have hp := hk.claim_item t' p y hy
        have hlt : p < (accepted h).length := (List.getElem?_eq_some_iff.mp hp).1
        rw [accepted_append, List.getElem?_append_left hlt, hp]
      | inr hy =>
        obtain ⟨rfl, rfl, rfl⟩ := by simpa [observe] using hy
        simp [observe, accepted, ← hi.length]
  | popClaim pos hd =>
    subst hd
    refine ⟨?_, ?_, ?_⟩
    · simpa [observe, pushClaims] using hk.push_claims
    · rw [popClaims_append, hk.pop_claims]
      exact List.range_succ.symm
    · simpa [observe, accepted] using hk.claim_item
  | write x pos | publish pos | take pos | release pos r =>
    refine ⟨?_, ?_, ?_⟩
    · simpa [observe, pushClaims] using hk.push_claims
    · simpa [observe, popClaims] using hk.pop_claims
    · simpa [observe, accepted] using hk.claim_item
  | _ => simpa [observe] using hk

variable [DecidableEq ι]

theorem Writes.silent {enq : Nat} (hw : Writes enq call h) {c' : Call α}
    (ho : ∀ x p, call t ≠ .pushWrite x p)
    (ho' : ∀ x p, c' ≠ .pushWrite x p) : Writes enq (Function.update call t c') h where
  write_claim := hw.write_claim
  writing t' x p hp := by
    by_cases he : t' = t
    · subst he
      exact absurd (by simpa using hp) (ho' x p)
    · exact hw.writing t' x p (by simpa [he] using hp)
  written p hp := by
    cases hw.written p hp with
    | inl hw => exact Or.inl hw
    | inr ho =>
      obtain ⟨t', x, hc⟩ := ho
      have hne : t' ≠ t := fun he => ho x p (he ▸ hc)
      exact Or.inr ⟨t', x, by simpa [hne] using hc⟩

omit [DecidableEq ι] in
/-- Recording an event that is no write changes nothing about writes. -/
theorem Writes.record {enq : Nat} (hw : Writes enq call h) {e : List (Event ι α)}
    (he : ∀ t p x, .write t p x ∉ e) : Writes enq call (h ++ e) where
  write_claim t p x hx := by
    cases List.mem_append.mp hx with
    | inl hx => exact List.mem_append_left _ (hw.write_claim t p x hx)
    | inr hx => exact absurd hx (he t p x)
  writing t x p hp := List.mem_append_left _ (hw.writing t x p hp)
  written p hp := (hw.written p hp).imp_left Written.mono

theorem Writes.move (hw : Writes q.enqueuePos call h) {c c' : Call α} {q' : MpmcQueue α}
    (hc : call t = c)
    (hm : Move q c q' c') : Writes q'.enqueuePos (Function.update call t c') (h ++ observe t c c') := by
  cases hm with
  | pushClaim x pos he =>
    subst he
    refine ⟨?_, ?_, ?_⟩
    · exact (hw.record (by simp [observe])).write_claim
    · intro t' y p hp
      by_cases ht : t' = t
      · subst ht
        obtain ⟨rfl, rfl⟩ : x = y ∧ q.enqueuePos = p := by simpa using hp
        simp [observe]
      · exact List.mem_append_left _ (hw.writing t' y p (by simpa [ht] using hp))
    · intro p hp
      by_cases hpe : p = q.enqueuePos
      · exact Or.inr ⟨t, x, by simp [hpe]⟩
      · cases hw.written p (by simp only at hp; omega) with
        | inl hw => exact Or.inl hw.mono
        | inr ho =>
          obtain ⟨t', y, hy⟩ := ho
          have hne : t' ≠ t := fun he => by simp [he, hc] at hy
          exact Or.inr ⟨t', y, by simpa [hne] using hy⟩
  | write x pos =>
    have hcl := hw.writing t x pos hc
    refine ⟨?_, ?_, ?_⟩
    · intro t' p y hy
      cases List.mem_append.mp hy with
      | inl hy => exact List.mem_append_left _ (hw.write_claim t' p y hy)
      | inr hy =>
        obtain ⟨rfl, rfl, rfl⟩ := by simpa [observe] using hy
        exact List.mem_append_left _ hcl
    · intro t' y p hp
      by_cases ht : t' = t
      · subst ht
        simp at hp
      · exact List.mem_append_left _ (hw.writing t' y p (by simpa [ht] using hp))
    · intro p hp
      cases hw.written p hp with
      | inl hw => exact Or.inl hw.mono
      | inr ho =>
        obtain ⟨t', y, hy⟩ := ho
        by_cases ht : t' = t
        · subst ht
          obtain ⟨rfl, rfl⟩ : x = y ∧ pos = p := by simpa [hc] using hy
          exact Or.inl ⟨t', x, List.mem_append_left _ hcl, by simp [observe]⟩
        · exact Or.inr ⟨t', y, by simpa [ht] using hy⟩
  | publish pos => exact (hw.silent (t := t) (by simp [hc]) (by simp)).record (by simp [observe])
  | popClaim pos hd => exact (hw.silent (t := t) (by simp [hc]) (by simp)).record (by simp [observe])
  | take pos => exact (hw.silent (t := t) (by simp [hc]) (by simp)).record (by simp [observe])
  | release pos r => exact (hw.silent (t := t) (by simp [hc]) (by simp)).record (by simp [observe])
  | _ => simpa [observe] using hw.silent (t := t) (by simp [hc]) (by simp)

theorem Stores.update (hs : Stores call h) (c' : Call α) (e : List (Event ι α))
    (hstore : ∀ p, c' = .pushStore p → ∃ x, .write t p x ∈ h ++ e)
    (hok : ∀ t' p, .pushOk t' p ∈ e → ∃ x, .write t' p x ∈ h ++ e) :
    Stores (Function.update call t c') (h ++ e) where
  storing t' p hp := by
    by_cases he : t' = t
    · subst he
      exact hstore p (by simpa using hp)
    · obtain ⟨x, hx⟩ := hs.storing t' p (by simpa [he] using hp)
      exact ⟨x, List.mem_append_left _ hx⟩
  returned t' p hp := by
    cases List.mem_append.mp hp with
    | inl hp =>
      obtain ⟨x, hx⟩ := hs.returned t' p hp
      exact ⟨x, List.mem_append_left _ hx⟩
    | inr hp => exact hok t' p hp

theorem Stores.move (hs : Stores call h) {c c' : Call α} {q' : MpmcQueue α} (hc : call t = c)
    (hm : Move q c q' c') : Stores (Function.update call t c') (h ++ observe t c c') := by
  cases hm with
  | write x pos => exact hs.update _ _ (by simp [observe]) (by simp [observe])
  | publish pos =>
    obtain ⟨x, hx⟩ := hs.storing t pos hc
    refine hs.update _ _ (by simp) fun t' p hp => ?_
    obtain ⟨rfl, rfl⟩ : t' = t ∧ p = pos := by simpa [observe] using hp
    exact ⟨x, List.mem_append_left _ hx⟩
  | _ => exact hs.update _ _ (by simp) (by simp [observe])

/-- Positions that are claimed only now have not been reported before. -/
theorem Returns.update {enq deq enq' deq' : Nat} (hr : Returns enq deq call h) (c' : Call α)
    (he : enq ≤ enq') (hd : deq ≤ deq')
    (hpush : ∀ p, c'.pushing = some p → (call t).pushing = some p ∨ enq ≤ p)
    (hpop : ∀ p, c'.popping = some p → (call t).popping = some p ∨ deq ≤ p) :
    Returns enq' deq' (Function.update call t c') h where
  push_ok t' p hp := by
    obtain ⟨hlt, hno⟩ := hr.push_ok t' p hp
    refine ⟨hlt.trans_le he, (Function.forall_update_iff call fun _ c => c.pushing ≠ some p).mpr
      ⟨fun hc => ?_, fun t _ => hno t⟩⟩
    exact (hpush p hc).elim (hno t) (Nat.not_le.mpr hlt)
  pop_ok t' p r hp := by
    obtain ⟨hval, hlt, hno⟩ := hr.pop_ok t' p r hp
    refine ⟨hval, hlt.trans_le hd, (Function.forall_update_iff call fun _ c => c.popping ≠ some p).mpr
      ⟨fun hc => ?_, fun t _ => hno t⟩⟩
    exact (hpop p hc).elim (hno t) (Nat.not_le.mpr hlt)
  pop_once := hr.pop_once

omit [DecidableEq ι] in
/-- Recording an event that is no return changes nothing about returns. -/
theorem Returns.record {enq deq : Nat} (hr : Returns enq deq call h) {e : List (Event ι α)}
    (hd : deq ≤ (accepted h).length) (hpush : ∀ t p, .pushOk t p ∉ e)
    (hpop : ∀ t p r, .popOk t p r ∉ e) : Returns enq deq call (h ++ e) where
  push_ok t p hp := by
    cases List.mem_append.mp hp with
    | inl hp => exact hr.push_ok t p hp
    | inr hp => exact absurd hp (hpush t p)
  pop_ok t p r hp := by
    cases List.mem_append.mp hp with
    | inl hp =>
      obtain ⟨hval, hlt, hno⟩ := hr.pop_ok t p r hp
      refine ⟨?_, hlt, hno⟩
      rw [accepted_append, List.getElem?_append_left (hlt.trans_le hd)]
      exact hval
    | inr hp => exact absurd hp (hpop t p r)
  pop_once := by
    have he : returned e = [] := by
      rw [List.eq_nil_iff_forall_not_mem]
      intro ⟨p, r⟩ hm
      obtain ⟨t, ht⟩ := mem_returned.mp hm
      exact hpop t p r ht
    rw [returned_append, he, List.append_nil]
    exact hr.pop_once

theorem Returns.move (hi : Inv cap q call (accepted h))
    (hr : Returns q.enqueuePos q.dequeuePos call h)
    {c c' : Call α} {q' : MpmcQueue α} (hc : call t = c) (hm : Move q c q' c') :
    Returns q'.enqueuePos q'.dequeuePos (Function.update call t c') (h ++ observe t c c') := by
  have hlen : q.dequeuePos ≤ (accepted h).length := hi.length ▸ hi.deq_le
  cases hm with
  | pushClaim x pos he =>
    subst he
    have hup := hr.update (t := t) (.pushWrite x q.enqueuePos) (Nat.le_succ _) le_rfl
      (by simp [Call.pushing]) (by simp [Call.popping])
    exact hup.record hlen (by simp [observe]) (by simp [observe])
  | popClaim pos hd =>
    subst hd
    have hl : Local cap q (accepted h) (.popCas q.dequeuePos) := hc ▸ hi.locals t
    have hup := hr.update (t := t) (.popTake q.dequeuePos) le_rfl (Nat.le_succ _)
      (by simp [Call.pushing]) (by simp [Call.popping])
    exact hup.record (hi.length ▸ (hi.claim_full hl.2).1) (by simp [observe]) (by simp [observe])
  | publish pos =>
    have hown : (call t).pushing = some pos := by simp [hc, Call.pushing]
    obtain ⟨_, hlt, _⟩ := hi.pushing_spec hown
    have hup := hr.update (t := t) (.pushOk pos) le_rfl le_rfl (by simp [Call.pushing]) (by simp [Call.popping])
    refine ⟨fun t' p hp => ?_, fun t' p r hp => ?_, ?_⟩
    · cases List.mem_append.mp hp with
      | inl hp => exact hup.push_ok t' p hp
      | inr hp =>
        obtain ⟨rfl, rfl⟩ : t' = t ∧ p = pos := by simpa [observe] using hp
        refine ⟨hlt, (Function.forall_update_iff call fun _ c => c.pushing ≠ some p).mpr
          ⟨by simp [Call.pushing], fun t₂ ht₂ hc₂ => ht₂ (hi.push_unique t₂ t' p hc₂ hown)⟩⟩
    · simpa [observe, accepted] using hup.pop_ok t' p r (by simpa [observe] using hp)
    · simpa [observe, returned] using hup.pop_once
  | release pos r =>
    have hown : (call t).popping = some pos := by simp [hc, Call.popping]
    obtain ⟨hlt, _, _⟩ := hi.popping_spec hown
    have hval : r = (accepted h)[pos]? :=
      (hc ▸ hi.locals t : Local cap q _ (.popStore pos r)).2.2.2.2
    have hup := hr.update (t := t) (.popOk pos r) le_rfl le_rfl (by simp [Call.pushing]) (by simp [Call.popping])
    refine ⟨fun t' p hp => ?_, fun t' p r' hp => ?_, ?_⟩
    · exact hup.push_ok t' p (by simpa [observe] using hp)
    · cases List.mem_append.mp hp with
      | inl hp =>
        simpa [observe, accepted] using hup.pop_ok t' p r' hp
      | inr hp =>
        obtain ⟨rfl, rfl, rfl⟩ : t' = t ∧ p = pos ∧ r' = r := by simpa [observe] using hp
        refine ⟨by simpa [observe, accepted] using hval, hlt,
          (Function.forall_update_iff call fun _ c => c.popping ≠ some p).mpr
            ⟨by simp [Call.popping], fun t₂ ht₂ hc₂ => ht₂ (hi.pop_unique t₂ t' p hc₂ hown)⟩⟩
    · have hnew : pos ∉ (returned h).map Prod.fst := by
        intro hm
        obtain ⟨⟨p, r'⟩, hp, rfl⟩ := List.mem_map.mp hm
        obtain ⟨t', ht'⟩ := mem_returned.mp hp
        exact (hr.pop_ok t' p r' ht').2.2 t hown
      have hadd : ((returned h).map Prod.fst ++ [pos]).Nodup :=
        List.nodup_append.mpr ⟨hr.pop_once, by simp, by simpa using fun a ha => ne_of_mem_of_not_mem ha hnew⟩
      simpa [observe, returned] using hadd
  | write x pos =>
    have hup := hr.update (t := t) (.pushStore pos) le_rfl le_rfl (by simp [hc, Call.pushing]) (by simp [Call.popping])
    exact hup.record hlen (by simp [observe]) (by simp [observe])
  | take pos =>
    have hup := hr.update (t := t) (.popStore pos (q.slot pos).value) le_rfl le_rfl
      (by simp [Call.pushing]) (by simp [hc, Call.popping])
    exact hup.record hlen (by simp [observe]) (by simp [observe])
  | _ =>
    simpa [observe] using hr.update (t := t) _ le_rfl le_rfl (by simp [Call.pushing]) (by simp [Call.popping])

/-- Everything the history of a reachable state records. -/
structure Recorded (s : State ι α) : Prop where
  claimed : Claimed s.queue.enqueuePos s.queue.dequeuePos s.history
  writes : Writes s.queue.enqueuePos s.call s.history
  stores : Stores s.call s.history
  returns : Returns s.queue.enqueuePos s.queue.dequeuePos s.call s.history

theorem recorded_of_reachable {k : Nat} (hk : 1 ≤ k) {s : State ι α}
    (hr : (threads ι α k).Reachable s) : Recorded s := by
  refine hr.rule (P := Recorded) ?_ ?_
  · exact ⟨⟨rfl, rfl, by simp [threads, State.init]⟩,
      ⟨by simp [threads, State.init], by simp [threads, State.init], fun p hp => absurd hp (Nat.not_lt_zero p)⟩,
      ⟨by simp [threads, State.init], by simp [threads, State.init]⟩,
      ⟨by simp [threads, State.init], by simp [threads, State.init], List.nodup_nil⟩⟩
  · intro s a u hs ih hstep
    have hi := inv_of_reachable hk hs
    obtain ⟨t, op, _, hf, rfl⟩ | ⟨t, b, q', c', _, hm, rfl⟩ := step_cases hstep
    · have hno := owns_eq_none_iff.mp (owns_of_finished hf)
      have hop : op.start.owns = none := by cases op <;> rfl
      refine ⟨ih.claimed, ih.writes.silent (fun x p hc => ?_) (fun x p => by cases op <;> simp [Op.start]),
        ?_, ih.returns.update _ le_rfl le_rfl ?_ ?_⟩
      · simp [hc, Call.pushing] at hno
      · simpa using ih.stores.update (t := t) op.start []
          (fun p hp => by cases op <;> simp [Op.start] at hp) (by simp)
      · simp [(owns_eq_none_iff.mp hop).1]
      · simp [(owns_eq_none_iff.mp hop).2]
    · exact ⟨ih.claimed.move hi hm, ih.writes.move rfl hm, ih.stores.move rfl hm, ih.returns.move hi rfl hm⟩

end ThreatEngine.Queue
