import Mathlib.Data.Fintype.Basic
import ThreatEngine.Lib.Exchange
import ThreatEngine.Queue.History

/-! Every accepted item is delivered exactly once. -/
namespace ThreatEngine.Queue
variable {ι α : Type*} [DecidableEq ι]

/-- The item that a thread holds outside every slot: a push that has claimed
but not written, or a pop that has taken but not returned. -/
def hand : Call α → Multiset α
  | .pushWrite item _ => {item}
  | .popStore _ item => Exchange.single item
  | _ => 0

/-- The items in the slots. -/
def MpmcQueue.stored (q : MpmcQueue α) : Multiset α := Exchange.contents Slot.value q.buffer

def returnedItems (h : List (Event ι α)) : List α := (returned h).filterMap Prod.snd

/-- The delivery guarantee in one state of the threads around a queue. -/
structure ExactlyOnce [Fintype ι] (s : State ι α) : Prop where
  /-- No two threads are between compare-exchange and sequence store on one slot. -/
  exclusive : ∀ t t' p p', t ≠ t' → (s.call t).owns = some p → (s.call t').owns = some p' →
    p &&& s.queue.mask ≠ p' &&& s.queue.mask
  /-- A push writes into a slot that holds `None`. -/
  write_into_none : ∀ t x p, s.call t = .pushWrite x p → (s.queue.slot p).value = none
  /-- A take finds `Some`. -/
  take_from_some : ∀ t p, s.call t = .popTake p → ∃ x, (s.queue.slot p).value = some x
  /-- Only the push that claimed a position writes there, and it writes its own item. -/
  write_claimed : ∀ t p x, .write t p x ∈ s.history → .pushClaim t p x ∈ s.history
  /-- A push that has returned had claimed its position and has written its item there. -/
  push_delivered : ∀ t p, .pushOk t p ∈ s.history →
    ∃ x, .pushClaim t p x ∈ s.history ∧ .write t p x ∈ s.history
  /-- The pop that claimed `p` returns what the push that claimed `p` wrote. -/
  returns_written : ∀ t p r, .popOk t p r ∈ s.history →
    ∃ t' x, .pushClaim t' p x ∈ s.history ∧ .write t' p x ∈ s.history ∧ r = some x
  push_claims_once : (pushClaims s.history).Nodup
  pop_claims_once : (popClaims s.history).Nodup
  /-- Nothing is lost and nothing is duplicated. -/
  conserved : (accepted s.history : Multiset α) =
    returnedItems s.history + s.queue.stored + ∑ t, hand (s.call t)

omit [DecidableEq ι] in
theorem returnedItems_append (h h' : List (Event ι α)) :
    returnedItems (h ++ h') = returnedItems h ++ returnedItems h' := by
  simp [returnedItems]

theorem stored_storeSequence (q : MpmcQueue α) (pos n : Nat) :
    (q.storeSequence pos n).stored = q.stored := by
  have h := Exchange.contents_set Slot.value q.buffer (pos &&& q.mask) (q.index_lt pos)
    { q.slot pos with sequence := n }
  exact add_right_cancel h

theorem stored_storeValue (q : MpmcQueue α) (pos : Nat) (v : Option α) :
    (q.storeValue pos v).stored + Exchange.single (q.slot pos).value = q.stored + Exchange.single v :=
  Exchange.contents_set Slot.value q.buffer (pos &&& q.mask) (q.index_lt pos)
    { q.slot pos with value := v }

section Conservation
variable {cap : Nat} {q q' : MpmcQueue α} {call : ι → Call α} {h : List (Event ι α)} {t : ι}

omit [DecidableEq ι] in
/-- What one step accepts, plus what its slot and its thread held before, is
what it returns plus what they hold after. -/
theorem move_exchange {acc : List α} {c c' : Call α} (hl : Local cap q acc c)
    (hm : Move q c q' c') : (accepted (observe t c c') : Multiset α) + q.stored + hand c =
      returnedItems (observe t c c') + q'.stored + hand c' := by
  cases hm with
  | pushClaim x pos _ =>
    change ({x} : Multiset α) + q.stored + 0 = 0 + q.stored + {x}
    abel
  | write x pos =>
    obtain ⟨_, _, _, hnone, _⟩ := hl
    have hst := stored_storeValue q pos (some x)
    rw [hnone] at hst
    change 0 + q.stored + {x} = 0 + (q.storeValue pos (some x)).stored + 0
    simpa [Exchange.single] using hst.symm
  | publish pos => rw [stored_storeSequence]; rfl
  | take pos =>
    have hst := stored_storeValue q pos none
    change 0 + q.stored + 0 = 0 + (q.storeValue pos none).stored + Exchange.single (q.slot pos).value
    simpa [Exchange.single] using hst.symm
  | release pos r =>
    rw [stored_storeSequence]
    cases r with
    | none => rfl
    | some x =>
      change 0 + q.stored + {x} = {x} + q.stored + 0
      abel
  | _ => rfl

variable [Fintype ι]

def Conserved (q : MpmcQueue α) (call : ι → Call α) (h : List (Event ι α)) : Prop :=
  (accepted h : Multiset α) = returnedItems h + q.stored + ∑ t, hand (call t)

theorem Conserved.move (hi : Inv cap q call (accepted h)) (hcons : Conserved q call h)
    {c c' : Call α} (hc : call t = c) (hm : Move q c q' c') :
    Conserved q' (Function.update call t c') (h ++ observe t c c') := by
  have hex := move_exchange (t := t) (hc ▸ hi.locals t) hm
  have hsum := Exchange.sum_update_add hand call t c'
  rw [hc] at hsum
  classical
  unfold Conserved at hcons ⊢
  ext a
  replace hcons := congrArg (Multiset.count a) hcons
  replace hsum := congrArg (Multiset.count a) hsum
  replace hex := congrArg (Multiset.count a) hex
  simp only [accepted_append, returnedItems_append, ← Multiset.coe_add, Multiset.count_add]
    at hcons hsum hex ⊢
  omega

theorem Conserved.start (hcons : Conserved q call h) {op : Op α} (hf : (call t).finished = true) :
    Conserved q (Function.update call t op.start) h := by
  have hsum := Exchange.sum_update_add hand call t op.start
  have hold : hand (call t) = 0 := by cases hc : call t <;> simp_all [Call.finished, hand]
  have hnew : hand op.start = 0 := by cases op <;> rfl
  rw [hold, hnew, add_zero, add_zero] at hsum
  rw [Conserved, hsum]
  exact hcons

theorem conserved_of_reachable {k : Nat} (hk : 1 ≤ k) {s : State ι α}
    (hr : (threads ι α k).Reachable s) : Conserved s.queue s.call s.history := by
  refine hr.rule (P := fun s => Conserved s.queue s.call s.history) ?_ ?_
  · simp [Conserved, threads, State.init, hand, accepted, returnedItems, returned, MpmcQueue.stored,
      MpmcQueue.ofCapacity, Exchange.contents, List.filterMap_map]
  · intro s a u hs ih hstep
    obtain ⟨t, op, _, hf, rfl⟩ | ⟨t, b, q', c', _, hm, rfl⟩ := step_cases hstep
    · exact ih.start hf
    · exact ih.move (inv_of_reachable hk hs) rfl hm

end Conservation

theorem exactly_once [Fintype ι] {k : Nat} (hk : 1 ≤ k) {s : State ι α}
    (hr : (threads ι α k).Reachable s) : ExactlyOnce s := by
  have hi := inv_of_reachable hk hr
  have hrec := recorded_of_reachable hk hr
  refine ⟨?_, ?_, ?_, hrec.writes.write_claim, ?_, ?_, ?_, ?_, ?_⟩
  · intro t t' p p' hne hp hp' hm
    exact hi.exclusive hne hp hp' ((hi.index p p').mp hm)
  · intro t x p hc
    have hl : Local _ s.queue _ (.pushWrite x p) := hc ▸ hi.locals t
    exact hl.2.2.2.1
  · intro t p hc
    have hl : Local _ s.queue _ (.popTake p) := hc ▸ hi.locals t
    have hlt : p < (accepted s.history).length := hi.length ▸ hl.1.trans_le hi.deq_le
    exact ⟨_, hl.2.2.2.trans (List.getElem?_eq_getElem hlt)⟩
  · intro t p hp
    obtain ⟨x, hx⟩ := hrec.stores.returned t p hp
    exact ⟨x, hrec.writes.write_claim t p x hx, hx⟩
  · intro t p r hp
    obtain ⟨hval, hlt, _⟩ := hrec.returns.pop_ok t p r hp
    cases hrec.writes.written p (hlt.trans_le hi.deq_le) with
    | inl ho =>
      obtain ⟨t', x, hcl, hw⟩ := ho
      exact ⟨t', x, hcl, hw, hval.trans (hrec.claimed.claim_item t' p x hcl)⟩
    | inr ho =>
      obtain ⟨t', x, hc⟩ := ho
      have hd := (hi.pushing_spec (t := t') (p := p) (by simp [hc, Call.pushing])).1
      exact absurd hlt (Nat.not_lt.mpr hd)
  · exact hrec.claimed.push_claims ▸ List.nodup_range
  · exact hrec.claimed.pop_claims ▸ List.nodup_range
  · exact conserved_of_reachable hk hr

/-- One push and one pop by two threads around a queue of capacity 2. -/
def handover : List (Action (Fin 2) Nat) :=
  [.call 0 (.push 7), .call 1 .pop] ++ List.replicate 5 (.step 0 false) ++ List.replicate 5 (.step 1 false)

theorem exactly_once_handover :
    ExactlyOnce (((threads (Fin 2) Nat 1).exec (threads (Fin 2) Nat 1).init handover).get (by decide)) :=
  exactly_once le_rfl ⟨handover, (Option.some_get _).symm⟩

end ThreatEngine.Queue
