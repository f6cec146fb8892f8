import ThreatEngine.Lib.Atomic
import ThreatEngine.Queue.History

/-! The shared queue linearizes to a bounded FIFO. An accepted push takes effect
at its compare-exchange and a pop that finds an item at its own; a refusal takes
effect at the sequence load, and is given only when the FIFO would refuse or
while another call has taken effect and not returned. -/
namespace ThreatEngine.Queue
open Atomic
variable {ι α : Type*} [DecidableEq ι]

/-- The bounded FIFO between threads. An answer other than its own is given only
to a push while a pop that has its item has not returned, and to a pop while a
push that has been accepted has not returned. -/
def sharedFifo (ι α : Type*) (capacity : Nat) : Object ι (List α) (Op α) (Result α) where
  init := []
  effect st held
    | .push item, held', answer =>
      held.length < capacity ∧ held' = held ++ [item] ∧ answer = .pushed (.ok ()) ∨
        (capacity ≤ held.length ∨ ∃ t x, st t = .decided (.popped (some x))) ∧
          held' = held ∧ answer = .pushed (.error item)
    | .pop, held', answer =>
      (∃ item, held = item :: held' ∧ answer = .popped (some item)) ∨
        (held = [] ∨ ∃ t, st t = .decided (.pushed (.ok ()))) ∧ held' = held ∧ answer = .popped none

/-- The calls and returns of a run. -/
def visible (s : State ι α) : Action ι α → List (Visible ι (Op α) (Result α))
  | .call t op => [.call t op]
  | .step t b =>
    match s.step (.step t b) with
    | some u => (u.call t).result.toList.map (.ret t)
    | none => []

/-- How far a call has got, given the items by position. -/
def Call.status (acc : List α) : Call α → Status (Op α) (Result α)
  | .pushLoad item | .pushSeq item _ | .pushCas item _ => .called (.push item)
  | .pushWrite _ _ | .pushStore _ => .decided (.pushed (.ok ()))
  | .popLoad | .popSeq _ | .popCas _ => .called .pop
  | .popTake pos | .popStore pos _ => .decided (.popped acc[pos]?)
  | _ => .idle

/-- The items that pushes have claimed a position for and no pop has claimed. -/
def State.held (s : State ι α) : List α := (accepted s.history).drop s.queue.dequeuePos

def State.status (s : State ι α) (t : ι) : Status (Op α) (Result α) :=
  (s.call t).status (accepted s.history)

section Steps
variable {cap : Nat} {q q' : MpmcQueue α} {call : ι → Call α} {acc : List α} {t : ι}

theorem status_of_pushing {c : Call α} {p : Nat} (hp : c.pushing = some p) :
    c.status acc = .decided (.pushed (.ok ())) := by
  cases c <;> simp_all [Call.pushing, Call.status]

omit [DecidableEq ι] in
theorem Inv.status_popping (h : Inv cap q call acc) {p : Nat} (hp : (call t).popping = some p) :
    ∃ x, (call t).status acc = .decided (.popped (some x)) := by
  have hlt := (h.popping_spec hp).1.trans_le (h.length ▸ h.deq_le)
  have hitem : acc[p]? = some acc[p] := List.getElem?_eq_getElem hlt
  cases hc : call t <;> simp_all [Call.popping, Call.status]

omit [DecidableEq ι] in
/-- Items accepted later change no answer that has been decided. -/
theorem Inv.status_append (h : Inv cap q call acc) (t : ι) (new : List α) :
    (call t).status (acc ++ new) = (call t).status acc := by
  have hl := h.locals t
  have hle := h.length ▸ h.deq_le
  cases hc : call t with
  | popTake pos | popStore pos r =>
    rw [hc] at hl
    have hlt : pos < acc.length := hl.1.trans_le hle
    simp only [Call.status, List.getElem?_append_left hlt]
  | _ => rfl

theorem Inv.statuses_update (h : Inv cap q call acc) (c' : Call α) (new : List α) :
    (fun v => (Function.update call t c' v).status (acc ++ new)) =
      Function.update (fun v => (call v).status acc) t (c'.status (acc ++ new)) := by
  funext v
  by_cases hv : v = t
  · subst hv
    simp
  · rw [Function.update_of_ne hv, Function.update_of_ne hv, h.status_append]

omit [DecidableEq ι] in
theorem status_of_finished {c : Call α} (h : c.finished = true) : c.status acc = .idle := by
  cases c <;> simp_all [Call.finished, Call.status]

/-- A step that neither takes effect nor returns. -/
theorem Inv.run_silent (h : Inv cap q call acc) {c' : Call α} {held : List α}
    {seen : List (Visible ι (Op α) (Result α))}
    (hrun : (sharedFifo ι α cap).Run held (fun v => (call v).status acc) seen)
    (hstatus : c'.status acc = (call t).status acc) (hresult : c'.result = none) :
    (sharedFifo ι α cap).Run held (fun v => (Function.update call t c' v).status (acc ++ []))
      (seen ++ c'.result.toList.map (.ret t)) := by
  rw [h.statuses_update, List.append_nil, hstatus, Function.update_eq_self, hresult]
  simpa using hrun

/-- The step lemma: the FIFO follows every atomic step of a call. -/
theorem Inv.run_move (h : Inv cap q call acc) {seen : List (Visible ι (Op α) (Result α))}
    {c c' : Call α} (hc : call t = c) (hm : Move q c q' c')
    (hrun : (sharedFifo ι α cap).Run (acc.drop q.dequeuePos) (fun v => (call v).status acc) seen) :
    (sharedFifo ι α cap).Run ((acc ++ accepted (observe t c c')).drop q'.dequeuePos)
      (fun v => (Function.update call t c' v).status (acc ++ accepted (observe t c c')))
      (seen ++ c'.result.toList.map (.ret t)) := by
  have hl : Local cap q acc c := hc ▸ h.locals t
  have hstatus : (call t).status acc = c.status acc := by rw [hc]
  have hlen : (acc.drop q.dequeuePos).length = q.enqueuePos - q.dequeuePos := by
    rw [List.length_drop, h.length]
  cases hm with
  | pushClaim x pos he =>
    subst he
    have hle : q.dequeuePos ≤ acc.length := h.length ▸ h.deq_le
    have hroom := (h.claim_free hl.2).1
    have hrun' := hrun.effect t (Op.push x) (Result.pushed (.ok ())) hstatus
      (Or.inl ⟨by rw [hlen]; have := h.deq_le; omega, rfl, rfl⟩)
    change (sharedFifo ι α cap).Run ((acc ++ [x]).drop q.dequeuePos)
      (fun v => (Function.update call t _ v).status (acc ++ [x])) (seen ++ [])
    rw [h.statuses_update, List.drop_append_of_le_length hle, List.append_nil]
    exact hrun'
  | popClaim pos hd =>
    subst hd
    have hlt : q.dequeuePos < acc.length := h.length ▸ (h.claim_full hl.2).1
    have hhead : acc.drop q.dequeuePos = acc[q.dequeuePos] :: acc.drop (q.dequeuePos + 1) :=
      List.drop_eq_getElem_cons hlt
    have hrun' := hrun.effect t Op.pop (Result.popped (some acc[q.dequeuePos])) hstatus
      (Or.inl ⟨_, hhead, rfl⟩)
    change (sharedFifo ι α cap).Run ((acc ++ []).drop (q.dequeuePos + 1))
      (fun v => (Function.update call t _ v).status (acc ++ [])) (seen ++ [])
    rw [h.statuses_update, List.append_nil, List.append_nil]
    simpa only [Call.status, List.getElem?_eq_getElem hlt] using hrun'
  | publish pos =>
    have hrun' := hrun.ret t (Result.pushed (.ok ())) hstatus
    change (sharedFifo ι α cap).Run ((acc ++ []).drop q.dequeuePos)
      (fun v => (Function.update call t _ v).status (acc ++ [])) (seen ++ [.ret t _])
    rw [h.statuses_update, List.append_nil]
    exact hrun'
  | release pos r =>
    obtain ⟨-, -, -, -, hitem⟩ := hl
    have hrun' := hrun.ret t (Result.popped r) (by rw [hstatus, hitem]; rfl)
    change (sharedFifo ι α cap).Run ((acc ++ []).drop q.dequeuePos)
      (fun v => (Function.update call t _ v).status (acc ++ [])) (seen ++ [.ret t _])
    rw [h.statuses_update, List.append_nil]
    exact hrun'
  | pushFull x pos hseq =>
    have hfull : cap ≤ (acc.drop q.dequeuePos).length ∨
        ∃ v y, (call v).status acc = .decided (.popped (some y)) := by
      obtain ⟨-, he | ⟨v, hv⟩⟩ := h.full_answer hl hseq
      · exact Or.inl (by omega)
      · exact Or.inr ⟨v, h.status_popping hv⟩
    have hrun' := hrun.effect_ret t (Op.push x) hstatus (Or.inr ⟨hfull, rfl, rfl⟩)
    change (sharedFifo ι α cap).Run ((acc ++ []).drop q.dequeuePos)
      (fun v => (Function.update call t _ v).status (acc ++ [])) (seen ++ [.ret t _])
    rw [h.statuses_update, List.append_nil]
    exact hrun'
  | popEmpty pos hseq =>
    have hempty : acc.drop q.dequeuePos = [] ∨
        ∃ v, (call v).status acc = .decided (.pushed (.ok ())) := by
      obtain he | ⟨v, hv⟩ := h.empty_answer hl hseq
      · exact Or.inl (List.drop_eq_nil_of_le (h.length ▸ he.le))
      · exact Or.inr ⟨v, status_of_pushing hv⟩
    have hrun' := hrun.effect_ret t Op.pop hstatus (Or.inr ⟨hempty, rfl, rfl⟩)
    change (sharedFifo ι α cap).Run ((acc ++ []).drop q.dequeuePos)
      (fun v => (Function.update call t _ v).status (acc ++ [])) (seen ++ [.ret t _])
    rw [h.statuses_update, List.append_nil]
    exact hrun'
  | _ =>
    change (sharedFifo ι α cap).Run ((acc ++ []).drop q.dequeuePos) _ _
    rw [List.append_nil acc]
    exact h.run_silent hrun (by rw [hc]; rfl) rfl

end Steps

/-- Every run shows the calls and returns of a bounded FIFO between the threads. -/
theorem threads_linearizable {k : Nat} (hk : 1 ≤ k) {run : List (Action ι α)}
    {x : State ι α × List (Visible ι (Op α) (Result α))}
    (h : ((threads ι α k).logged visible).exec ((threads ι α k).logged visible).init run = some x) :
    (sharedFifo ι α (2 ^ k)).Allows x.2 := by
  refine ⟨x.1.held, x.1.status, Object.allows_of_simulation _ State.held State.status rfl rfl ?_ ⟨run, h⟩⟩
  intro s a u seen hr hs hrun
  have hi := inv_of_reachable hk hr
  obtain ⟨t, op, rfl, hf, rfl⟩ | ⟨t, b, q', c', rfl, hm, rfl⟩ := step_cases hs
  · have hidle : s.status t = .idle := status_of_finished hf
    have hop : op.start.status (accepted s.history) = .called op := by cases op <;> rfl
    have hrun' := hrun.call t op hidle
    have hupdate := hi.statuses_update (t := t) op.start []
    rw [List.append_nil, hop] at hupdate
    rw [← show _ = Function.update s.status t (.called op) from hupdate] at hrun'
    exact hrun'
  · have hmove := hi.run_move rfl hm hrun
    have hlog : visible s (.step t b) = c'.result.toList.map (.ret t) := by
      have hs' : s.step (.step t b) = some _ := hs
      simp [visible, hs']
    rw [hlog, State.held, accepted_append]
    have hst : State.status ⟨q', Function.update s.call t c', s.history ++ observe t (s.call t) c'⟩ =
        fun v => (Function.update s.call t c' v).status
          (accepted s.history ++ accepted (observe t (s.call t) c')) := by
      funext v
      simp [State.status]
    rw [hst]
    exact hmove

/-- A push stays between its compare-exchange and its slot write; a pop finds the queue empty. -/
def stalledPush : List (Action (Fin 2) Nat) :=
  .call 0 (.push 7) :: List.replicate 3 (.step 0 false) ++ .call 1 .pop :: List.replicate 2 (.step 1 false)

theorem threads_linearizable_stalledPush : (sharedFifo (Fin 2) Nat (2 ^ 1)).Allows
    ((((threads (Fin 2) Nat 1).logged visible).exec ((threads (Fin 2) Nat 1).logged visible).init
      stalledPush).get (by decide)).2 :=
  threads_linearizable le_rfl (Option.some_get _).symm

example : (((threads (Fin 2) Nat 1).logged visible).exec ((threads (Fin 2) Nat 1).logged visible).init
    stalledPush).map Prod.snd = some [.call 0 (.push 7), .call 1 .pop, .ret 1 (.popped none)] := by
  decide

end ThreatEngine.Queue
