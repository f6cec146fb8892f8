import Mathlib.Algebra.BigOperators.Group.Finset.Basic
import Mathlib.Algebra.Group.Action.Defs
import Mathlib.Algebra.Order.BigOperators.Group.Finset
import Mathlib.Tactic.Linarith
import ThreatEngine.Queue.Steps

/-! The queue never blocks. A thread repeats its loop only when another thread
has moved the same counter or its compare-exchange has failed spuriously, so
the steps of a run are paid for by its calls, and a thread that is left alone
returns although all others are stalled inside their calls. -/
namespace ThreatEngine.Queue
variable {ι α : Type*}

/-- The steps that a call may still take, with what a claim of its own will cost the `others`. -/
def Call.remaining (others : Nat) (q : MpmcQueue α) : Call α → Nat
  | .pushLoad _ | .popLoad => 5 + 2 * others
  | .pushSeq _ pos => 4 + 2 * (q.enqueuePos - pos) + 2 * others
  | .pushCas _ pos => 3 + 2 * (q.enqueuePos - pos) + 2 * others
  | .popSeq pos => 4 + 2 * (q.dequeuePos - pos) + 2 * others
  | .popCas pos => 3 + 2 * (q.dequeuePos - pos) + 2 * others
  | .pushWrite _ _ | .popTake _ => 2
  | .pushStore _ | .popStore _ _ => 1
  | _ => 0

/-- The steps that a call may still take when no other thread moves. -/
def Call.alone (q : MpmcQueue α) : Call α → Nat
  | .pushLoad _ | .popLoad => 5
  | .pushSeq _ pos => if pos = q.enqueuePos then 4 else 6
  | .pushCas _ pos => if pos = q.enqueuePos then 3 else 5
  | .popSeq pos => if pos = q.dequeuePos then 4 else 6
  | .popCas pos => if pos = q.dequeuePos then 3 else 5
  | .pushWrite _ _ | .popTake _ => 2
  | .pushStore _ | .popStore _ _ => 1
  | _ => 0

/-- How far a step has moved the two counters. -/
def moved (q q' : MpmcQueue α) : Nat :=
  (q'.enqueuePos - q.enqueuePos) + (q'.dequeuePos - q.dequeuePos)

/-- The atomic steps of a run. -/
def stepCount (run : List (Action ι α)) : Nat :=
  run.countP fun a => match a with
    | .step _ _ => true
    | .call _ _ => false

/-- The calls that a run starts. -/
def callCount (run : List (Action ι α)) : Nat :=
  run.countP fun a => match a with
    | .call _ _ => true
    | .step _ _ => false

/-- The steps of a run at which a compare-exchange may fail spuriously. -/
def spuriousCount (run : List (Action ι α)) : Nat :=
  run.countP fun a => match a with
    | .step _ spurious => spurious
    | .call _ _ => false

section Calls
variable {cap : Nat} {q q' : MpmcQueue α} {call : ι → Call α} {acc : List α} {c c' : Call α}

/-- A compare-exchange fails only spuriously or because the counter has moved. -/
theorem retry_of_step {b : Bool} (h : c.step .unbounded b q = some (q', c')) :
    (∀ x pos, c = .pushCas x pos → b = false → q.enqueuePos = pos → c' = .pushWrite x pos) ∧
      ∀ pos, c = .popCas pos → b = false → q.dequeuePos = pos → c' = .popTake pos := by
  constructor
  · rintro x pos rfl hb he
    rw [Call.step, if_pos ⟨hb, he⟩] at h
    exact (Prod.mk.inj (Option.some.inj h)).2.symm
  · rintro pos rfl hb he
    rw [Call.step, if_pos ⟨hb, he⟩] at h
    exact (Prod.mk.inj (Option.some.inj h)).2.symm

/-- The slot at the tail is not ahead of the tail. -/
theorem Inv.tail_fresh (h : Inv cap q call acc) :
    (q.slot q.enqueuePos).sequence ≤ q.enqueuePos := by
  by_contra hlt
  have := (h.claim_free (by omega)).2.1
  omega

/-- The slot at the head is not ahead of the head. -/
theorem Inv.head_fresh (h : Inv cap q call acc) :
    (q.slot q.dequeuePos).sequence ≤ q.dequeuePos + 1 := by
  by_contra hlt
  have := (h.claim_full (by omega)).2.1
  omega

/-- A push that finds its slot ahead has been passed by another one. -/
theorem Inv.passed_push (h : Inv cap q call acc) {pos : Nat} (hpos : pos ≤ q.enqueuePos)
    (hs : pos < (q.slot pos).sequence) : pos < q.enqueuePos := by
  refine Nat.lt_of_le_of_ne hpos fun he => ?_
  subst he
  exact absurd hs (Nat.not_lt.mpr h.tail_fresh)

/-- A pop that finds its slot ahead has been passed by another one. -/
theorem Inv.passed_pop (h : Inv cap q call acc) {pos : Nat} (hpos : pos ≤ q.dequeuePos)
    (hs : pos + 1 < (q.slot pos).sequence) : pos < q.dequeuePos := by
  refine Nat.lt_of_le_of_ne hpos fun he => ?_
  subst he
  exact absurd hs (Nat.not_lt.mpr h.head_fresh)

/-- A step uses up one of the steps that remain to its call, and pays the other
threads when it claims, unless its compare-exchange fails spuriously. -/
theorem Inv.remaining_step (h : Inv cap q call acc) (others : Nat) {b : Bool}
    (hl : Local cap q acc c) (hs : c.step .unbounded b q = some (q', c')) :
    c'.remaining others q' + 1 + 2 * others * moved q q' ≤ c.remaining others q + 2 * b.toNat := by
  obtain ⟨hpush, hpop⟩ := retry_of_step hs
  cases move_of_step hs with
  | pushLoad x => simp [Call.remaining, moved]; omega
  | pushFree x pos hseq => simp [Call.remaining, moved]; omega
  | pushFull x pos hseq => simp [Call.remaining, moved]; omega
  | pushStale x pos hseq =>
    have := h.passed_push hl hseq
    simp [Call.remaining, moved]
    omega
  | pushClaim x pos he => simp [Call.remaining, moved, he]
  | pushRetry x pos =>
    have hle : pos ≤ q.enqueuePos := hl.1
    cases b with
    | true => simp [Call.remaining, moved]; omega
    | false =>
      have hne : q.enqueuePos ≠ pos := fun he => by cases hpush x pos rfl rfl he
      simp [Call.remaining, moved]
      omega
  | write x pos => simp [Call.remaining, moved]
  | publish pos => simp [Call.remaining, moved]
  | popLoad => simp [Call.remaining, moved]; omega
  | popReady pos hseq => simp [Call.remaining, moved]; omega
  | popEmpty pos hseq => simp [Call.remaining, moved]; omega
  | popStale pos hseq =>
    have := h.passed_pop hl hseq
    simp [Call.remaining, moved]
    omega
  | popClaim pos hd => simp [Call.remaining, moved, hd]
  | popRetry pos =>
    have hle : pos ≤ q.dequeuePos := hl.1
    cases b with
    | true => simp [Call.remaining, moved]; omega
    | false =>
      have hne : q.dequeuePos ≠ pos := fun he => by cases hpop pos rfl rfl he
      simp [Call.remaining, moved]
      omega
  | take pos => simp [Call.remaining, moved]
  | release pos r => simp [Call.remaining, moved]

/-- What a step costs a call that it is not a step of. -/
theorem remaining_le (others : Nat) (c : Call α) (q q' : MpmcQueue α) :
    c.remaining others q' ≤ c.remaining others q + 2 * moved q q' := by
  cases c <;> simp only [Call.remaining, moved] <;> omega

/-- A thread that is alone comes closer to its return with every step. -/
theorem Inv.alone_step (h : Inv cap q call acc) (hl : Local cap q acc c)
    (hs : c.step .unbounded false q = some (q', c')) : c'.alone q' < c.alone q := by
  obtain ⟨hpush, hpop⟩ := retry_of_step hs
  cases move_of_step hs with
  | pushStale x pos hseq =>
    have := h.passed_push hl hseq
    simp [Call.alone, this.ne]
  | pushRetry x pos =>
    have hne : pos ≠ q.enqueuePos := fun he => by cases hpush x pos rfl rfl he.symm
    simp [Call.alone, hne]
  | popStale pos hseq =>
    have := h.passed_pop hl hseq
    simp [Call.alone, this.ne]
  | popRetry pos =>
    have hne : pos ≠ q.dequeuePos := fun he => by cases hpop pos rfl rfl he.symm
    simp [Call.alone, hne]
  | pushFree x pos hseq | pushFull x pos hseq | pushClaim x pos he | popReady pos hseq
  | popEmpty pos hseq | popClaim pos hd =>
    simp only [Call.alone]
    split <;> omega
  | _ => simp [Call.alone]

theorem alone_le (c : Call α) (q : MpmcQueue α) : c.alone q ≤ 6 := by
  cases c <;> simp only [Call.alone] <;> (try split) <;> omega

end Calls

section Runs
variable [DecidableEq ι] {k : Nat} {s u : State ι α}

/-- The steps that remain to all calls. -/
def State.remaining [Fintype ι] (s : State ι α) : Nat :=
  ∑ t, (s.call t).remaining (Fintype.card ι - 1) s.queue

/-- What an action takes out of the steps that remain. -/
def Action.cost : Action ι α → Nat
  | .step _ _ => 1
  | .call _ _ => 0

/-- What an action adds to the steps that remain: a call its own five and two for
each other thread, a spurious failure two. -/
def Action.credit [Fintype ι] : Action ι α → Nat
  | .call _ _ => 2 * Fintype.card ι + 3
  | .step _ spurious => 2 * spurious.toNat

theorem remaining_update [Fintype ι] (t : ι) (c' : Call α) (q q' : MpmcQueue α)
    (call : ι → Call α) (others : Nat) :
    ∑ v, (Function.update call t c' v).remaining others q' + (call t).remaining others q ≤
      c'.remaining others q' + ∑ v, (call v).remaining others q +
        2 * (Fintype.card ι - 1) * moved q q' := by
  have hsplit (f : ι → Nat) : ∑ v, f v = f t + ∑ v ∈ Finset.univ.erase t, f v :=
    (Finset.add_sum_erase Finset.univ f (Finset.mem_univ t)).symm
  have hothers : ∑ v ∈ Finset.univ.erase t, (Function.update call t c' v).remaining others q' ≤
      ∑ v ∈ Finset.univ.erase t, ((call v).remaining others q + 2 * moved q q') := by
    refine Finset.sum_le_sum fun v hv => ?_
    rw [Function.update_of_ne (Finset.ne_of_mem_erase hv)]
    exact remaining_le others (call v) q q'
  rw [Finset.sum_add_distrib, Finset.sum_const, Finset.card_erase_of_mem (Finset.mem_univ t),
    Finset.card_univ, smul_eq_mul] at hothers
  rw [hsplit fun v => (Function.update call t c' v).remaining others q',
    hsplit fun v => (call v).remaining others q, Function.update_self]
  linarith

/-- The step lemma: every atomic step is paid for. -/
theorem remaining_of_step [Fintype ι] (hi : Inv (2 ^ k) s.queue s.call (accepted s.history))
    {a : Action ι α} (hs : s.step a = some u) :
    u.remaining + a.cost ≤ s.remaining + a.credit := by
  cases a with
  | call t op =>
    by_cases hf : (s.call t).finished = true
    · obtain rfl : { s with call := Function.update s.call t op.start } = u := by
        simpa [State.step, hf] using hs
      have hmove := remaining_update t op.start s.queue s.queue s.call (Fintype.card ι - 1)
      have hstart : op.start.remaining (Fintype.card ι - 1) s.queue = 5 + 2 * (Fintype.card ι - 1) := by
        cases op <;> rfl
      have hcard : 0 < Fintype.card ι := Fintype.card_pos_iff.mpr ⟨t⟩
      rw [hstart, moved] at hmove
      simp only [Nat.sub_self, Nat.add_zero, Nat.mul_zero] at hmove
      simp only [State.remaining, Action.cost, Action.credit]
      omega
    · simp [State.step, hf] at hs
  | step t b =>
    obtain ⟨⟨q', c'⟩, hr, rfl⟩ := Option.map_eq_some_iff.mp hs
    have hown := hi.remaining_step (Fintype.card ι - 1) (hi.locals t) hr
    have hmove := remaining_update t c' s.queue q' s.call (Fintype.card ι - 1)
    simp only [State.remaining, Action.cost, Action.credit]
    omega

/-- The atomic steps of any run are at most five for every call, two for every other
thread that a call may send round its loop again, and two for every spurious failure. -/
theorem lock_free [Fintype ι] (hk : 1 ≤ k) {run : List (Action ι α)}
    (h : (threads ι α k).exec (threads ι α k).init run = some s) :
    stepCount run ≤ (2 * Fintype.card ι + 3) * callCount run + 2 * spuriousCount run := by
  have hpaid := Guarded.exec_amortised State.remaining Action.cost Action.credit
    (fun s a u hr hs => remaining_of_step (inv_of_reachable hk hr) hs) h
  have hinit : (threads ι α k).init.remaining = 0 := by
    simp [State.remaining, threads, State.init, Call.remaining]
  have hcost (run : List (Action ι α)) : (run.map Action.cost).sum = stepCount run := by
    induction run with
    | nil => rfl
    | cons a run ih => cases a <;> simp [stepCount, Action.cost] at ih ⊢ <;> omega
  have hcredit (run : List (Action ι α)) : (run.map Action.credit).sum =
      (2 * Fintype.card ι + 3) * callCount run + 2 * spuriousCount run := by
    induction run with
    | nil => simp [callCount, spuriousCount]
    | cons a run ih =>
      rw [List.map_cons, List.sum_cons, ih]
      cases a with
      | call t op => simp [callCount, spuriousCount, Action.credit]; ring
      | step t b => cases b <;> simp [callCount, spuriousCount, Action.credit]; ring
  rw [hinit, hcost, hcredit] at hpaid
  omega

/-- Two pushes read the tail together; the second loses the race and goes round once more. -/
def race : List (Action (Fin 2) Nat) :=
  [.call 0 (.push 1), .call 1 (.push 2), .step 0 false, .step 1 false, .step 0 false, .step 1 false,
    .step 0 false] ++ List.replicate 5 (.step 1 false)

theorem lock_free_race :
    stepCount race ≤ (2 * Fintype.card (Fin 2) + 3) * callCount race + 2 * spuriousCount race :=
  lock_free (k := 1) le_rfl (Option.some_get (by decide)).symm

/-- Whatever the other threads are stalled in, a thread that runs alone returns within six steps. -/
theorem returns_alone (hk : 1 ≤ k) (hr : (threads ι α k).Reachable s) (t : ι) :
    ∃ n u, n ≤ 6 ∧ (threads ι α k).exec s (List.replicate n (.step t false)) = some u ∧
      (u.call t).finished = true := by
  have hprogress (s : State ι α) (hr : (threads ι α k).Reachable s)
      (hf : ¬ (s.call t).finished = true) : ∃ u, (threads ι α k).step s (.step t false) = some u ∧
        (threads ι α k).Reachable u ∧ (u.call t).alone u.queue < (s.call t).alone s.queue := by
    have hi := inv_of_reachable hk hr
    obtain ⟨⟨q', c'⟩, hstep⟩ := Option.ne_none_iff_exists'.mp
      (mt (step_eq_none_iff .unbounded false s.queue (s.call t)).mp hf)
    have hs : (threads ι α k).step s (.step t false) =
        some ⟨q', Function.update s.call t c', s.history ++ observe t (s.call t) c'⟩ := by
      simp [threads, State.step, hstep]
    refine ⟨_, hs, hr.next hs, ?_⟩
    simpa using hi.alone_step (hi.locals t) hstep
  obtain ⟨n, u, hn, hu, -, hf⟩ := Guarded.exec_repeat (fun s : State ι α => (s.call t).alone s.queue)
    hprogress hr
  exact ⟨n, u, hn.trans (alone_le _ _), hu, hf⟩

/-- The push of thread 0 stays between its compare-exchange and its slot write. -/
theorem returns_alone_race : ∃ n u, n ≤ 6 ∧
    (threads (Fin 2) Nat 1).exec
      (((threads (Fin 2) Nat 1).exec (threads (Fin 2) Nat 1).init (race ++ [.call 1 .pop])).get (by decide))
      (List.replicate n (.step 1 false)) = some u ∧ (u.call 1).finished = true :=
  returns_alone le_rfl ⟨race ++ [.call 1 .pop], (Option.some_get _).symm⟩ 1

end Runs

end ThreatEngine.Queue
