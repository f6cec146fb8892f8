import ThreatEngine.Pipeline.Accounting
import ThreatEngine.Queue.Polling

/-! No thread is ever stuck: in every reachable state the producer and every worker
have a next step. -/
namespace ThreatEngine.Pipeline
open Queue
variable {n : Nat} {δ : Type} [NeZero n]

/-- The producer is inside a push into the queue. -/
def Producer.pushesTo (v : Fin n) : Producer → Bool
  | .pushing event _ => event.shard n == v
  | _ => false

/-- A thread is inside a call if and only if its loop is. -/
structure Linked (s : State n δ) : Prop where
  producer : ∀ v, ((s.queues v).call .producer).finished = !s.producer.pushesTo v
  worker : ∀ w, ((s.queues w).call .worker).finished = !decide (s.worker w = .popping)

/-- The next step of the producer, which goes on with `events` after its batch. -/
def State.nextOfProducer (s : State n δ) (events : List NetworkEvent) : Action n :=
  match s.producer with
  | .batch [] => .nextBatch events
  | .batch (_ :: _) => .nextEvent
  | .pushing _ _ => .push false
  | .dropping _ _ => .drop

/-- The next step of a worker, whose clock says `now`. -/
def State.nextOfWorker (s : State n δ) (w : Fin n) (now : Nat) : Action n :=
  match s.worker w with
  | .waiting => .pop w
  | .popping => .popStep w false
  | .counting _ => .count w
  | .detecting _ [] [] => .done w
  | .detecting _ (_ :: _) [] => .detect w now
  | .detecting _ _ (_ :: _) => .fire w
  | .storing _ _ _ _ => .store w

section Steps
variable {D : Detectors δ} {k : Nat} {s u : State n δ} {a : Action n}

/-- One queue has moved, and the thread that has moved it. -/
theorem Linked.setQueue (h : Linked s) {v : Fin n} {q : Queue.State Role NetworkEvent}
    (hq : u.queues = Function.update s.queues v q)
    (hp : (q.call .producer).finished = !u.producer.pushesTo v)
    (hc : (q.call .worker).finished = !decide (u.worker v = .popping))
    (hp' : ∀ v', v' ≠ v → u.producer.pushesTo v' = s.producer.pushesTo v')
    (hc' : ∀ v', v' ≠ v → u.worker v' = s.worker v') : Linked u := by
  refine ⟨fun v' => ?_, fun v' => ?_⟩
  · rw [hq]
    by_cases hv : v' = v
    · subst hv
      rwa [Function.update_self]
    · rw [Function.update_of_ne hv, hp' v' hv, h.producer]
  · rw [hq]
    by_cases hv : v' = v
    · subst hv
      rwa [Function.update_self]
    · rw [Function.update_of_ne hv, hc' v' hv, h.worker]

/-- A worker that goes on outside `pop`. -/
theorem Linked.setWorker (h : Linked s) {w : Fin n} {c : Worker} (hw : s.worker w ≠ .popping)
    (hc : c ≠ .popping) (v : Fin n) :
    ((s.queues v).call .worker).finished = !decide (Function.update s.worker w c v = .popping) := by
  rw [h.worker]
  by_cases hv : v = w
  · subst hv
    rw [Function.update_self, decide_eq_false hw, decide_eq_false hc]
  · rw [Function.update_of_ne hv]

theorem linked_of_step (hk : 1 ≤ k) (hbooks : Books k s) (h : Linked s) (hs : step D s a = some u) :
    Linked u := by
  cases a with
  | nextBatch events =>
    simp only [step] at hs
    split at hs
    · next hp =>
      obtain rfl := Option.some.inj hs
      exact ⟨fun v => (h.producer v).trans (by rw [hp]; rfl), h.worker⟩
    · cases hs
  | nextEvent =>
    simp only [step] at hs
    split at hs
    · next event rest hp =>
      obtain ⟨q, hq, rfl⟩ := Option.map_eq_some_iff.mp hs
      obtain ⟨-, -, -, hcall, hother⟩ := published_start hq
      refine h.setQueue rfl ?_ ?_ (fun v hv => ?_) fun _ _ => rfl
      · rw [hcall]
        simp [Producer.pushesTo, Op.start, Call.finished]
      · rw [hother .worker (by simp), h.worker]
        rfl
      · rw [hp]
        simpa [Producer.pushesTo] using Ne.symm hv
    · cases hs
  | push b =>
    simp only [step] at hs
    split at hs
    · next event rest hp =>
      obtain ⟨q, hq, rfl⟩ := Option.map_eq_some_iff.mp hs
      obtain ⟨hfinished, hother⟩ := finished_of_step hq
      obtain ⟨-, -, hcases⟩ := producer_step hk (hbooks.lanes _) (hbooks.carrying event rest _ hp rfl) hq
      have hsame (v : Fin n) (hv : v ≠ event.shard n) : s.producer.pushesTo v = false := by
        rw [hp]
        simpa [Producer.pushesTo] using Ne.symm hv
      have hworker : (q.call .worker).finished = !decide (s.worker (event.shard n) = .popping) := by
        rw [hother .worker (by simp), h.worker]
      obtain ⟨hres, -⟩ | ⟨hres, -⟩ | ⟨hres, -⟩ := hcases
      · rw [hres] at hfinished ⊢
        refine h.setQueue rfl ?_ hworker (fun _ _ => rfl) fun _ _ => rfl
        rw [hfinished]
        simp [State.afterPush, State.setQueue, hp, Producer.pushesTo]
      · rw [hres] at hfinished ⊢
        exact h.setQueue rfl hfinished hworker (fun v hv => (hsame v hv).symm) fun _ _ => rfl
      · rw [hres] at hfinished ⊢
        exact h.setQueue rfl hfinished hworker (fun v hv => (hsame v hv).symm) fun _ _ => rfl
    · cases hs
  | drop =>
    simp only [step] at hs
    split at hs
    · next hp =>
      obtain rfl := Option.some.inj hs
      exact ⟨fun v => (h.producer v).trans (by rw [hp]; rfl), h.worker⟩
    · cases hs
  | pop w =>
    simp only [step] at hs
    split at hs
    · next hw =>
      obtain ⟨q, hq, rfl⟩ := Option.map_eq_some_iff.mp hs
      obtain ⟨-, -, -, hcall, hother⟩ := published_start hq
      refine h.setQueue rfl ?_ ?_ (fun _ _ => rfl) fun v hv => Function.update_of_ne hv _ _
      · rw [hother .producer (by simp), h.producer]
        rfl
      · rw [hcall]
        simp [State.setWorker, Op.start, Call.finished]
    · cases hs
  | popStep w b =>
    simp only [step] at hs
    split at hs
    · next hw =>
      obtain ⟨q, hq, rfl⟩ := Option.map_eq_some_iff.mp hs
      obtain ⟨hfinished, hother⟩ := finished_of_step hq
      obtain ⟨-, -, -, hcases⟩ := worker_step hk (hbooks.lanes w) hq
      have hproducer : (q.call .producer).finished = !s.producer.pushesTo w := by
        rw [hother .producer (by simp), h.producer]
      obtain ⟨hres, -⟩ | ⟨x, hres, -⟩ | ⟨hres, -⟩ := hcases
      · rw [hres] at hfinished ⊢
        refine h.setQueue rfl hproducer ?_ (fun _ _ => rfl) fun _ _ => rfl
        rw [hfinished]
        simp [State.afterPop, State.setQueue, hw]
      · rw [hres] at hfinished ⊢
        refine h.setQueue rfl hproducer ?_ (fun _ _ => rfl) fun v hv => Function.update_of_ne hv _ _
        rw [hfinished]
        simp [State.afterPop, State.setWorker]
      · rw [hres] at hfinished ⊢
        refine h.setQueue rfl hproducer ?_ (fun _ _ => rfl) fun v hv => Function.update_of_ne hv _ _
        rw [hfinished]
        simp [State.afterPop, State.setWorker]
    · cases hs
  | count w | detect w now | fire w | store w | done w =>
    simp only [step] at hs
    split at hs
    · next hw =>
      obtain rfl := Option.some.inj hs
      exact ⟨h.producer, h.setWorker (by rw [hw]; simp) (by simp)⟩
    · cases hs

theorem linked_of_reachable (hk : 1 ≤ k) (hr : (pipeline n D k).Reachable s) : Linked s := by
  refine hr.rule (P := Linked) ⟨fun _ => rfl, fun _ => rfl⟩ fun s a u hs ih hstep => ?_
  exact linked_of_step hk (books_of_reachable hk hs) ih hstep

/-- A call that is not over has a next step. -/
theorem enabled_of_unfinished {ι α : Type*} [DecidableEq ι] {q : Queue.State ι α} {t : ι}
    (h : (q.call t).finished = false) (b : Bool) : ∃ q', q.step (.step t b) = some q' := by
  obtain ⟨r, hr⟩ := Option.ne_none_iff_exists'.mp
    (mt (step_eq_none_iff .unbounded b q.queue (q.call t)).mp (Bool.eq_false_iff.mp h))
  exact ⟨_, Option.map_eq_some_iff.mpr ⟨r, hr, rfl⟩⟩

theorem enabled_of_finished {ι α : Type*} [DecidableEq ι] {q : Queue.State ι α} {t : ι}
    (h : (q.call t).finished = true) (op : Op α) : ∃ q', q.step (.call t op) = some q' :=
  ⟨_, by rw [Queue.State.step, if_pos h]⟩

theorem Linked.nextOfWorker (h : Linked s) (D : Detectors δ) (w : Fin n) (now : Nat) :
    ∃ u, step D s (s.nextOfWorker w now) = some u := by
  have hworker := h.worker w
  unfold State.nextOfWorker
  split
  · next hw =>
    rw [hw] at hworker
    obtain ⟨q, hq⟩ := enabled_of_finished hworker .pop
    exact Option.isSome_iff_exists.mp (by simp [step, hw, hq])
  · next hw =>
    rw [hw] at hworker
    obtain ⟨q, hq⟩ := enabled_of_unfinished hworker false
    exact Option.isSome_iff_exists.mp (by simp [step, hw, hq])
  all_goals
    next hw => exact Option.isSome_iff_exists.mp (by simp [step, hw])

theorem Linked.nextOfProducer (h : Linked s) (D : Detectors δ) (events : List NetworkEvent) :
    ∃ u, step D s (s.nextOfProducer events) = some u := by
  unfold State.nextOfProducer
  split
  · next hp => exact Option.isSome_iff_exists.mp (by simp [step, hp])
  · next event rest hp =>
    have hproducer := h.producer (event.shard n)
    rw [hp] at hproducer
    obtain ⟨q, hq⟩ := enabled_of_finished hproducer (.push event)
    exact Option.isSome_iff_exists.mp (by simp [step, hp, hq])
  · next event rest hp =>
    have hproducer := h.producer (event.shard n)
    rw [hp] at hproducer
    obtain ⟨q, hq⟩ := enabled_of_unfinished (by simpa [Producer.pushesTo] using hproducer) false
    exact Option.isSome_iff_exists.mp (by simp [step, hp, hq])
  · next hp => exact Option.isSome_iff_exists.mp (by simp [step, hp])

/-- In every reachable state the producer and every worker have a next step. -/
theorem never_stuck (hk : 1 ≤ k) (hr : (pipeline n D k).Reachable s) :
    (∀ events, ∃ u, step D s (s.nextOfProducer events) = some u) ∧
      ∀ w now, ∃ u, step D s (s.nextOfWorker w now) = some u :=
  ⟨(linked_of_reachable hk hr).nextOfProducer D, (linked_of_reachable hk hr).nextOfWorker D⟩

end Steps

theorem twoProbes_runs :
    ((pipeline 2 quietDetectors 1).exec (pipeline 2 quietDetectors 1).init twoProbes).isSome := by
  decide +kernel

/-- One event is in the queue, one is on its way into it. -/
theorem never_stuck_twoProbes :
    let s := ((pipeline 2 quietDetectors 1).exec (pipeline 2 quietDetectors 1).init twoProbes).get
      twoProbes_runs
    (∀ events, ∃ u, step quietDetectors s (s.nextOfProducer events) = some u) ∧
      ∀ w now, ∃ u, step quietDetectors s (s.nextOfWorker w now) = some u :=
  never_stuck le_rfl ⟨twoProbes, (Option.some_get _).symm⟩

end ThreatEngine.Pipeline
