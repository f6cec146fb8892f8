import ThreatEngine.Lib.Fair
import ThreatEngine.Pipeline.Enabled
import ThreatEngine.Pipeline.Sequential

/-! No accepted event waits for ever. The producer and the other workers may do what they
like: a worker that goes on and on comes to the end of every event that its queue has accepted. -/
namespace ThreatEngine.Pipeline
open Queue Filter
variable {n : Nat} {δ : Type}

/-- The worker whose loop an action belongs to. -/
def Action.worker : Action n → Option (Fin n)
  | .pop w | .popStep w _ | .count w | .detect w _ | .fire w | .store w | .done w => some w
  | _ => none

/-- A worker with an event in its hand. -/
def Worker.busy : Worker → Bool
  | .waiting | .popping => false
  | _ => true

/-- The detectors that are left for the event in hand, and two for the counter. -/
def Worker.kindsLeft : Worker → Nat
  | .waiting | .popping => 0
  | .counting _ => 5
  | .detecting _ kinds _ | .storing _ kinds _ _ => kinds.length + 1

/-- The steps that are left until a detector is asked, or until `pop` returns after its claim. -/
def Worker.stepsLeft (c : Call NetworkEvent) : Worker → Nat
  | .waiting => 2
  | .popping => c.toReturn
  | .counting _ => 0
  | .detecting _ _ alerts => 2 * alerts.length
  | .storing _ _ _ alerts => 2 * alerts.length + 1

/-- The steps that are left until `pop` claims. -/
def Worker.toClaim (c : Call NetworkEvent) : Worker → Nat
  | .waiting => 3
  | .popping => c.toClaim
  | _ => 0

/-- What keeps a worker from the end of the first `N` events of its queue. -/
def State.toDo (s : State n δ) (w : Fin n) (N : Nat) : ℕ ×ₗ ℕ ×ₗ ℕ :=
  toLex (N - (returned (s.queues w).history).length, toLex ((s.worker w).kindsLeft,
    (s.worker w).stepsLeft ((s.queues w).call .worker)))

def State.toClaim (s : State n δ) (w : Fin n) : Nat :=
  (s.worker w).toClaim ((s.queues w).call .worker)

/-- The worker is about to compare and exchange. -/
def State.claims (s : State n δ) (w : Fin n) : Prop :=
  s.worker w = .popping ∧ ∃ pos, (s.queues w).call .worker = .popCas pos

/-- The worker has come to the end of the first `N` events of its queue. -/
def State.through (s : State n δ) (w : Fin n) (N : Nat) : Prop :=
  (s.worker w).busy = false ∧ N ≤ (returned (s.queues w).history).length

section Steps
variable [NeZero n] {D : Detectors δ} {k N : Nat} {s u : State n δ} {a : Action n} {w : Fin n}

/-- What the other threads do is not seen by a worker. -/
theorem worker_of_other (hk : 1 ≤ k) (hbooks : Books k s) (h : step D s a = some u)
    (ha : a.worker ≠ some w) : u.worker w = s.worker w ∧
      (u.queues w).call .worker = (s.queues w).call .worker ∧
      returned (u.queues w).history = returned (s.queues w).history := by
  cases a with
  | nextBatch events =>
    simp only [step] at h
    split at h
    · obtain rfl := Option.some.inj h
      exact ⟨rfl, rfl, rfl⟩
    · cases h
  | nextEvent =>
    simp only [step] at h
    split at h
    · next event rest _ =>
      obtain ⟨q, hq, rfl⟩ := Option.map_eq_some_iff.mp h
      obtain ⟨hhist, -, -, -, hcall⟩ := published_start hq
      refine ⟨rfl, ?_⟩
      by_cases hw : w = event.shard n
      · subst hw
        simp [State.setQueue, hcall .worker (by simp), hhist]
      · simp [State.setQueue, hw]
    · cases h
  | push b =>
    simp only [step] at h
    split at h
    · next event rest hp =>
      obtain ⟨q, hq, rfl⟩ := Option.map_eq_some_iff.mp h
      obtain ⟨hcall, hret, -⟩ := producer_step hk (hbooks.lanes _) (hbooks.carrying event rest _ hp rfl) hq
      have hqueues : ((s.setQueue (event.shard n) q).afterPush event rest (q.call .producer).result).queues =
          Function.update s.queues (event.shard n) q := by
        unfold State.afterPush
        split <;> rfl
      refine ⟨by rw [(afterPush_worker _ _ _ _).1]; rfl, ?_⟩
      rw [hqueues]
      by_cases hw : w = event.shard n
      · subst hw
        simp [hcall, hret]
      · simp [hw]
    · cases h
  | drop =>
    simp only [step] at h
    split at h
    · obtain rfl := Option.some.inj h
      exact ⟨rfl, rfl, rfl⟩
    · cases h
  | popStep v b =>
    have hv : w ≠ v := fun he => ha (he ▸ rfl)
    simp only [step] at h
    split at h
    · obtain ⟨q, hq, rfl⟩ := Option.map_eq_some_iff.mp h
      unfold State.afterPop
      split <;> simp [State.setWorker, State.setQueue, hv]
    · cases h
  | pop v | count v | detect v now | fire v | store v | done v =>
    have hv : w ≠ v := fun he => ha (he ▸ rfl)
    simp only [step] at h
    split at h
    · first
      | obtain ⟨q, hq, rfl⟩ := Option.map_eq_some_iff.mp h
        simp [State.setWorker, State.setQueue, hv]
      | obtain rfl := Option.some.inj h
        simp [State.setWorker, AppState.countAlert, AppState.storeAlert, hv]
    · cases h

/-- The step lemma: a worker that is not through comes closer to it, or closer to its
compare-exchange, or its compare-exchange fails spuriously. -/
theorem toDo_of_step (hk : 1 ≤ k) (hbooks : Books k s) (h : step D s a = some u)
    (hw : a.worker = some w) (hN : N ≤ (acceptedBy w s.outcomes).length) (hnot : ¬ s.through w N) :
    u.toDo w N < s.toDo w N ∨ u.toDo w N = s.toDo w N ∧
      (a = .popStep w true ∧ s.claims w ∨ u.toClaim w < s.toClaim w) := by
  cases a with
  | nextBatch | nextEvent | push | drop => cases hw
  | pop v =>
    obtain rfl := Option.some.inj hw
    simp only [step] at h
    split at h
    · next hv =>
      obtain ⟨q, hq, rfl⟩ := Option.map_eq_some_iff.mp h
      obtain ⟨hhist, -, -, hcall, -⟩ := published_start hq
      refine .inr ⟨?_, .inr ?_⟩
      · simp [State.toDo, State.setWorker, State.setQueue, hv, hhist, hcall, Op.start, Worker.kindsLeft,
          Worker.stepsLeft, Call.toReturn]
      · simp [State.toClaim, State.setWorker, State.setQueue, hv, hcall, Op.start, Worker.toClaim,
          Call.toClaim]
    · cases h
  | popStep v b =>
    obtain rfl := Option.some.inj hw
    simp only [step] at h
    split at h
    · next hv =>
      obtain ⟨q, hq, rfl⟩ := Option.map_eq_some_iff.mp h
      have hmore : (returned (s.queues v).history).length < (s.queues v).published.length := by
        rw [hbooks.published]
        exact (not_le.mp fun hle => hnot ⟨by rw [hv]; rfl, hle⟩).trans_le hN
      obtain ⟨hres, hret, hcloser⟩ | ⟨x, hres, hret⟩ := pop_advances hk (hbooks.lanes v) hmore hq
      · rw [hres]
        simp only [State.afterPop, State.toDo, State.toClaim, State.claims, State.setQueue,
          Function.update_self, hv, hret, Worker.kindsLeft, Worker.stepsLeft, Worker.toClaim]
        obtain hlt | ⟨he, hlt | ⟨rfl, hcas⟩⟩ := hcloser
        · exact .inl (by simpa [Prod.Lex.toLex_lt_toLex] using hlt)
        · exact .inr ⟨by rw [he], .inr hlt⟩
        · exact .inr ⟨by rw [he], .inl ⟨rfl, trivial, hcas⟩⟩
      · have hlt : (returned (s.queues v).history).length < N :=
          not_le.mp fun hle => hnot ⟨by rw [hv]; rfl, hle⟩
        rw [hres]
        refine .inl (Prod.Lex.toLex_lt_toLex.mpr (.inl ?_))
        simp only [State.afterPop, State.setWorker, State.setQueue, Function.update_self, hret]
        omega
    · cases h
  | count v | detect v now | fire v | store v | done v =>
    obtain rfl := Option.some.inj hw
    simp only [step] at h
    split at h
    · next hv =>
      obtain rfl := Option.some.inj h
      left
      simp [State.toDo, State.setWorker, AppState.countAlert, AppState.storeAlert, hv, Worker.kindsLeft,
        Worker.stepsLeft, Prod.Lex.toLex_lt_toLex, Nat.mul_add]
    · cases h

omit [NeZero n] in
theorem outcomes_afterPop (s : State n δ) (w : Fin n) (r : Option (Result NetworkEvent)) :
    (s.afterPop w r).outcomes = s.outcomes := by
  unfold State.afterPop
  split <;> rfl

omit [NeZero n] in
theorem outcomes_afterPush (s : State n δ) (event : NetworkEvent) (rest : List NetworkEvent)
    (r : Option (Result NetworkEvent)) : s.outcomes <+: (s.afterPush event rest r).outcomes := by
  unfold State.afterPush
  split
  · exact List.prefix_append _ _
  · exact List.prefix_append _ _
  · exact List.prefix_refl _

/-- Outcomes are not taken back. -/
theorem outcomes_of_stage (h : Stage s u) : s.outcomes <+: u.outcomes := by
  cases h with
  | push event rest b q hp hq => exact outcomes_afterPush (s.setQueue (event.shard n) q) event rest _
  | popStep w b q hw hq => exact (outcomes_afterPop (s.setQueue w q) w _).symm ▸ List.prefix_refl _
  | _ => exact List.prefix_refl _

end Steps

theorem worker_nextOfWorker (s : State n δ) (w : Fin n) (now : Nat) :
    (s.nextOfWorker w now).worker = some w := by
  unfold State.nextOfWorker
  split <;> rfl

theorem nextOfWorker_ne_spurious (s : State n δ) (w v : Fin n) (now : Nat) :
    s.nextOfWorker w now ≠ .popStep v true := by
  unfold State.nextOfWorker
  split <;> simp

/-- An infinite run in which a worker takes its turn again and again. Where its compare-exchange is
tried again and again, it does not always fail spuriously. -/
structure FairRun [NeZero n] (D : Detectors δ) (k : Nat) (w : Fin n)
    (run : ℕ → State n δ × List (Fin n × Entry)) (act : ℕ → Action n) : Prop where
  start : ((pipeline n D k).logged entries).Reachable (run 0)
  step : ∀ i, ((pipeline n D k).logged entries).step (run i) (act i) = some (run (i + 1))
  turns : ∃ᶠ i in atTop, (act i).worker = some w
  claims : (∃ᶠ i in atTop, (run i).1.claims w ∧ act i = .popStep w true) →
    ∃ᶠ i in atTop, (run i).1.claims w ∧ act i = .popStep w false

section Runs
variable [NeZero n] {D : Detectors δ} {k N : Nat} {w : Fin n} {run : ℕ → State n δ × List (Fin n × Entry)}
  {act : ℕ → Action n}

theorem FairRun.reachable (h : FairRun D k w run act) (i : ℕ) :
    ((pipeline n D k).logged entries).Reachable (run i) := by
  induction i with
  | zero => exact h.start
  | succ i ih => exact ih.next (h.step i)

theorem FairRun.later (h : FairRun D k w run act) {i j : ℕ} (hij : i ≤ j) :
    (run i).1.outcomes <+: (run j).1.outcomes ∧ (run i).2 <+: (run j).2 := by
  induction j, hij using Nat.le_induction with
  | base => exact ⟨List.prefix_refl _, List.prefix_refl _⟩
  | succ j _ ih =>
    obtain ⟨hstep, hlog⟩ := Guarded.logged_step (h.step j)
    exact ⟨ih.1.trans (outcomes_of_stage (stage_of_step hstep)),
      ih.2.trans (hlog ▸ List.prefix_append _ _)⟩

theorem acceptedBy_grows {outcomes outcomes' : List (NetworkEvent × Bool)} (h : outcomes <+: outcomes')
    (w : Fin n) : acceptedBy w outcomes <+: acceptedBy w outcomes' :=
  (h.filter _).map _

/-- Again and again the worker comes to the end of all that had been accepted. -/
theorem FairRun.through (hk : 1 ≤ k) (h : FairRun D k w run act) {i : ℕ}
    (hN : N ≤ (acceptedBy w (run i).1.outcomes).length) : ∃ᶠ j in atTop, (run j).1.through w N := by
  have hstep : ∀ᶠ j in atTop, ¬ (run j).1.through w N →
      (run (j + 1)).1.toDo w N < (run j).1.toDo w N ∨ (run (j + 1)).1.toDo w N = (run j).1.toDo w N ∧
        (((run j).1.claims w ∧ act j = .popStep w true) ∨ (run (j + 1)).1.toClaim w < (run j).1.toClaim w ∨
          (run (j + 1)).1.toClaim w = (run j).1.toClaim w ∧ ¬ (act j).worker = some w) := by
    filter_upwards [eventually_ge_atTop i] with j hj hnot
    have hbooks := books_of_reachable hk (h.reachable j).of_logged
    have hs := (Guarded.logged_step (h.step j)).1
    by_cases hw : (act j).worker = some w
    · have hlen := hN.trans (acceptedBy_grows (h.later hj).1 w).length_le
      obtain hlt | ⟨he, ⟨ha, hc⟩ | hlt⟩ := toDo_of_step hk hbooks hs hw hlen hnot
      · exact .inl hlt
      · exact .inr ⟨he, .inl ⟨hc, ha⟩⟩
      · exact .inr ⟨he, .inr (.inl hlt)⟩
    · obtain ⟨hworker, hcall, hret⟩ := worker_of_other hk hbooks hs hw
      refine .inr ⟨?_, .inr (.inr ⟨?_, hw⟩)⟩
      · simp only [State.toDo, hworker, hcall, hret]
      · simp only [State.toClaim, hworker, hcall]
  refine Fair.reaches_of_strong (fun j => (run j).1.toDo w N) (fun j => (run j).1.toClaim w) h.turns
    (fun hfails => ?_) hstep
  refine ((h.claims hfails).and_eventually hstep).mono fun j ⟨⟨hc, ha⟩, hj⟩ hnot => ?_
  obtain hlt | ⟨-, hf | hlt | ⟨-, hw⟩⟩ := hj hnot
  · exact hlt
  · rw [ha] at hf
    cases hf.2
  · obtain ⟨hpop, pos, hcas⟩ := hc
    rw [State.toClaim, State.toClaim, hpop, hcas] at hlt
    cases hlt
  · exact absurd (ha ▸ rfl) hw

/-- A worker that is through has handled what had been accepted: its detectors have been asked, and
what they have raised is stored. -/
theorem Served.through {s : State n δ} {log : List (Fin n × Entry)} (h : Served D s log)
    {accepted : List NetworkEvent} (ha : accepted <+: acceptedBy w s.outcomes)
    (hs : s.through w accepted.length) :
    accepted.flatMap questions <+: (askedIn (entriesOf w log)).map (fun x => (x.1, x.2.2)) ∧
      (D.machine.outputs D.fresh (askedIn (entriesOf w log))).flatten = storedIn (entriesOf w log) := by
  obtain ⟨hidle, hlen⟩ := hs
  obtain ⟨hpopped, hunasked, hpending, hrecording⟩ : (s.worker w).popped = [] ∧ (s.worker w).unasked = [] ∧
      (s.worker w).pending = [] ∧ (s.worker w).recording = none := by
    generalize s.worker w = c at hidle
    cases c with
    | waiting | popping => exact ⟨rfl, rfl, rfl, rfl⟩
    | _ => cases hidle
  obtain ⟨hasked, -, hraised, hstored⟩ := h.ledger w
  rw [hunasked, List.append_nil] at hasked
  rw [hpending, List.append_nil] at hraised
  rw [hrecording, Option.toList_none, List.append_nil] at hstored
  have hhandled : accepted <+: handledIn (entriesOf w log) := by
    have heq := h.handled w
    rw [hpopped, List.append_nil, State.poppedBy] at heq
    rw [heq]
    exact List.prefix_take_iff.mpr ⟨ha, hlen⟩
  rw [hasked, ← hraised, hstored]
  exact ⟨hhandled.flatMap _, rfl⟩

/-- At some later time the detectors have been asked about all that has been accepted now, and
everything that they have raised is stored. -/
theorem FairRun.inspected (hk : 1 ≤ k) (h : FairRun D k w run act) (i : ℕ) : ∃ m, i ≤ m ∧
    (acceptedBy w (run i).1.outcomes).flatMap questions <+:
      (askedIn (entriesOf w (run m).2)).map (fun x => (x.1, x.2.2)) ∧
    (D.machine.outputs D.fresh (askedIn (entriesOf w (run m).2))).flatten =
      storedIn (entriesOf w (run m).2) := by
  obtain ⟨m, hm, hthrough⟩ := frequently_atTop.mp (h.through hk (i := i) le_rfl) i
  exact ⟨m, hm, (served_of_reachable hk (h.reachable m)).through
    (acceptedBy_grows (h.later hm).1 w) hthrough⟩

theorem FairRun.entries_grow (h : FairRun D k w run act) {m j : ℕ} (hj : m ≤ j) :
    entriesOf w (run m).2 <+: entriesOf w (run j).2 :=
  ((h.later hj).2.filter _).map _

/-- Everything that a worker's queue has accepted is shown to all three detectors in the end, and
the alerts that they raise are stored. -/
theorem inspected_eventually (hk : 1 ≤ k) (h : FairRun D k w run act) (i : ℕ) :
    ∀ᶠ j in atTop, ∃ asked, asked <+: askedIn (entriesOf w (run j).2) ∧
      (acceptedBy w (run i).1.outcomes).flatMap questions <+: asked.map (fun x => (x.1, x.2.2)) ∧
      (D.machine.outputs D.fresh asked).flatten <+: storedIn (entriesOf w (run j).2) := by
  obtain ⟨m, -, hasked, hstored⟩ := h.inspected hk i
  filter_upwards [eventually_ge_atTop m] with j hj
  have hlog := h.entries_grow hj
  exact ⟨_, hlog.filterMap _, hasked, hstored ▸ hlog.filterMap _⟩

/-- The run in which only one worker goes on. -/
def onward (D : Detectors δ) (k : Nat) (w : Fin n) (x : State n δ × List (Fin n × Entry)) :
    ℕ → State n δ × List (Fin n × Entry)
  | 0 => x
  | i + 1 =>
    (((pipeline n D k).logged entries).step (onward D k w x i)
      ((onward D k w x i).1.nextOfWorker w i)).getD (onward D k w x i)

/-- From every reachable state there is such a run, and it is fair. -/
theorem fairRun_onward (hk : 1 ≤ k) {x : State n δ × List (Fin n × Entry)}
    (hr : ((pipeline n D k).logged entries).Reachable x) (w : Fin n) :
    FairRun D k w (onward D k w x) fun i => (onward D k w x i).1.nextOfWorker w i := by
  have hstep (i : ℕ) (hi : ((pipeline n D k).logged entries).Reachable (onward D k w x i)) :
      ((pipeline n D k).logged entries).step (onward D k w x i) ((onward D k w x i).1.nextOfWorker w i) =
        some (onward D k w x (i + 1)) := by
    obtain ⟨u, hu⟩ := (linked_of_reachable hk hi.of_logged).nextOfWorker D w i
    obtain ⟨y, hy⟩ : ∃ y, ((pipeline n D k).logged entries).step (onward D k w x i)
        ((onward D k w x i).1.nextOfWorker w i) = some y := ⟨_, Option.map_eq_some_iff.mpr ⟨u, hu, rfl⟩⟩
    rw [onward, hy]
    rfl
  have hreach (i : ℕ) : ((pipeline n D k).logged entries).Reachable (onward D k w x i) := by
    induction i with
    | zero => exact hr
    | succ i ih => exact ih.next (hstep i ih)
  refine ⟨hr, fun i => hstep i (hreach i), ?_, fun hfails => ?_⟩
  · exact Frequently.of_forall fun i => worker_nextOfWorker _ w i
  · obtain ⟨i, -, hi⟩ := hfails.exists
    exact absurd hi (nextOfWorker_ne_spurious _ w w i)

end Runs

theorem twoProbes_logged : (((pipeline 2 quietDetectors 1).logged entries).exec
    ((pipeline 2 quietDetectors 1).logged entries).init twoProbes).isSome := by
  decide +kernel

/-- Two events of one source have been accepted, and its worker goes on. -/
theorem inspected_eventually_twoProbes :
    let S := (pipeline 2 quietDetectors 1).logged entries
    let x := (S.exec S.init twoProbes).get twoProbes_logged
    let w := probe.shard 2
    ∀ᶠ j in atTop, ∃ asked, asked <+: askedIn (entriesOf w (onward quietDetectors 1 w x j).2) ∧
      (acceptedBy w x.1.outcomes).flatMap questions <+: asked.map (fun x => (x.1, x.2.2)) ∧
      (quietDetectors.machine.outputs quietDetectors.fresh asked).flatten <+:
        storedIn (entriesOf w (onward quietDetectors 1 w x j).2) :=
  inspected_eventually le_rfl (fairRun_onward le_rfl ⟨twoProbes, (Option.some_get _).symm⟩ _) 0

end ThreatEngine.Pipeline
