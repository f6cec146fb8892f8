import ThreatEngine.Lib.Mealy
import ThreatEngine.Pipeline.Accounting
import ThreatEngine.Pipeline.AlertHistory

/-! The pipeline refines one sequential detector machine for each worker. However
the threads interleave, a worker's detectors are asked about the accepted events
of its shard in the order of generation, each event by all three detectors in
turn, and every alert that they raise is counted and stored once, in order. -/
namespace ThreatEngine.Pipeline
open Queue
variable {n : Nat} {δ : Type}

/-- The detectors of one worker as a machine of their own. -/
def Detectors.machine (D : Detectors δ) :
    Mealy.Machine δ (DetectorKind × Nat × NetworkEvent) (List Alert) where
  init := D.fresh
  step d x := D.detect x.1 x.2.1 x.2.2 d

/-- What a worker does that others can tell. -/
inductive Entry where
  | handled (event : NetworkEvent)
  | asked (kind : DetectorKind) (now : Nat) (event : NetworkEvent)
  | recorded (alert : Alert)
  | stored (alert : Alert)

/-- The entries that a step makes in the log, with their worker. -/
def entries (s : State n δ) : Action n → List (Fin n × Entry)
  | .count w =>
    match s.worker w with
    | .counting event => [(w, .handled event)]
    | _ => []
  | .detect w now =>
    match s.worker w with
    | .detecting event (kind :: _) [] => [(w, .asked kind now event)]
    | _ => []
  | .fire w =>
    match s.worker w with
    | .detecting _ _ (alert :: _) => [(w, .recorded alert)]
    | _ => []
  | .store w =>
    match s.worker w with
    | .storing _ _ alert _ => [(w, .stored alert)]
    | _ => []
  | _ => []

/-- The entries of one worker. -/
def entriesOf (w : Fin n) (log : List (Fin n × Entry)) : List Entry :=
  (log.filter fun x => x.1 = w).map Prod.snd

def handledIn (log : List Entry) : List NetworkEvent :=
  log.filterMap fun
    | .handled event => some event
    | _ => none

def askedIn (log : List Entry) : List (DetectorKind × Nat × NetworkEvent) :=
  log.filterMap fun
    | .asked kind now event => some (kind, now, event)
    | _ => none

def recordedIn (log : List Entry) : List Alert :=
  log.filterMap fun
    | .recorded alert => some alert
    | _ => none

def storedIn (log : List Entry) : List Alert :=
  log.filterMap fun
    | .stored alert => some alert
    | _ => none

/-- The questions that an event raises. -/
def questions (event : NetworkEvent) : List (DetectorKind × NetworkEvent) :=
  [(.signature, event), (.anomaly, event), (.cep, event)]

/-- The event that a worker has popped and not counted. -/
def Worker.popped : Worker → List NetworkEvent
  | .counting event => [event]
  | _ => []

/-- The questions that a worker has not asked yet about the event it has counted. -/
def Worker.unasked : Worker → List (DetectorKind × NetworkEvent)
  | .detecting event kinds _ | .storing event kinds _ _ => kinds.map fun kind => (kind, event)
  | _ => []

/-- One turn of a worker's loop body, with its detectors and its entries. -/
inductive Turn (D : Detectors δ) (d : δ) : Worker → List Entry → Worker → δ → Prop where
  | rest (c) : Turn D d c [] c d
  | pop : Turn D d .waiting [] .popping d
  | popped (event) : Turn D d .popping [] (.counting event) d
  | empty : Turn D d .popping [] .waiting d
  | count (event) : Turn D d (.counting event) [.handled event]
      (.detecting event [.signature, .anomaly, .cep] []) d
  | detect (now event kind kinds) : Turn D d (.detecting event (kind :: kinds) [])
      [.asked kind now event] (.detecting event kinds (D.detect kind now event d).2)
      (D.detect kind now event d).1
  | fire (event kinds alert alerts) : Turn D d (.detecting event kinds (alert :: alerts))
      [.recorded alert] (.storing event kinds alert alerts) d
  | store (event kinds alert alerts) : Turn D d (.storing event kinds alert alerts)
      [.stored alert] (.detecting event kinds alerts) d
  | done (event) : Turn D d (.detecting event [] []) [] .waiting d

section Turns
variable {D : Detectors δ} {s u : State n δ} {a : Action n}

/-- A worker that takes its turn while the others rest. -/
theorem turn_setWorker {w : Fin n} {c : Worker} {e : List Entry} {d : δ}
    (h : Turn D (s.detectors w) (s.worker w) e c d) (v : Fin n) :
    Turn D (s.detectors v) (s.worker v) (entriesOf v (e.map fun x => (w, x)))
      (Function.update s.worker w c v) (Function.update s.detectors w d v) := by
  by_cases hv : v = w
  · subst hv
    rw [Function.update_self, Function.update_self, entriesOf, List.filter_map]
    simpa [Function.comp_def] using h
  · rw [Function.update_of_ne hv, Function.update_of_ne hv, entriesOf, List.filter_map]
    simpa [Function.comp_def, Ne.symm hv] using .rest (s.worker v)

/-- A worker that takes its turn without asking its detectors. -/
theorem turn_setWorker_same {w : Fin n} {c : Worker} {e : List Entry}
    (h : Turn D (s.detectors w) (s.worker w) e c (s.detectors w)) (v : Fin n) :
    Turn D (s.detectors v) (s.worker v) (entriesOf v (e.map fun x => (w, x)))
      (Function.update s.worker w c v) (s.detectors v) := by
  have hturn := turn_setWorker h v
  rwa [Function.update_eq_self] at hturn

theorem turn_afterPop {w : Fin n} (hw : s.worker w = .popping)
    (r : Option (Result NetworkEvent)) (v : Fin n) :
    Turn D (s.detectors v) (s.worker v) [] ((s.afterPop w r).worker v) (s.detectors v) := by
  unfold State.afterPop
  split
  · next event => exact turn_setWorker_same (e := []) (hw ▸ .popped event) v
  · exact turn_setWorker_same (e := []) (hw ▸ .empty) v
  · exact .rest _

theorem afterPush_worker (s : State n δ) (event : NetworkEvent) (rest : List NetworkEvent)
    (r : Option (Result NetworkEvent)) :
    (s.afterPush event rest r).worker = s.worker ∧ (s.afterPush event rest r).detectors = s.detectors := by
  unfold State.afterPush
  split <;> exact ⟨rfl, rfl⟩

theorem afterPop_detectors (s : State n δ) (w : Fin n) (r : Option (Result NetworkEvent)) :
    (s.afterPop w r).detectors = s.detectors := by
  unfold State.afterPop
  split <;> rfl

variable [NeZero n]

/-- Seen from any worker, a step of the pipeline is a turn of its loop body. -/
theorem turn_of_step (h : step D s a = some u) (v : Fin n) :
    Turn D (s.detectors v) (s.worker v) (entriesOf v (entries s a)) (u.worker v) (u.detectors v) := by
  cases a with
  | nextBatch events =>
    simp only [step] at h
    split at h
    · obtain rfl := Option.some.inj h
      exact .rest _
    · cases h
  | nextEvent =>
    simp only [step] at h
    split at h
    · obtain ⟨q, -, rfl⟩ := Option.map_eq_some_iff.mp h
      exact .rest _
    · cases h
  | push b =>
    simp only [step] at h
    split at h
    · next event rest _ =>
      obtain ⟨q, -, rfl⟩ := Option.map_eq_some_iff.mp h
      obtain ⟨hworker, hdetectors⟩ := afterPush_worker (s.setQueue (event.shard n) q) event rest
        (q.call .producer).result
      rw [hworker, hdetectors]
      exact .rest _
    · cases h
  | drop =>
    simp only [step] at h
    split at h
    · obtain rfl := Option.some.inj h
      exact .rest _
    · cases h
  | pop w =>
    simp only [step] at h
    split at h
    · next hw =>
      obtain ⟨q, -, rfl⟩ := Option.map_eq_some_iff.mp h
      exact turn_setWorker_same (e := []) (hw ▸ .pop) v
    · cases h
  | popStep w b =>
    simp only [step] at h
    split at h
    · next hw =>
      obtain ⟨q, -, rfl⟩ := Option.map_eq_some_iff.mp h
      rw [afterPop_detectors]
      exact turn_afterPop (s := s.setQueue w q) hw _ v
    · cases h
  | count w =>
    simp only [step] at h
    split at h
    · next event hw =>
      obtain rfl := Option.some.inj h
      simp only [entries, hw]
      exact turn_setWorker_same (e := [.handled event]) (hw ▸ .count event) v
    · cases h
  | detect w now =>
    simp only [step] at h
    split at h
    · next event kind kinds hw =>
      obtain rfl := Option.some.inj h
      simp only [entries, hw]
      exact turn_setWorker (e := [.asked kind now event]) (hw ▸ .detect now event kind kinds) v
    · cases h
  | fire w =>
    simp only [step] at h
    split at h
    · next event kinds alert alerts hw =>
      obtain rfl := Option.some.inj h
      simp only [entries, hw]
      exact turn_setWorker_same (e := [.recorded alert]) (hw ▸ .fire event kinds alert alerts) v
    · cases h
  | store w =>
    simp only [step] at h
    split at h
    · next event kinds alert alerts hw =>
      obtain rfl := Option.some.inj h
      simp only [entries, hw]
      exact turn_setWorker_same (e := [.stored alert]) (hw ▸ .store event kinds alert alerts) v
    · cases h
  | done w =>
    simp only [step] at h
    split at h
    · next event hw =>
      obtain rfl := Option.some.inj h
      exact turn_setWorker_same (e := []) (hw ▸ .done event) v
    · cases h

end Turns

/-- What the log of one worker says about the worker and its detectors. -/
structure Ledger (D : Detectors δ) (c : Worker) (d : δ) (log : List Entry) : Prop where
  asked : (askedIn log).map (fun x => (x.1, x.2.2)) ++ c.unasked = (handledIn log).flatMap questions
  state : d = D.machine.after D.fresh (askedIn log)
  raised : recordedIn log ++ c.pending = (D.machine.outputs D.fresh (askedIn log)).flatten
  stored : storedIn log ++ c.recording.toList = recordedIn log

section Ledgers
variable {D : Detectors δ} {d d' : δ} {c c' : Worker} {log e : List Entry}

@[simp] theorem handledIn_append (log e : List Entry) :
    handledIn (log ++ e) = handledIn log ++ handledIn e := List.filterMap_append

@[simp] theorem handledIn_singleton (x : Entry) : handledIn [x] = match x with
    | .handled event => [event]
    | _ => [] := by
  cases x <;> rfl

@[simp] theorem askedIn_append (log e : List Entry) :
    askedIn (log ++ e) = askedIn log ++ askedIn e := List.filterMap_append

@[simp] theorem askedIn_singleton (x : Entry) : askedIn [x] = match x with
    | .asked kind now event => [(kind, now, event)]
    | _ => [] := by
  cases x <;> rfl

@[simp] theorem recordedIn_append (log e : List Entry) :
    recordedIn (log ++ e) = recordedIn log ++ recordedIn e := List.filterMap_append

@[simp] theorem recordedIn_singleton (x : Entry) : recordedIn [x] = match x with
    | .recorded alert => [alert]
    | _ => [] := by
  cases x <;> rfl

@[simp] theorem storedIn_append (log e : List Entry) :
    storedIn (log ++ e) = storedIn log ++ storedIn e := List.filterMap_append

@[simp] theorem storedIn_singleton (x : Entry) : storedIn [x] = match x with
    | .stored alert => [alert]
    | _ => [] := by
  cases x <;> rfl

@[simp] theorem entriesOf_append (w : Fin n) (log e : List (Fin n × Entry)) :
    entriesOf w (log ++ e) = entriesOf w log ++ entriesOf w e := by
  simp [entriesOf]

/-- A turn that leaves no entry, and the worker with what it had. -/
theorem Ledger.quiet (h : Ledger D c d log) (hunasked : c'.unasked = c.unasked)
    (hpending : c'.pending = c.pending) (hrecording : c'.recording = c.recording) :
    Ledger D c' d (log ++ []) := by
  rw [List.append_nil]
  exact ⟨hunasked ▸ h.asked, h.state, hpending ▸ h.raised, hrecording ▸ h.stored⟩

/-- The step lemma of one worker. -/
theorem Ledger.turn (h : Ledger D c d log) (ht : Turn D d c e c' d') :
    Ledger D c' d' (log ++ e) := by
  cases ht with
  | rest c => exact h.quiet rfl rfl rfl
  | pop => exact h.quiet rfl rfl rfl
  | popped event => exact h.quiet rfl rfl rfl
  | empty => exact h.quiet rfl rfl rfl
  | done event => exact h.quiet rfl rfl rfl
  | count event =>
    obtain ⟨hasked, hstate, hraised, hstored⟩ := h
    refine ⟨?_, ?_, ?_, ?_⟩
    · simp only [Worker.unasked, List.append_nil] at hasked
      simp [hasked, questions, Worker.unasked]
    · simpa using hstate
    · simpa [Worker.pending] using hraised
    · simpa [Worker.recording] using hstored
  | detect now event kind kinds =>
    obtain ⟨hasked, hstate, hraised, hstored⟩ := h
    refine ⟨?_, ?_, ?_, ?_⟩
    · simpa [Worker.unasked] using hasked
    · rw [askedIn_append, Mealy.after_append, ← hstate]
      rfl
    · rw [askedIn_append, Mealy.outputs_append, ← hstate, List.flatten_append, ← hraised]
      simp [Worker.pending, Mealy.Machine.outputs, Detectors.machine]
    · simpa [Worker.recording] using hstored
  | fire event kinds alert alerts | store event kinds alert alerts =>
    obtain ⟨hasked, hstate, hraised, hstored⟩ := h
    refine ⟨?_, ?_, ?_, ?_⟩
    · simpa [Worker.unasked] using hasked
    · simpa using hstate
    · simpa [Worker.pending] using hraised
    · simpa [Worker.recording] using hstored

/-- What a worker that was inside `pop` has popped now. -/
def Worker.gained (c c' : Worker) : List NetworkEvent := if c = .popping then c'.popped else []

theorem gained_self (c : Worker) : c.gained c = [] := by
  unfold Worker.gained
  split
  · next h => rw [h]; rfl
  · rfl

theorem gained_of_ne {c : Worker} (h : c ≠ .popping) (c' : Worker) : c.gained c' = [] := if_neg h

/-- An event is counted after it has been popped. -/
theorem Turn.handled (ht : Turn D d c e c' d') :
    handledIn e ++ c'.popped = c.popped ++ c.gained c' := by
  cases ht with
  | rest c => rw [gained_self, List.append_nil]; rfl
  | pop => rw [gained_of_ne (by simp)]; rfl
  | count event => rw [gained_of_ne (by simp)]; rfl
  | detect now event kind kinds => rw [gained_of_ne (by simp)]; rfl
  | fire event kinds alert alerts => rw [gained_of_ne (by simp)]; rfl
  | store event kinds alert alerts => rw [gained_of_ne (by simp)]; rfl
  | done event => rw [gained_of_ne (by simp)]; rfl
  | popped event => rfl
  | empty => rfl

end Ledgers

section Popping
variable [NeZero n] {D : Detectors δ} {k : Nat} {s u : State n δ} {a : Action n}

/-- The events that pops of a worker have returned, by the books. -/
def State.poppedBy (s : State n δ) (w : Fin n) : List NetworkEvent :=
  (acceptedBy w s.outcomes).take (returned (s.queues w).history).length

theorem Books.returned_le (hk : 1 ≤ k) (h : Books k s) (w : Fin n) :
    (returned (s.queues w).history).length ≤ (acceptedBy w s.outcomes).length := by
  have hlen := length_published_eq hk (h.lanes w)
  rw [h.published] at hlen
  omega

/-- The queues may move as long as no pop returns. -/
theorem poppedBy_setQueue (s : State n δ) {w : Fin n} {q : Queue.State Role NetworkEvent}
    (hq : (returned q.history).length = (returned (s.queues w).history).length) (v : Fin n) :
    (s.setQueue w q).poppedBy v = s.poppedBy v := by
  unfold State.poppedBy State.setQueue
  by_cases hv : v = w
  · subst hv
    simp only [Function.update_self, hq]
  · simp only [Function.update_of_ne hv]

/-- A push that returns changes nothing of what has been popped. -/
theorem Books.poppedBy_afterPush (hk : 1 ≤ k) (h : Books k s) {w : Fin n}
    {q : Queue.State Role NetworkEvent} (hq : returned q.history = returned (s.queues w).history)
    (event : NetworkEvent) (rest : List NetworkEvent) (r : Option (Result NetworkEvent)) (v : Fin n) :
    ((s.setQueue w q).afterPush event rest r).poppedBy v = s.poppedBy v := by
  have hlen := h.returned_le hk v
  have hsame := poppedBy_setQueue s (congrArg List.length hq) v
  have hret : (returned ((s.setQueue w q).queues v).history).length =
      (returned (s.queues v).history).length := by
    by_cases hv : v = w
    · subst hv
      simp [State.setQueue, hq]
    · simp [State.setQueue, hv]
  have hmore (ok : Bool) : (acceptedBy v (s.outcomes ++ [(event, ok)])).take
      (returned (s.queues v).history).length = s.poppedBy v := by
    rw [acceptedBy_append]
    split
    · exact List.take_append_of_le_length hlen
    · rfl
  unfold State.afterPush
  split
  · simp only [State.poppedBy, hret]
    exact hmore true
  · simp only [State.poppedBy, hret]
    exact hmore false
  · exact hsame

/-- A step pops at most one event, the next one that the worker's queue has accepted. -/
theorem Books.poppedBy_of_step (hk : 1 ≤ k) (h : Books k s) (hs : Stage s u) (v : Fin n) :
    u.poppedBy v = s.poppedBy v ++ (s.worker v).gained (u.worker v) := by
  cases hs with
  | nextBatch events hp => rw [gained_self, List.append_nil]; rfl
  | drop event rest hp => rw [gained_self, List.append_nil]; rfl
  | nextEvent event rest q hp hq =>
    obtain ⟨hhist, -⟩ := published_start hq
    change (s.setQueue _ q).poppedBy v = s.poppedBy v ++ (s.worker v).gained (s.worker v)
    rw [gained_self, List.append_nil]
    exact poppedBy_setQueue s (by rw [hhist]) v
  | push event rest b q hp hq =>
    obtain ⟨_, hret, -⟩ := producer_step hk (h.lanes _) (h.carrying event rest _ hp rfl) hq
    rw [(afterPush_worker _ _ _ _).1]
    change _ = s.poppedBy v ++ (s.worker v).gained (s.worker v)
    rw [gained_self, List.append_nil]
    exact h.poppedBy_afterPush hk hret event rest _ v
  | pop w q hw hq =>
    obtain ⟨hhist, -⟩ := published_start hq
    have hgained : (s.worker v).gained (((s.setQueue w q).setWorker w .popping).worker v) = [] := by
      by_cases hv : v = w
      · subst hv
        exact gained_of_ne (by simp [hw]) _
      · simp only [State.setWorker, State.setQueue, Function.update_of_ne hv, gained_self]
    rw [hgained, List.append_nil]
    exact poppedBy_setQueue s (by rw [hhist]) v
  | popStep w b q hw hq =>
    obtain ⟨-, -, -, hcases⟩ := worker_step hk (h.lanes w) hq
    by_cases hv : v = w
    · subst hv
      obtain ⟨hres, hret⟩ | ⟨event, hres, hret⟩ | ⟨hres, hret, -⟩ := hcases
      · rw [hres]
        change (s.setQueue v q).poppedBy v = s.poppedBy v ++ (s.worker v).gained (s.worker v)
        rw [gained_self, List.append_nil]
        exact poppedBy_setQueue s hret v
      · have hitem := popped_item hk (h.lanes v) hq hres
        rw [h.published] at hitem
        rw [hres, hw]
        simp only [State.afterPop, State.setWorker, Function.update_self, State.poppedBy,
          State.setQueue, hret, List.take_add_one, hitem]
        rfl
      · rw [hres, hw]
        simp only [State.afterPop, State.setWorker, Function.update_self]
        exact (poppedBy_setQueue s hret v).trans (List.append_nil _).symm
    · have hsame : ((s.setQueue w q).afterPop w (q.call .worker).result).worker v = s.worker v := by
        unfold State.afterPop
        split <;> simp [State.setWorker, State.setQueue, hv]
      have hqueue : ((s.setQueue w q).afterPop w (q.call .worker).result).poppedBy v =
          (s.setQueue w q).poppedBy v := by
        unfold State.afterPop
        split <;> rfl
      rw [hsame, gained_self, List.append_nil, hqueue]
      simp [State.poppedBy, State.setQueue, hv]
  | count w event hw =>
    change s.poppedBy v = s.poppedBy v ++ (s.worker v).gained (Function.update s.worker w _ v)
    by_cases hv : v = w
    · subst hv
      rw [gained_of_ne (by simp [hw]), List.append_nil]
    · rw [Function.update_of_ne hv, gained_self, List.append_nil]
  | report w c alerts alertsFired detectors hw hc =>
    change s.poppedBy v = s.poppedBy v ++ (s.worker v).gained (Function.update s.worker w c v)
    by_cases hv : v = w
    · subst hv
      have hnone : c.popped = [] := by cases c <;> simp_all [Worker.uncounted, Worker.popped]
      simp [Worker.gained, hnone]
    · rw [Function.update_of_ne hv, gained_self, List.append_nil]

end Popping

/-- The invariant: a state of the pipeline and the log of the run that has led to it. -/
structure Served [NeZero n] (D : Detectors δ) (s : State n δ) (log : List (Fin n × Entry)) :
    Prop where
  /-- What a worker has counted, and the event in its hand, are the first events that its queue
  has accepted. -/
  handled : ∀ w, handledIn (entriesOf w log) ++ (s.worker w).popped = s.poppedBy w
  /-- A worker's detectors are those of the sequential machine, and what they have raised is
  recorded or pending. -/
  ledger : ∀ w, Ledger D (s.worker w) (s.detectors w) (entriesOf w log)

section Runs
variable [NeZero n] {D : Detectors δ} {k : Nat}

omit [NeZero n] in
theorem storedIn_entries (s : State n δ) (a : Action n) :
    storedIn ((entries s a).map Prod.snd) = storedAlerts s a := by
  cases a with
  | store w => simp only [entries, storedAlerts]; cases s.worker w <;> rfl
  | count w => simp only [entries, storedAlerts]; cases s.worker w <;> rfl
  | detect w now => simp only [entries, storedAlerts]; split <;> rfl
  | fire w => simp only [entries, storedAlerts]; split <;> rfl
  | _ => rfl

/-- The log of a run contains the log of what it has stored. -/
theorem reachable_stored {x : State n δ × List (Fin n × Entry)}
    (hr : ((pipeline n D k).logged entries).Reachable x) :
    ((pipeline n D k).logged storedAlerts).Reachable (x.1, storedIn (x.2.map Prod.snd)) := by
  refine Guarded.System.Reachable.project (fun x => (x.1, storedIn (x.2.map Prod.snd)))
    (Guarded.System.Reachable.start ((pipeline n D k).logged storedAlerts)) (fun x a y _ hs => ?_) hr
  obtain ⟨hstep, hlog⟩ := Guarded.logged_step hs
  refine .inr ⟨a, ?_⟩
  simp only [Guarded.System.logged, hstep, Option.map_some, hlog, List.map_append, storedIn_append,
    storedIn_entries]

/-- The step lemma. -/
theorem Served.step (hk : 1 ≤ k) {s u : State n δ} {log : List (Fin n × Entry)} {a : Action n}
    (h : Served D s log) (hbooks : Books k s) (hs : Pipeline.step D s a = some u) :
    Served D u (log ++ entries s a) := by
  refine ⟨fun w => ?_, fun w => ?_⟩
  · have hpop := hbooks.poppedBy_of_step hk (stage_of_step hs) w
    rw [entriesOf_append, handledIn_append, List.append_assoc, (turn_of_step hs w).handled,
      ← List.append_assoc, h.handled, hpop]
  · rw [entriesOf_append]
    exact (h.ledger w).turn (turn_of_step hs w)

/-- The run lemma. -/
theorem served_of_reachable (hk : 1 ≤ k) {x : State n δ × List (Fin n × Entry)}
    (hr : ((pipeline n D k).logged entries).Reachable x) : Served D x.1 x.2 := by
  refine hr.rule (P := fun x => Served D x.1 x.2) ?_ fun x a y hx ih hs => ?_
  · exact ⟨fun _ => rfl, fun _ => ⟨rfl, rfl, rfl, rfl⟩⟩
  · obtain ⟨hstep, hlog⟩ := Guarded.logged_step hs
    rw [hlog]
    exact ih.step hk (books_of_reachable hk hx.of_logged) hstep

/-- In every run every worker is a sequential machine that is given the accepted events of its
shard, and the store holds the last 5000 alerts that the workers have stored. -/
theorem workers_sequential (hk : 1 ≤ k) {run : List (Action n)}
    {x : State n δ × List (Fin n × Entry)}
    (h : ((pipeline n D k).logged entries).exec ((pipeline n D k).logged entries).init run = some x) :
    Served D x.1 x.2 ∧ x.1.alerts = (storedIn (x.2.map Prod.snd)).rtake alertHistoryCap := by
  have hr : ((pipeline n D k).logged entries).Reachable x := ⟨run, h⟩
  exact ⟨served_of_reachable hk hr,
    (kept_of_reachable (history_of_pipeline (reachable_stored hr))).alerts⟩

/-- A signature alert for every event, with the next number. -/
def announcing : Detectors UInt64 where
  fresh := 1
  detect kind _ _ d := if kind = .signature then (d + 1, [numbered d]) else (d, [])

/-- Two events for one worker and one for another, which counts its alert before both alerts of
its colleague and stores it after them. -/
def threeAnnounced : List (Action 2) :=
  .nextBatch [probe, { probe with srcIp := 43 }, probe] :: (pushOne 2 ++ pushOne 2 ++ pushOne 2 ++
    recordOne 0 ++ recordOne 1 ++ goOn 1 ++ recordOne 1 ++ goOn 1 ++ [.store 0])

theorem workers_sequential_threeAnnounced :
    let x := (((pipeline 2 announcing 1).logged entries).exec
      ((pipeline 2 announcing 1).logged entries).init threeAnnounced).get (by decide +kernel)
    x.1.alerts = [numbered 1, numbered 2, numbered 1] ∧ Served announcing x.1 x.2 ∧
      x.1.alerts = (storedIn (x.2.map Prod.snd)).rtake alertHistoryCap := by
  intro x
  exact ⟨by decide +kernel, workers_sequential le_rfl (Option.some_get _).symm⟩

end Runs

end ThreatEngine.Pipeline
