import Mathlib.Algebra.BigOperators.Group.Finset.Piecewise
import ThreatEngine.Lib.Exchange
import ThreatEngine.Pipeline.Stages

/-! Every generated event is processed, dropped, queued or in the hand of one
thread, and every worker receives its events in the order of generation. -/
namespace ThreatEngine.Pipeline
open Queue
variable {n : Nat} {δ : Type}

/-- The event that is inside `push`. -/
def Producer.inside : Producer → List NetworkEvent
  | .pushing event _ => [event]
  | _ => []

/-- A push has failed and the drop has not been counted yet. -/
def Producer.failed : Producer → Bool
  | .dropping _ _ => true
  | _ => false

/-- A pop has returned an event that has not been counted yet. -/
def Worker.uncounted : Worker → Bool
  | .counting _ => true
  | _ => false

/-- Events in the hand of a thread between its queue operation and its counter. -/
def State.inHand (s : State n δ) : Nat :=
  s.producer.inside.length + s.producer.failed.toNat +
    ∑ w, (((s.queues w).call .worker).storing.toNat + (s.worker w).uncounted.toNat)

theorem sum_returned_update (queues : Fin n → Queue.State Role NetworkEvent) (w : Fin n)
    (q : Queue.State Role NetworkEvent) :
    ∑ w', (returned (Function.update queues w q w').history).length + (returned (queues w).history).length =
      ∑ w', (returned (queues w').history).length + (returned q.history).length :=
  Exchange.sum_update_add (fun q => (returned q.history).length) queues w q

theorem sum_uncounted_update (worker : Fin n → Worker) (w : Fin n) (c : Worker) :
    ∑ w', (Function.update worker w c w').uncounted.toNat + (worker w).uncounted.toNat =
      ∑ w', (worker w').uncounted.toNat + c.uncounted.toNat :=
  Exchange.sum_update_add (fun c => c.uncounted.toNat) worker w c

section Lanes
variable [NeZero n]

/-- The events of one worker's shard whose push has returned `Ok`. -/
def acceptedBy (w : Fin n) (outcomes : List (NetworkEvent × Bool)) : List NetworkEvent :=
  (outcomes.filter fun o => o.2 && o.1.shard n == w).map Prod.fst

/-- A step of the whole, by what it does to the queues and the books. -/
inductive Stage (s : State n δ) : State n δ → Prop where
  | nextBatch (events) (h : s.producer = .batch []) : Stage s { s with producer := .batch events }
  | nextEvent (event rest q) (h : s.producer = .batch (event :: rest))
      (hq : (s.queues (event.shard n)).step (.call .producer (.push event)) = some q) :
      Stage s { s.setQueue (event.shard n) q with
        producer := .pushing event rest
        generated := s.generated ++ [event] }
  | push (event rest b q) (h : s.producer = .pushing event rest)
      (hq : (s.queues (event.shard n)).step (.step .producer b) = some q) :
      Stage s ((s.setQueue (event.shard n) q).afterPush event rest (q.call .producer).result)
  | drop (event rest) (h : s.producer = .dropping event rest) :
      Stage s { s with producer := .batch rest, eventsDropped := s.eventsDropped + 1 }
  | pop (w q) (h : s.worker w = .waiting) (hq : (s.queues w).step (.call .worker .pop) = some q) :
      Stage s ((s.setQueue w q).setWorker w .popping)
  | popStep (w b q) (h : s.worker w = .popping) (hq : (s.queues w).step (.step .worker b) = some q) :
      Stage s ((s.setQueue w q).afterPop w (q.call .worker).result)
  | count (w event) (h : s.worker w = .counting event) :
      Stage s { s.setWorker w (.detecting event [.signature, .anomaly, .cep] []) with
        eventsProcessed := s.eventsProcessed + 1 }
  | report (w c alerts alertsFired detectors) (h : (s.worker w).uncounted = false) (h' : c.uncounted = false) :
      Stage s { s.setWorker w c with
        alerts := alerts
        alertsFired := alertsFired
        detectors := detectors }

theorem stage_of_step {D : Detectors δ} {s u : State n δ} {a : Action n} (h : step D s a = some u) :
    Stage s u := by
  cases a with
  | nextBatch events =>
    simp only [step] at h
    split at h
    · next hp =>
      obtain rfl := Option.some.inj h
      exact .nextBatch events hp
    · cases h
  | nextEvent =>
    simp only [step] at h
    split at h
    · next event rest hp =>
      obtain ⟨q, hq, rfl⟩ := Option.map_eq_some_iff.mp h
      exact .nextEvent event rest q hp hq
    · cases h
  | push b =>
    simp only [step] at h
    split at h
    · next event rest hp =>
      obtain ⟨q, hq, rfl⟩ := Option.map_eq_some_iff.mp h
      exact .push event rest b q hp hq
    · cases h
  | drop =>
    simp only [step] at h
    split at h
    · next event rest hp =>
      obtain rfl := Option.some.inj h
      exact .drop event rest hp
    · cases h
  | pop w =>
    simp only [step] at h
    split at h
    · next hw =>
      obtain ⟨q, hq, rfl⟩ := Option.map_eq_some_iff.mp h
      exact .pop w q hw hq
    · cases h
  | popStep w b =>
    simp only [step] at h
    split at h
    · next hw =>
      obtain ⟨q, hq, rfl⟩ := Option.map_eq_some_iff.mp h
      exact .popStep w b q hw hq
    · cases h
  | count w =>
    simp only [step] at h
    split at h
    · next event hw =>
      obtain rfl := Option.some.inj h
      exact .count w event hw
    · cases h
  | detect w now =>
    simp only [step] at h
    split at h
    · next event kind kinds hw =>
      obtain rfl := Option.some.inj h
      exact .report w _ _ _ _ (by rw [hw]; rfl) rfl
    · cases h
  | fire w =>
    simp only [step] at h
    split at h
    · next event kinds alert alerts hw =>
      obtain rfl := Option.some.inj h
      exact .report w _ _ _ _ (by rw [hw]; rfl) rfl
    · cases h
  | store w =>
    simp only [step] at h
    split at h
    · next event kinds alert alerts hw =>
      obtain rfl := Option.some.inj h
      exact .report w _ _ _ _ (by rw [hw]; rfl) rfl
    · cases h
  | done w =>
    simp only [step] at h
    split at h
    · next event hw =>
      obtain rfl := Option.some.inj h
      exact .report w _ _ _ _ (by rw [hw]; rfl) rfl
    · cases h

/-- The invariant: what the books say about the queues. -/
structure Books (k : Nat) (s : State n δ) : Prop where
  lanes : ∀ w, (spsc NetworkEvent k).Reachable (s.queues w)
  labelled : s.generated = s.outcomes.map Prod.fst ++ s.producer.inside
  published : ∀ w, (s.queues w).published = acceptedBy w s.outcomes
  dropped : s.eventsDropped + s.producer.failed.toNat = s.outcomes.countP fun o => !o.2
  processed : s.eventsProcessed + ∑ w, (s.worker w).uncounted.toNat =
    ∑ w, (returned (s.queues w).history).length
  carrying : ∀ event rest w, s.producer = .pushing event rest → event.shard n = w →
    ((s.queues w).call .producer).carries (accepted (s.queues w).history) event

variable {k : Nat} {s : State n δ}

theorem acceptedBy_append (w : Fin n) (outcomes : List (NetworkEvent × Bool)) (event : NetworkEvent)
    (ok : Bool) : acceptedBy w (outcomes ++ [(event, ok)]) =
      if ok = true ∧ event.shard n = w then acceptedBy w outcomes ++ [event] else acceptedBy w outcomes := by
  unfold acceptedBy
  rw [List.filter_append, List.map_append]
  by_cases h : ok = true ∧ event.shard n = w
  · rw [if_pos h]
    simp [h.1, h.2]
  · rw [if_neg h]
    cases ok <;> simp_all

theorem Books.lane {a : Queue.Action Role NetworkEvent} (h : Books k s) {w : Fin n}
    {q : Queue.State Role NetworkEvent}
    (ha : permitted a = true) (hq : (s.queues w).step a = some q) (w' : Fin n) :
    (spsc NetworkEvent k).Reachable (Function.update s.queues w q w') := by
  by_cases hw : w' = w
  · subst hw
    rw [Function.update_self]
    exact (h.lanes w').next (a := a) (by simpa [spsc, Guarded.System.restrict, threads, ha] using hq)
  · rw [Function.update_of_ne hw]
    exact h.lanes w'

theorem Books.nextEvent (h : Books k s) {event : NetworkEvent} {rest : List NetworkEvent}
    {w : Fin n}
    {q : Queue.State Role NetworkEvent} (hp : s.producer = .batch (event :: rest)) (hw : event.shard n = w)
    (hq : (s.queues w).step (.call .producer (.push event)) = some q) :
    Books k { s.setQueue w q with producer := .pushing event rest, generated := s.generated ++ [event] } := by
  obtain ⟨hhist, hpub, _, hcall, _⟩ := published_start hq
  have hsum := sum_returned_update s.queues w q
  rw [hhist] at hsum
  have hlabel := h.labelled
  have hdropped := h.dropped
  rw [hp] at hlabel hdropped
  refine ⟨h.lane rfl hq, ?_, ?_, hdropped, h.processed.trans (Nat.add_right_cancel hsum).symm, ?_⟩
  · simpa [State.setQueue, Producer.inside] using hlabel
  · exact (Function.forall_update_iff s.queues fun w q => q.published = acceptedBy w s.outcomes).mpr
      ⟨hpub.trans (h.published w), fun w' _ => h.published w'⟩
  · intro event' rest' w' he hw'
    obtain ⟨rfl, rfl⟩ : event = event' ∧ rest = rest' := by simpa using he
    obtain rfl : w = w' := hw.symm.trans hw'
    simp only [State.setQueue, Function.update_self, hcall]
    rfl

theorem Books.push (hk : 1 ≤ k) (h : Books k s) {event : NetworkEvent} {rest : List NetworkEvent}
    {w : Fin n}
    {b : Bool} {q : Queue.State Role NetworkEvent} (hp : s.producer = .pushing event rest) (hw : event.shard n = w)
    (hq : (s.queues w).step (.step .producer b) = some q) :
    Books k ((s.setQueue w q).afterPush event rest (q.call .producer).result) := by
  obtain ⟨_, hret, hcases⟩ := producer_step hk (h.lanes w) (h.carrying event rest w hp hw) hq
  have hsum := sum_returned_update s.queues w q
  rw [hret] at hsum
  have hprocessed := h.processed.trans (Nat.add_right_cancel hsum).symm
  have hlabel := h.labelled
  have hdropped := h.dropped
  rw [hp] at hlabel hdropped
  obtain ⟨hres, hcar, hpub⟩ | ⟨hres, hpub⟩ | ⟨hres, hpub, _⟩ := hcases
  · rw [hres]
    refine ⟨h.lane rfl hq, h.labelled, ?_, h.dropped, hprocessed, ?_⟩
    · exact (Function.forall_update_iff s.queues fun w q => q.published = acceptedBy w s.outcomes).mpr
        ⟨hpub.trans (h.published w), fun w' _ => h.published w'⟩
    · intro event' rest' w' he hw'
      obtain ⟨rfl, rfl⟩ : event = event' ∧ rest = rest' := by
        simpa [State.afterPush, State.setQueue, hp] using he
      obtain rfl : w = w' := hw.symm.trans hw'
      simpa [State.afterPush, State.setQueue] using hcar
  · rw [hres]
    refine ⟨h.lane rfl hq, ?_, ?_, ?_, hprocessed, by simp [State.afterPush]⟩
    · simpa [State.afterPush, State.setQueue, Producer.inside] using hlabel
    · refine (Function.forall_update_iff s.queues fun w q =>
        q.published = acceptedBy w (s.outcomes ++ [(event, true)])).mpr ⟨?_, fun w' hw' => ?_⟩
      · rw [acceptedBy_append, if_pos ⟨rfl, hw⟩, hpub, h.published]
      · rw [acceptedBy_append, if_neg fun hc => hw' (hc.2.symm.trans hw), h.published]
    · simpa [State.afterPush, State.setQueue, Producer.failed, List.countP_append] using hdropped
  · rw [hres]
    refine ⟨h.lane rfl hq, ?_, ?_, ?_, hprocessed, by simp [State.afterPush]⟩
    · simpa [State.afterPush, State.setQueue, Producer.inside] using hlabel
    · refine (Function.forall_update_iff s.queues fun w q =>
        q.published = acceptedBy w (s.outcomes ++ [(event, false)])).mpr ⟨?_, fun w' _ => ?_⟩
      · rw [acceptedBy_append, if_neg (by simp), hpub, h.published]
      · rw [acceptedBy_append, if_neg (by simp), h.published]
    · simpa [State.afterPush, State.setQueue, Producer.failed, List.countP_append] using hdropped

/-- The worker's side of the books, whatever its queue has answered. -/
theorem Books.worker (h : Books k s) {w : Fin n} {c : Worker} {q : Queue.State Role NetworkEvent}
    (hlane : ∀ w', (spsc NetworkEvent k).Reachable (Function.update s.queues w q w'))
    (hcall : q.call .producer = (s.queues w).call .producer)
    (hacc : accepted q.history = accepted (s.queues w).history) (hpub : q.published = (s.queues w).published)
    (hret : (returned q.history).length + (s.worker w).uncounted.toNat =
      (returned (s.queues w).history).length + c.uncounted.toNat) :
    Books k ((s.setQueue w q).setWorker w c) := by
  have hsum := sum_returned_update s.queues w q
  have hcount := sum_uncounted_update s.worker w c
  refine ⟨hlane, h.labelled, ?_, h.dropped, ?_, ?_⟩
  · exact (Function.forall_update_iff s.queues fun w q => q.published = acceptedBy w s.outcomes).mpr
      ⟨hpub.trans (h.published w), fun w' _ => h.published w'⟩
  · have := h.processed
    simp only [State.setQueue, State.setWorker] at hcount ⊢
    omega
  · intro event rest w' he hw'
    have hcar := h.carrying event rest w' he hw'
    simp only [State.setQueue, State.setWorker]
    by_cases hs : w' = w
    · subst hs
      rwa [Function.update_self, hacc, hcall]
    · rwa [Function.update_of_ne hs]

theorem Books.pop (h : Books k s) {w : Fin n} {q : Queue.State Role NetworkEvent}
    (hw : s.worker w = .waiting) (hq : (s.queues w).step (.call .worker .pop) = some q) :
    Books k ((s.setQueue w q).setWorker w .popping) := by
  obtain ⟨hhist, hpub, _, _, hother⟩ := published_start hq
  exact h.worker (h.lane rfl hq) (hother .producer (by simp)) (by rw [hhist]) hpub (by rw [hhist, hw]; rfl)

theorem Books.popStep (hk : 1 ≤ k) (h : Books k s) {w : Fin n} {b : Bool}
    {q : Queue.State Role NetworkEvent}
    (hw : s.worker w = .popping) (hq : (s.queues w).step (.step .worker b) = some q) :
    Books k ((s.setQueue w q).afterPop w (q.call .worker).result) := by
  obtain ⟨hcall, hacc, hpub, hcases⟩ := worker_step hk (h.lanes w) hq
  have hlane := h.lane rfl hq
  obtain ⟨hres, hret⟩ | ⟨event, hres, hret⟩ | ⟨hres, hret, _⟩ := hcases
  · have hsame : s.setQueue w q = (s.setQueue w q).setWorker w .popping := by
      rw [State.setWorker, State.setQueue, ← hw, Function.update_eq_self]
    rw [hres]
    change Books k (s.setQueue w q)
    rw [hsame]
    exact h.worker hlane hcall hacc hpub (by rw [hret, hw])
  · rw [hres]
    exact h.worker hlane hcall hacc hpub (by rw [hret, hw]; rfl)
  · rw [hres]
    exact h.worker hlane hcall hacc hpub (by rw [hret, hw]; rfl)

/-- The step lemma. -/
theorem Books.step (hk : 1 ≤ k) {u : State n δ} (h : Books k s) (hs : Stage s u) : Books k u := by
  cases hs with
  | nextBatch events hp =>
    have hlabel := h.labelled
    have hdropped := h.dropped
    rw [hp] at hlabel hdropped
    exact ⟨h.lanes, hlabel, h.published, hdropped, h.processed, by simp⟩
  | nextEvent event rest q hp hq => exact h.nextEvent hp rfl hq
  | push event rest b q hp hq => exact h.push hk hp rfl hq
  | drop event rest hp =>
    have hlabel := h.labelled
    have hdropped := h.dropped
    rw [hp] at hlabel hdropped
    exact ⟨h.lanes, hlabel, h.published, hdropped, h.processed, by simp⟩
  | pop w q hw hq => exact h.pop hw hq
  | popStep w b q hw hq => exact h.popStep hk hw hq
  | count w event hw =>
    have hcount := sum_uncounted_update s.worker w (.detecting event [.signature, .anomaly, .cep] [])
    rw [hw] at hcount
    refine ⟨h.lanes, h.labelled, h.published, h.dropped, ?_, h.carrying⟩
    have := h.processed
    simp only [State.setWorker, Worker.uncounted, Bool.toNat_false, Bool.toNat_true] at hcount this ⊢
    omega
  | report w c alerts alertsFired detectors hw hc =>
    have hcount := sum_uncounted_update s.worker w c
    rw [hw, hc] at hcount
    exact ⟨h.lanes, h.labelled, h.published, h.dropped,
      (congrArg (s.eventsProcessed + ·) (Nat.add_right_cancel hcount)).trans h.processed, h.carrying⟩

theorem books_of_reachable (hk : 1 ≤ k) {D : Detectors δ} (hr : (pipeline n D k).Reachable s) :
    Books k s := by
  refine hr.rule (P := Books k) ?_ fun s a u _ ih hs => ih.step hk (stage_of_step hs)
  refine ⟨fun _ => Guarded.System.Reachable.start (spsc NetworkEvent k), rfl, fun _ => rfl, rfl, ?_, ?_⟩
  · simp [pipeline, State.init, Worker.uncounted, Queue.State.init, returned]
  · simp [pipeline, State.init]

/-- Every accepted event has one worker. -/
theorem sum_acceptedBy (outcomes : List (NetworkEvent × Bool)) :
    ∑ w : Fin n, (acceptedBy w outcomes).length = outcomes.countP fun o => o.2 := by
  induction outcomes using List.reverseRecOn with
  | nil => simp [acceptedBy]
  | append_singleton outcomes o ih =>
    obtain ⟨event, ok⟩ := o
    generalize hv : event.shard n = v
    have hone : ∀ w : Fin n, (acceptedBy w (outcomes ++ [(event, ok)])).length =
        (acceptedBy w outcomes).length + if v = w then ok.toNat else 0 := by
      intro w
      rw [acceptedBy_append, hv]
      cases ok <;> by_cases hw : v = w <;> simp [hw]
    simp only [hone, Finset.sum_add_distrib, ih, Finset.sum_ite_eq, Finset.mem_univ, if_true,
      List.countP_append, List.countP_singleton]
    cases ok <;> rfl

/-- The accounts of the pipeline in one state, and what its next steps answer. -/
structure Accounted (D : Detectors δ) (k : Nat) (s : State n δ) : Prop where
  /-- Every generated event has an outcome, in order, but the one inside `push`. -/
  labelled : s.generated = s.outcomes.map Prod.fst ++ s.producer.inside
  /-- What a worker has popped, then what its queue holds, is what its queue has accepted. -/
  order : ∀ w, taken (s.queues w).history ++ (s.queues w).queue.contents = acceptedBy w s.outcomes
  balance : s.generated.length = s.eventsProcessed + s.eventsDropped +
    ∑ w, (s.queues w).queue.contents.length + s.inHand
  /-- `Err` is returned when `capacity` accepted events are not yet popped to the end. -/
  full : ∀ b u event rest, step D s (.push b) = some u → s.producer = .pushing event rest →
    u.producer = .dropping event rest →
      (acceptedBy (event.shard n) s.outcomes).length =
        (returned (s.queues (event.shard n)).history).length + 2 ^ k
  /-- `None` is returned when every accepted event has been popped. -/
  empty : ∀ w b u, step D s (.popStep w b) = some u → u.worker w = .waiting →
    taken (s.queues w).history = acceptedBy w s.outcomes
  /-- The accepted events of one source go to one worker, in order. -/
  one_worker : ∀ ip, ∃ w,
    (taken (s.queues w).history ++ (s.queues w).queue.contents).filter (fun event => event.srcIp == ip) =
      ((s.outcomes.filter fun o => o.2).map Prod.fst).filter (fun event => event.srcIp == ip) ∧
    ∀ w' ≠ w, ∀ event ∈ taken (s.queues w').history ++ (s.queues w').queue.contents, event.srcIp ≠ ip

theorem Books.balance (hk : 1 ≤ k) (h : Books k s) :
    s.generated.length = s.eventsProcessed + s.eventsDropped +
    ∑ w, (s.queues w).queue.contents.length + s.inHand := by
  have hlanes : ∑ w, (acceptedBy w s.outcomes).length = ∑ w, ((returned (s.queues w).history).length +
      ((s.queues w).call .worker).storing.toNat + (s.queues w).queue.contents.length) :=
    Finset.sum_congr rfl fun w _ => by rw [← h.published w, length_published_eq hk (h.lanes w)]
  simp only [sum_acceptedBy, Finset.sum_add_distrib] at hlanes
  have hall : s.outcomes.length = s.outcomes.countP (fun o => o.2) + s.outcomes.countP fun o => !o.2 := by
    rw [List.length_eq_countP_add_countP fun o => o.2]
    congr 1
    exact List.countP_congr fun o _ => by simp
  have hdropped := h.dropped
  have hprocessed := h.processed
  have hlabel := congrArg List.length h.labelled
  simp only [List.length_append, List.length_map] at hlabel
  rw [State.inHand, Finset.sum_add_distrib]
  omega

theorem Books.order (hk : 1 ≤ k) (h : Books k s) (w : Fin n) :
    taken (s.queues w).history ++ (s.queues w).queue.contents = acceptedBy w s.outcomes :=
  (taken_append_contents hk (h.lanes w)).trans (h.published w)

theorem Books.full (hk : 1 ≤ k) (h : Books k s) {D : Detectors δ} {b : Bool} {u : State n δ}
    {event : NetworkEvent}
    {rest : List NetworkEvent} (hstep : Pipeline.step D s (.push b) = some u) (hp : s.producer = .pushing event rest)
    (hu : u.producer = .dropping event rest) : (acceptedBy (event.shard n) s.outcomes).length =
      (returned (s.queues (event.shard n)).history).length + 2 ^ k := by
  simp only [Pipeline.step, hp] at hstep
  obtain ⟨q, hq, rfl⟩ := Option.map_eq_some_iff.mp hstep
  generalize hw : event.shard n = w at hq hu ⊢
  obtain ⟨_, _, ⟨hres, _⟩ | ⟨hres, _⟩ | ⟨_, _, hfull⟩⟩ :=
    producer_step hk (h.lanes w) (h.carrying event rest w hp hw) hq
  · rw [hres] at hu
    simp [State.afterPush, State.setQueue, hp] at hu
  · rw [hres] at hu
    simp [State.afterPush] at hu
  · rw [← h.published w, hfull]

theorem Books.empty (hk : 1 ≤ k) (h : Books k s) {D : Detectors δ} {w : Fin n} {b : Bool}
    {u : State n δ}
    (hstep : Pipeline.step D s (.popStep w b) = some u) (hu : u.worker w = .waiting) :
    taken (s.queues w).history = acceptedBy w s.outcomes := by
  simp only [Pipeline.step] at hstep
  split at hstep
  · next hw =>
    obtain ⟨q, hq, rfl⟩ := Option.map_eq_some_iff.mp hstep
    obtain ⟨_, _, _, ⟨hres, _⟩ | ⟨event, hres, _⟩ | ⟨_, _, hempty⟩⟩ := worker_step hk (h.lanes w) hq
    · rw [hres] at hu
      simp [State.afterPop, State.setQueue, hw] at hu
    · rw [hres] at hu
      simp [State.afterPop, State.setWorker] at hu
    · rw [hempty, h.published]
  · cases hstep

theorem Books.one_worker (hk : 1 ≤ k) (h : Books k s) (ip : UInt32) : ∃ w : Fin n,
    (taken (s.queues w).history ++ (s.queues w).queue.contents).filter (fun event => event.srcIp == ip) =
      ((s.outcomes.filter fun o => o.2).map Prod.fst).filter (fun event => event.srcIp == ip) ∧
    ∀ w' ≠ w, ∀ event ∈ taken (s.queues w').history ++ (s.queues w').queue.contents, event.srcIp ≠ ip := by
  refine ⟨Fin.ofNat n (fnv (octets ip)).toNat, ?_, fun w' hw' event hm he => ?_⟩
  · rw [h.order hk, acceptedBy, List.filter_map, List.filter_map, List.filter_filter, List.filter_filter]
    congr 1
    refine List.filter_congr fun o _ => ?_
    by_cases ho : o.1.srcIp = ip
    · simp [ho, shard_of_srcIp n ho]
    · have hother : (o.1.srcIp == ip) = false := beq_false_of_ne ho
      simp [hother]
  · rw [h.order hk, acceptedBy] at hm
    obtain ⟨o, hmem, rfl⟩ := List.mem_map.mp hm
    obtain ⟨_, hkeep⟩ := List.mem_filter.mp hmem
    have hshard := eq_of_beq (Bool.and_eq_true_iff.mp hkeep).2
    exact hw' (hshard.symm.trans (shard_of_srcIp n he))

/-- Accounting and order, for any number of workers, any capacity of at least
two, any stream and any interleaving. -/
theorem accounting_and_order {n : Nat} [NeZero n] {D : Detectors δ} {k : Nat} (hk : 1 ≤ k)
    {s : State n δ} (hr : (pipeline n D k).Reachable s) : Accounted D k s := by
  have h := books_of_reachable hk hr
  exact ⟨h.labelled, h.order hk, h.balance hk, fun _ _ _ _ hs hp hu => h.full hk hs hp hu,
    fun _ _ _ hs hu => h.empty hk hs hu, h.one_worker hk⟩

end Lanes

def quietDetectors : Detectors Unit where
  fresh := ()
  detect _ _ _ d := (d, [])

def probe : NetworkEvent where
  timestampMs := 0
  srcIp := 42
  dstIp := 99
  srcPort := 1111
  dstPort := 80
  protocol := .tcp
  flags := 1
  payloadSample := []

/-- Two events of one source among two workers: one is processed while the other is pushed. -/
def twoProbes : List (Action 2) :=
  [.nextBatch [probe, probe], .nextEvent] ++ List.replicate 5 (.push false) ++
    [.pop (probe.shard 2), .nextEvent] ++ List.replicate 5 (.popStep (probe.shard 2) false) ++
    [.push false, .count (probe.shard 2), .push false]

theorem accounting_and_order_twoProbes : Accounted quietDetectors 1
    (((pipeline 2 quietDetectors 1).exec (pipeline 2 quietDetectors 1).init twoProbes).get (by decide +kernel)) :=
  accounting_and_order le_rfl ⟨twoProbes, (Option.some_get _).symm⟩

end ThreatEngine.Pipeline
