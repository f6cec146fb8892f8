import ThreatEngine.Ingestion.Simulator
import ThreatEngine.Pipeline.FalseAlarms

/-! The pipeline with the simulator as its source of events. Whatever tick it starts
from, whatever the clock says, whatever the generator draws and however the threads
interleave, only sources of injected attacks get alerts. -/
namespace ThreatEngine.Ingestion
open Pipeline Detection
open scoped Queue
variable {n : Nat} [NeZero n] {σ δ : Type} {k : Nat}

/-- `spawn_producer` asks its simulator for the next batch; all else is the pipeline. The source
starts with `Simulator.new`, a run here at any tick. -/
def simulated (n : Nat) [NeZero n] (D : Detectors δ) (k : Nat) (host : Host σ) (sim : Simulator)
    (w : σ) : Guarded.System (State n δ × Simulator × σ) (Action n) where
  init := ((pipeline n D k).init, sim, w)
  step x
    | .nextBatch _ =>
      let r := host.nextBatch x.2.1 x.2.2
      (step D x.1 (.nextBatch r.1.1)).map fun s => (s, r.1.2, r.2)
    | a => (step D x.1 a).map fun s => (s, x.2)

/-- The events of the batch that the producer has not gone through. -/
def todo : Producer → List NetworkEvent
  | .batch rest | .pushing _ rest | .dropping _ rest => rest

section Steps
variable {D : Detectors δ} {host : Host σ} {sim : Simulator} {w : σ} {s u : State n δ} {x y : State n δ × Simulator × σ}
  {a : Action n}

/-- A step of the whole is a step of the pipeline that leaves the same entries. -/
theorem pipeline_step (h : (simulated n D k host sim w).step x a = some y) :
    ∃ a', step D x.1 a' = some y.1 ∧ entries x.1 a' = entries x.1 a ∧
      ∀ events, a' = .nextBatch events → ∀ event ∈ events, Benign event ∨ Attack event := by
  cases a with
  | nextBatch events =>
    obtain ⟨s, hs, rfl⟩ := Option.map_eq_some_iff.mp h
    refine ⟨_, hs, rfl, fun events' he => ?_⟩
    cases he
    exact benign_or_attack host x.2.1 x.2.2
  | _ =>
    obtain ⟨s, hs, rfl⟩ := Option.map_eq_some_iff.mp h
    exact ⟨_, hs, rfl, fun _ he => by cases he⟩

/-- The events of the producer: those that it has gone through, and the rest of its batch. -/
def produced (s : State n δ) : List NetworkEvent := s.generated ++ todo s.producer

omit [NeZero n] in
theorem produced_afterPush (s : State n δ) (event : NetworkEvent) {rest : List NetworkEvent}
    (h : rest = todo s.producer) (r : Option (Queue.Result NetworkEvent)) :
    produced (s.afterPush event rest r) = produced s := by
  subst h
  unfold State.afterPush
  split <;> rfl

omit [NeZero n] in
theorem produced_afterPop (s : State n δ) (w : Fin n) (r : Option (Queue.Result NetworkEvent)) :
    produced (s.afterPop w r) = produced s := by
  unfold State.afterPop
  split <;> rfl

/-- Events come into the pipeline with a batch, when the last one is gone through. -/
theorem produced_of_step (h : step D s a = some u) : produced u = produced s ∨
    ∃ events, a = .nextBatch events ∧ produced u = produced s ++ events := by
  cases a with
  | nextBatch events =>
    simp only [step] at h
    split at h
    · next hp =>
      obtain rfl := Option.some.inj h
      exact .inr ⟨events, rfl, by simp [produced, todo, hp]⟩
    · cases h
  | nextEvent =>
    simp only [step] at h
    split at h
    · next event rest hp =>
      obtain ⟨q, -, rfl⟩ := Option.map_eq_some_iff.mp h
      exact .inl (by simp [produced, todo, hp])
    · cases h
  | push b =>
    simp only [step] at h
    split at h
    · next event rest hp =>
      obtain ⟨q, -, rfl⟩ := Option.map_eq_some_iff.mp h
      exact .inl (produced_afterPush (s.setQueue _ q) event (by simp [State.setQueue, hp, todo]) _)
    · cases h
  | drop =>
    simp only [step] at h
    split at h
    · next event rest hp =>
      obtain rfl := Option.some.inj h
      exact .inl (by simp [produced, todo, hp])
    · cases h
  | pop w =>
    simp only [step] at h
    split at h
    · obtain ⟨q, -, rfl⟩ := Option.map_eq_some_iff.mp h
      exact .inl rfl
    · cases h
  | popStep w b =>
    simp only [step] at h
    split at h
    · obtain ⟨q, -, rfl⟩ := Option.map_eq_some_iff.mp h
      exact .inl (produced_afterPop (s.setQueue w q) w _)
    · cases h
  | count w | detect w now | fire w | store w | done w =>
    simp only [step] at h
    split at h
    · obtain rfl := Option.some.inj h
      exact .inl rfl
    · cases h

/-- The log of a simulated run is that of a run of the pipeline, all whose events are benign or
part of an attack. -/
theorem simulated_run {x : (State n δ × Simulator × σ) × List (Fin n × Entry)}
    (hr : ((simulated n D k host sim w).logged fun x a => entries x.1 a).Reachable x) :
    ((pipeline n D k).logged entries).Reachable (x.1.1, x.2) ∧
      ∀ event ∈ produced x.1.1, Benign event ∨ Attack event := by
  refine hr.rule (P := fun x => ((pipeline n D k).logged entries).Reachable (x.1.1, x.2) ∧
    ∀ event ∈ produced x.1.1, Benign event ∨ Attack event) ?_ ?_
  · exact ⟨Guarded.System.Reachable.start ((pipeline n D k).logged entries),
      fun _ he => absurd he List.not_mem_nil⟩
  · intro x a y _ ⟨hpipeline, hevents⟩ hs
    obtain ⟨hstep, hlog⟩ := Guarded.logged_step hs
    obtain ⟨a', hstep', hentries, hbatch⟩ := pipeline_step hstep
    refine ⟨hpipeline.next (a := a') ?_, fun event he => ?_⟩
    · simp only [Guarded.System.logged, pipeline, hstep', Option.map_some, hentries, hlog]
    · obtain hsame | ⟨events, ha, hnew⟩ := produced_of_step hstep'
      · exact hevents event (hsame ▸ he)
      · rw [hnew] at he
        exact (List.mem_append.mp he).elim (hevents event) (hbatch events ha event)

end Steps

section Alarms
variable {find : OverlappingSearch} {H : Hasher} {host : Host σ} {sim : Simulator} {w : σ} {event : NetworkEvent}

theorem not_infix_normalPayload :
    ∀ p ∈ Utf8.ascii "passwd" :: SignatureDetector.withDefaultRules.patterns, ¬ p <:+: normalPayload := by
  decide

theorem Benign.harmless (h : Benign event) : Harmless event where
  no_syn := by rw [NetworkEvent.isSyn, h.flags]; rfl
  no_pattern p hp := h.payload ▸ not_infix_normalPayload p (List.mem_cons_of_mem _ hp)
  no_marker := h.payload ▸ not_infix_normalPayload _ List.mem_cons_self

/-- Benign events touch four ports. -/
theorem card_portBuckets_benign (ip : UInt32) {events : List NetworkEvent}
    (h : ∀ event ∈ events, event.srcIp = ip → Benign event) :
    (portBuckets H ip events).card ≤ 4 := by
  have hsub : distinctPorts ip events ⊆ normalPorts.toFinset := by
    intro port hport
    obtain ⟨event, hm, rfl⟩ := List.mem_map.mp (List.mem_toFinset.mp hport)
    obtain ⟨he, hs⟩ := List.mem_filter.mp hm
    exact List.mem_toFinset.mpr (h event he (beq_iff_eq.mp hs)).port
  exact (card_portBuckets_le H ip events).trans
    ((Finset.card_le_card hsub).trans (List.toFinset_card_le normalPorts))

/-- Every alert that the simulated engine ever records is about the source of an injected attack. -/
theorem simulated_alerts (hk : 1 ≤ k) (hfind : find.Complete) {run : List (Action n)}
    {x : (State n (Engines ℝ) × Simulator × σ) × List (Fin n × Entry)}
    (h : ((simulated n (engines ℝ H find) k host sim w).logged fun x a => entries x.1 a).exec
      ((simulated n (engines ℝ H find) k host sim w).logged fun x a => entries x.1 a).init run = some x) :
    ∀ a ∈ recordedIn (x.2.map Prod.snd),
      ∃ event ∈ x.1.1.generated, a.srcIp = ipToString event.srcIp ∧ Attack event := by
  obtain ⟨hr, hevents⟩ := simulated_run ⟨run, h⟩
  intro a ha
  obtain ⟨v, hraised, -⟩ := raised_of_recorded hk hr ha
  obtain ⟨y, -, hsrc⟩ := exists_asked _ hraised
  by_contra hnone
  push Not at hnone
  have hbenign (event) (he : event ∈ x.1.1.generated) (hs : event.srcIp = y.2.2.srcIp) :
      Benign event :=
    (hevents event (List.mem_append_left _ he)).resolve_right (hnone event he (hs ▸ hsrc))
  exact no_alert_of_harmless hk hfind hr (fun event he hs => (hbenign event he hs).harmless)
    ((card_portBuckets_benign _ hbenign).trans_lt (by decide)) a ha hsrc

/-- A clock that stands still and a generator that draws the least number. -/
def stillHost : Host Unit where
  nowMs w := (0, w)
  genRange low _ h w := (⟨low, le_rfl, h⟩, w)

/-- The same, but draw 61 is one above the least. -/
def turningHost : Host Nat where
  nowMs w := (0, w)
  genRange low high h w :=
    (if h' : w = 61 ∧ low + 1 < high then ⟨low + 1, Nat.le_succ low, h'.2⟩ else ⟨low, le_rfl, h⟩, w + 1)

/-- On a tick with a bad request all events are pushed, and the bad one, which draw 61 has given a
source of its own, is recorded. -/
def badRequestRecorded : List (Action 2) :=
  .nextBatch [] :: ((List.replicate 21 (pushOne 2)).flatten ++ recordOne 0)

theorem recorded_badRequest :
    let S := (simulated 2 (engines ℝ fxWord findByEnd) 5 turningHost ⟨732⟩ 0).logged fun x a => entries x.1 a
    (S.exec S.init badRequestRecorded).map
      (fun x => (recordedIn (x.2.map Prod.snd)).map fun a => (a.ruleName, a.srcIp)) =
      some [("path-traversal-generic", "0.0.0.1")] := by
  decide +kernel

theorem simulated_alerts_badRequest :
    let S := (simulated 2 (engines ℝ fxWord findByEnd) 5 turningHost ⟨732⟩ 0).logged fun x a => entries x.1 a
    ∃ x, S.exec S.init badRequestRecorded = some x ∧
      (recordedIn (x.2.map Prod.snd)).map (fun a => (a.ruleName, a.srcIp)) =
        [("path-traversal-generic", "0.0.0.1")] ∧
      ∀ a ∈ recordedIn (x.2.map Prod.snd),
        ∃ event ∈ x.1.1.generated, a.srcIp = ipToString event.srcIp ∧ Attack event := by
  intro S
  obtain ⟨x, hrun, hrecorded⟩ := Option.map_eq_some_iff.mp recorded_badRequest
  exact ⟨x, hrun, hrecorded, simulated_alerts (by decide) findByEnd_complete hrun⟩

end Alarms

end ThreatEngine.Ingestion
