import ThreatEngine.Pipeline.Liveness
import ThreatEngine.Pipeline.SideBySide

/-! An accepted event with a known-bad payload has its alert in the end, whatever the
other threads do and whatever else the detectors are asked. -/
namespace ThreatEngine.Pipeline
open Queue Detection Filter
variable {n : Nat} [NeZero n] {k : Nat} {w : Fin n} {F : Type} [Float64 F] {H : Hasher}
  {find : OverlappingSearch}

theorem asked_of_accepted (kind : DetectorKind) {event : NetworkEvent} {accepted : List NetworkEvent}
    {asked : List (DetectorKind × Nat × NetworkEvent)} (hevent : event ∈ accepted)
    (hasked : accepted.flatMap questions <+: asked.map (fun x => (x.1, x.2.2))) :
    ∃ now, (now, event) ∈ askedOf kind asked := by
  have hquestion : (kind, event) ∈ questions event := by
    cases kind with
    | signature | anomaly | cep => simp [questions]
  obtain ⟨x, hx, he⟩ := List.mem_map.mp
    (hasked.subset (List.mem_flatMap.mpr ⟨event, hevent, hquestion⟩))
  obtain ⟨rfl, rfl⟩ := Prod.mk.inj he
  exact ⟨x.2.1, List.mem_filterMap.mpr ⟨x, hx, by simp⟩⟩

/-- Of every pattern in the payload of an event that a worker's queue has accepted, an alert with the
event's source, destination and time is stored from some time on. -/
theorem known_bad_stored (hk : 1 ≤ k) (hfind : find.Complete)
    {run : ℕ → State n (Engines F) × List (Fin n × Entry)} {act : ℕ → Action n}
    (h : FairRun (engines F H find) k w run act) {i : ℕ} {event : NetworkEvent}
    (hevent : event ∈ acceptedBy w (run i).1.outcomes)
    {idx : Fin SignatureDetector.withDefaultRules.patterns.length}
    (hidx : SignatureDetector.withDefaultRules.patterns.get idx <:+: event.payloadSample) :
    ∀ᶠ j in atTop, ∃ id, SignatureDetector.withDefaultRules.alert event id idx ∈
      storedIn (entriesOf w (run j).2) := by
  obtain ⟨m, -, hasked, hstored⟩ := h.inspected hk i
  obtain ⟨now, hnow⟩ := asked_of_accepted .signature hevent hasked
  obtain ⟨id, hanswer⟩ := alert_mem_answers hfind hnow hidx
  rw [← (part_signature (F := F) H find).alerts_eq, hstored] at hanswer
  filter_upwards [eventually_ge_atTop m] with j hj
  exact ⟨id, ((h.entries_grow hj).filterMap _).subset (List.mem_filter.mp hanswer).1⟩

/-- One event that runs `cmd.exe` is pushed, and the worker goes on alone. -/
theorem known_bad_stored_cmd :
    let D := engines (Constant false) constantHasher findByEnd
    let S := (pipeline 1 D 1).logged entries
    let x := (S.exec S.init (.nextBatch [cmdEvent 42] :: pushOne 1)).get (by decide +kernel)
    ∀ᶠ j in atTop, ∃ id, SignatureDetector.withDefaultRules.alert (cmdEvent 42) id ⟨3, by decide⟩ ∈
      storedIn (entriesOf 0 (onward D 1 0 x j).2) := by
  intro D S x
  have hevent : cmdEvent 42 ∈ acceptedBy (0 : Fin 1) x.1.outcomes := by decide +kernel
  have hreach : S.Reachable x := ⟨_, (Option.some_get _).symm⟩
  exact known_bad_stored (i := 0) le_rfl findByEnd_complete (fairRun_onward le_rfl hreach 0) hevent
    (by decide)

end ThreatEngine.Pipeline
