import Mathlib.Data.Set.Card
import ThreatEngine.Detection.PortCounters
import ThreatEngine.Detection.WindowRoll

/-! All that the detector holds comes from the events of its current window: after
any stream the sketch, the port counters and the alerted sources are those of
these events, and there is one counter for every source among them. -/
namespace ThreatEngine.Detection
open Tumbling WindowedAnomalyDetector

def sourcesOf (events : List NetworkEvent) : Finset UInt32 :=
  (events.map NetworkEvent.srcIp).toFinset

/-- A detector that holds what `events` and `answers` make it hold, and nothing else. -/
structure Retained {F : Type} [Float64 F] (H : Hasher) (window : Nat) (d : WindowedAnomalyDetector F)
    (events : List NetworkEvent) (answers : List (List Alert)) : Prop where
  configured : Configured window d
  sketch : d.synCounts =
    (synKeys events).foldl (CountMinSketch.increment H) (CountMinSketch.new 2048 4)
  counters : ∀ s, d.portCardinality s =
    if s ∈ sourcesOf events then some (portCounter H s events) else none
  floods : Once "syn-flood-anomaly" d.alertedFloodThisWindow answers
  scans : Once "port-scan-anomaly" d.alertedScanThisWindow answers
  known : d.alertedFloodThisWindow ∪ d.alertedScanThisWindow ⊆ sourcesOf events

section Windows
variable {F : Type} [Float64 F] {H : Hasher} {window : Nat} {d : WindowedAnomalyDetector F}
  {event : NetworkEvent} {events : List NetworkEvent} {answers : List (List Alert)} {s : UInt32}

theorem sourcesOf_append (events : List NetworkEvent) (event : NetworkEvent) :
    sourcesOf (events ++ [event]) = insert event.srcIp (sourcesOf events) := by
  ext s
  simp [sourcesOf]

theorem card_sourcesOf_le (events : List NetworkEvent) : (sourcesOf events).card ≤ events.length := by
  have hle := List.toFinset_card_le (events.map NetworkEvent.srcIp)
  rwa [List.length_map] at hle

omit [Float64 F] in
theorem ports_eq (hcounters : ∀ s, d.portCardinality s =
    if s ∈ sourcesOf events then some (portCounter H s events) else none) (s : UInt32) :
    d.ports s = portCounter H s events := by
  rw [WindowedAnomalyDetector.ports, hcounters]
  split
  · rfl
  · next h =>
    have hnone : eventsOf s events = [] := by
      refine List.filter_eq_nil_iff.mpr fun event hm he => h ?_
      exact List.mem_toFinset.mpr (List.mem_map.mpr ⟨event, hm, beq_iff_eq.mp he⟩)
    rw [portCounter, hnone]
    rfl

theorem retained_open (hconfigured : Configured window d)
    (hsketch : d.synCounts = CountMinSketch.new 2048 4) (hcounters : d.portCardinality = fun _ => none)
    (hfloods : d.alertedFloodThisWindow = ∅) (hscans : d.alertedScanThisWindow = ∅) :
    Retained H window d [] [] where
  configured := hconfigured
  sketch := hsketch
  counters s := by rw [hcounters]; rfl
  floods := hfloods ▸ once_nil
  scans := hscans ▸ once_nil
  known := by rw [hfloods, hscans]; exact Finset.empty_subset _

theorem retained_new (H : Hasher) (window now : Nat) :
    Retained H window (WindowedAnomalyDetector.new F window now) [] [] :=
  retained_open (configured_new window now) rfl rfl rfl rfl

theorem Retained.restart (h : Retained H window d events answers) (now : Nat) :
    Retained H window (d.restart now) [] [] :=
  retained_open (h.configured.restart now)
    (CountMinSketch.clear_eq_new h.configured.depth h.configured.width h.configured.seeds) rfl rfl rfl

theorem Retained.sketch_inspect (h : Retained H window d events answers) (event : NetworkEvent) :
    (d.inspect H event).1.synCounts = (synKeys (events ++ [event])).foldl (CountMinSketch.increment H)
      (CountMinSketch.new 2048 4) := by
  rw [inspect_eq, synKeys_append]
  cases event.isSyn with
  | true => simp [h.sketch]
  | false => simp [h.sketch]

theorem Retained.counters_inspect (h : Retained H window d events answers) (event : NetworkEvent)
    (s : UInt32) : (d.inspect H event).1.portCardinality s =
      if s ∈ sourcesOf (events ++ [event]) then some (portCounter H s (events ++ [event])) else none := by
  rw [inspect_eq, sourcesOf_append, portCounter_append, ports_eq h.counters]
  by_cases hs : s = event.srcIp
  · subst hs
    simp
  · simp [hs, h.counters]

/-- The step lemma of a window. -/
theorem Retained.inspect (h : Retained H window d events answers) (event : NetworkEvent) :
    Retained H window (d.inspect H event).1 (events ++ [event])
      (answers ++ [(d.inspect H event).2]) where
  configured := h.configured.inspect event
  sketch := h.sketch_inspect event
  counters := h.counters_inspect event
  floods := by
    have hset : (d.inspect H event).1.alertedFloodThisWindow = (flood H d event).1 := by rw [inspect_eq]
    exact hset ▸ h.floods.raise rfl rfl filter_flood
  scans := by
    have hset : (d.inspect H event).1.alertedScanThisWindow = (scan H d event).1 := by rw [inspect_eq]
    exact hset ▸ h.scans.raise rfl rfl filter_scan
  known := by
    intro s hs
    rw [inspect_eq, Finset.mem_union, flood, scan, mem_raiseOnce, mem_raiseOnce] at hs
    rw [sourcesOf_append, Finset.mem_insert]
    obtain (hold | ⟨_, hnew⟩) | (hold | ⟨_, hnew⟩) := hs
    · exact Or.inr (h.known (Finset.mem_union_left _ hold))
    · exact Or.inl hnew
    · exact Or.inr (h.known (Finset.mem_union_right _ hold))
    · exact Or.inl hnew

/-- One counter for every source. -/
theorem Retained.ncard (h : Retained H window d events answers) :
    {s | d.portCardinality s ≠ none}.ncard = (sourcesOf events).card := by
  have hset : {s | d.portCardinality s ≠ none} = ↑(sourcesOf events) := by
    ext s
    simp [h.counters s]
  rw [hset, Set.ncard_coe_finset]

end Windows

/-- After every stream there is a last window, and the detector holds what the events of that
window make it hold: no more port counters than they have sources, and no more sources than
there are events. -/
theorem window_state (F : Type) [Float64 F] (H : Hasher) (window t₀ : Nat)
    (stream : List (Nat × NetworkEvent)) : ∃ a, (windowed F H window t₀).Segment stream a stream.length ∧
      Retained H window ((anomalyMachine F H window t₀).after (anomalyMachine F H window t₀).init stream)
        ((slice stream a stream.length).map Prod.snd)
        (slice (observed F H window t₀ stream) a stream.length) ∧
      {s | ((anomalyMachine F H window t₀).after (anomalyMachine F H window t₀).init
        stream).portCardinality s ≠ none}.ncard ≤ stream.length - a := by
  obtain ⟨a, seg, hlast⟩ := exists_last_segment (windowed F H window t₀) stream
  have hstate : (anomalyMachine F H window t₀).after (anomalyMachine F H window t₀).init stream =
      (windowed F H window t₀).before stream stream.length := by
    rw [Windowed.before, List.take_length]
    rfl
  have hretained : Retained H window ((windowed F H window t₀).before stream stream.length)
      ((slice stream a stream.length).map Prod.snd)
      (slice (observed F H window t₀ stream) a stream.length) := by
    obtain hlt | rfl := hlast
    · exact seg.rule_before (retained_new H window t₀) (fun d events answers event h => h.inspect event)
        (fun now d events answers h => h.restart now) hlt (Nat.le_refl _)
    · have hnil {β : Type} : slice ([] : List β) a 0 = [] := by simp [slice]
      rw [observed, Mealy.Machine.outputs, List.length_nil, hnil, hnil]
      exact retained_new H window t₀
  refine ⟨a, seg, hstate ▸ hretained, ?_⟩
  calc
    _ = (sourcesOf ((slice stream a stream.length).map Prod.snd)).card := by rw [hstate, hretained.ncard]
    _ ≤ ((slice stream a stream.length).map Prod.snd).length := card_sourcesOf_le _
    _ = stream.length - a := by rw [List.length_map, length_slice (Nat.le_refl _)]

end ThreatEngine.Detection
