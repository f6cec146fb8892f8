import ThreatEngine.Detection.PortScan

/-! Port scans over any floating-point arithmetic: a source has its alert in a window
as soon as the estimate of its port counter is at the threshold. -/
namespace ThreatEngine.Detection
open Tumbling WindowedAnomalyDetector

/-- `HyperLogLog::new(10)` is within the sizes that the counter allows. -/
theorem ten_bits : 1 ≤ 10 ∧ 10 ≤ 63 := by decide

/-- The counter of the ports that a source has touched. -/
def portCounter (H : Hasher) (s : UInt32) (events : List NetworkEvent) : HyperLogLog :=
  (eventsOf s events).foldl (fun hll event => hll.add H (portBytes event.dstPort))
    (HyperLogLog.new 10 ten_bits)

/-- A detector whose window has seen `events` and given `answers`. -/
structure Ported (F : Type) [Float64 F] (H : Hasher) (d : WindowedAnomalyDetector F)
    (events : List NetworkEvent) (answers : List (List Alert)) : Prop where
  threshold : d.portScanThreshold = 25.0
  ports : ∀ s, d.ports s = portCounter H s events
  once : Once "port-scan-anomaly" d.alertedScanThisWindow answers
  reached : ∀ event, events.getLast? = some event →
    Float64.le 25.0 ((portCounter H event.srcIp events).estimate F) = true →
      event.srcIp ∈ d.alertedScanThisWindow

variable {F : Type} [Float64 F] {H : Hasher} {d : WindowedAnomalyDetector F} {event : NetworkEvent}
  {events : List NetworkEvent} {answers : List (List Alert)} {s : UInt32}

theorem portCounter_append (s : UInt32) (events : List NetworkEvent) (event : NetworkEvent) :
    portCounter H s (events ++ [event]) =
      if s = event.srcIp then (portCounter H s events).add H (portBytes event.dstPort)
      else portCounter H s events := by
  by_cases h : s = event.srcIp
  · subst h
    simp [portCounter, eventsOf]
  · simp [portCounter, eventsOf, h, Ne.symm h]

theorem Ported.ports_inspect (h : Ported F H d events answers) (event : NetworkEvent) (s : UInt32) :
    (d.inspect H event).1.ports s = portCounter H s (events ++ [event]) := by
  rw [inspect_eq, portCounter_append]
  by_cases hs : s = event.srcIp
  · subst hs
    rw [if_pos rfl, ← h.ports]
    simp [WindowedAnomalyDetector.ports]
  · rw [if_neg hs, ← h.ports]
    simp [WindowedAnomalyDetector.ports, hs]

/-- The step lemma of a window. -/
theorem Ported.inspect (h : Ported F H d events answers) (event : NetworkEvent) :
    Ported F H (d.inspect H event).1 (events ++ [event]) (answers ++ [(d.inspect H event).2]) := by
  have hset : (d.inspect H event).1.alertedScanThisWindow = (scan H d event).1 := by rw [inspect_eq]
  refine ⟨?_, h.ports_inspect event, ?_, fun event' hlast hle => ?_⟩
  · rw [inspect_eq]
    exact h.threshold
  · rw [hset]
    exact h.once.raise rfl rfl filter_scan
  · obtain rfl : event = event' := by simpa using hlast
    rw [hset, scan, mem_raiseOnce]
    refine .inr ⟨?_, rfl⟩
    rwa [portCounter_append, if_pos rfl, ← h.ports, ← h.threshold] at hle

theorem ported_open (hthreshold : d.portScanThreshold = 25.0)
    (hports : d.portCardinality = fun _ => none) (hset : d.alertedScanThisWindow = ∅) :
    Ported F H d [] [] := by
  refine ⟨hthreshold, fun s => ?_, ?_, fun event hlast => by cases hlast⟩
  · rw [WindowedAnomalyDetector.ports, hports]
    rfl
  · exact hset ▸ once_nil

/-- The run lemma: a source whose counter is at the threshold on one of its events has its alert. -/
theorem alerted_of_portCounter {window t₀ : Nat} {stream : List (Nat × NetworkEvent)} {a b j : Nat}
    (seg : (windowed F H window t₀).Segment stream a b) (haj : a ≤ j) (hjb : j < b) {y : Nat × NetworkEvent}
    (hy : stream[j]? = some y) (hle : Float64.le 25.0 ((portCounter H y.2.srcIp
      ((slice stream a (j + 1)).map Prod.snd)).estimate F) = true) :
    alertsOf "port-scan-anomaly" y.2.srcIp (slice (observed F H window t₀ stream) a (j + 1)) ≠ [] := by
  obtain ⟨d, hd⟩ := seg.rule (P := Ported F H) (ported_open rfl rfl rfl)
    (fun d events answers event h => h.inspect event)
    (fun now d events answers h => ported_open h.threshold rfl rfl) (Nat.le_succ_of_le haj) hjb
  intro hnil
  have hlast : ((slice stream a (j + 1)).map Prod.snd).getLast? = some y.2 := by
    rw [slice_succ haj hy]
    simp
  have hone := hd.once y.2.srcIp
  rw [if_pos (hd.reached y.2 hlast hle)] at hone
  rw [observed, anomalyMachine_eq] at hnil
  rw [hnil] at hone
  cases hone

end ThreatEngine.Detection
