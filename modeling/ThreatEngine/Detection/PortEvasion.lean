import ThreatEngine.Detection.FxCollisions
import ThreatEngine.Detection.PortScan

/-! A scan of many ports is seen through the buckets of its ports only. FxHash
has no key, so ports that share a bucket can be chosen. -/
namespace ThreatEngine.Detection
open Tumbling WindowedAnomalyDetector

section Completeness
variable {H : Hasher} {window t₀ : Nat} {stream : List (Nat × NetworkEvent)} {a b : Nat}

/-- A source has an alert in a segment when its ports occupy enough buckets. -/
theorem scanned_iff (seg : (windowed ℝ H window t₀).Segment stream a b) (s : UInt32) :
    alertsOf "port-scan-anomaly" s (slice (observed ℝ H window t₀ stream) a b) ≠ [] ↔
      25 ≤ (portBuckets H s ((slice stream a b).map Prod.snd)).card := by
  obtain ⟨d, hd⟩ := scanned_segment seg seg.le (Nat.le_refl b)
  rw [← hd.alerted s, ← List.length_pos_iff, hd.once s]
  by_cases hs : s ∈ d.alertedScanThisWindow <;> simp [hs]

/-- A scan of fifty ports or more is found exactly when they fall into 25 buckets. -/
theorem port_scan_complete_iff (H : Hasher) (window t₀ : Nat) (stream : List (Nat × NetworkEvent))
    {a b : Nat} (seg : (windowed ℝ H window t₀).Segment stream a b) (s : UInt32) :
    (50 ≤ (distinctPorts s ((slice stream a b).map Prod.snd)).card →
        alertsOf "port-scan-anomaly" s (slice (observed ℝ H window t₀ stream) a b) ≠ []) ↔
      (50 ≤ (distinctPorts s ((slice stream a b).map Prod.snd)).card →
        25 ≤ (portBuckets H s ((slice stream a b).map Prod.snd)).card) := by
  rw [scanned_iff seg s]

end Completeness

/-- Fifty of the 85 ports that FxHash sends to bucket 1. -/
def oneBucketPorts : List UInt16 :=
  [703, 1237, 2016, 2441, 3826, 4484, 5865, 6294, 7085, 7675, 8594, 9927, 10476, 11195, 11433, 11729, 12443,
    13238, 13476, 13772, 14976, 16373, 16814, 17110, 18067, 18616, 19949, 20663, 21912, 23492, 23786, 24449,
    24717, 26102, 27306, 27840, 28575, 29345, 29641, 29951, 30602, 31155, 32484, 33222, 34179, 35024, 35823,
    35997, 36776, 37071]

/-- One source scans them at once. -/
def quietScan : List (Nat × NetworkEvent) :=
  oneBucketPorts.map fun port => (0, { synEvent 42 with dstPort := port })

theorem quietScan_segment : (windowed ℝ fxWord 5000000000 0).Segment quietScan 0 50 :=
  segment_of_early fun x hx => by
    obtain ⟨port, _, rfl⟩ := List.mem_map.mp hx
    exact Nat.zero_lt_succ _

theorem port_scan_complete_iff_quietScan :
    (50 ≤ (distinctPorts 42 ((slice quietScan 0 50).map Prod.snd)).card →
        alertsOf "port-scan-anomaly" 42 (slice (observed ℝ fxWord 5000000000 0 quietScan) 0 50) ≠ []) ↔
      (50 ≤ (distinctPorts 42 ((slice quietScan 0 50).map Prod.snd)).card →
        25 ≤ (portBuckets fxWord 42 ((slice quietScan 0 50).map Prod.snd)).card) :=
  port_scan_complete_iff fxWord 5000000000 0 quietScan quietScan_segment 42

/-- Fifty ports within one window, and no alert. -/
theorem port_scan_evaded : 50 ≤ (distinctPorts 42 ((slice quietScan 0 50).map Prod.snd)).card ∧
    alertsOf "port-scan-anomaly" 42 (slice (observed ℝ fxWord 5000000000 0 quietScan) 0 50) = [] := by
  refine ⟨by decide +kernel, ?_⟩
  by_contra hne
  have hcard := (scanned_iff quietScan_segment 42).mp hne
  exact absurd hcard (by decide +kernel)

end ThreatEngine.Detection
