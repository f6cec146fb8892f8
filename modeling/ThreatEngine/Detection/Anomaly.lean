import Mathlib.Data.Finset.Insert
import Mathlib.Logic.Function.Basic
import ThreatEngine.Detection.HyperLogLog
import ThreatEngine.Lib.Tumbling

/-! The windowed anomaly detector of `anomaly.rs`: per window, one sketch counts
the SYNs of all sources and one cardinality counter per source its ports. The
clock readings of one call are taken as one instant, in nanoseconds. -/
namespace ThreatEngine.Detection

structure WindowedAnomalyDetector (F : Type) where
  window : Nat
  windowStart : Nat
  synCounts : CountMinSketch
  portCardinality : UInt32 → Option HyperLogLog
  synFloodThreshold : UInt32
  portScanThreshold : F
  alertedFloodThisWindow : Finset UInt32
  alertedScanThisWindow : Finset UInt32
  nextId : UInt64

/-- `if reached && !alerted.contains(&s)`: remember the source and push the alert. -/
def raiseOnce (alerted : Finset UInt32) (s : UInt32) (reached : Bool) (alert : Alert) :
    Finset UInt32 × List Alert :=
  if reached = true ∧ s ∉ alerted then (insert s alerted, [alert]) else (alerted, [])

namespace WindowedAnomalyDetector
variable {F : Type}

def new (F : Type) [Float64 F] (window now : Nat) : WindowedAnomalyDetector F where
  window := window
  windowStart := now
  synCounts := CountMinSketch.new 2048 4
  portCardinality := fun _ => none
  synFloodThreshold := 50
  portScanThreshold := 25.0
  alertedFloodThisWindow := ∅
  alertedScanThisWindow := ∅
  nextId := 1

def restart (now : Nat) (d : WindowedAnomalyDetector F) : WindowedAnomalyDetector F :=
  { d with
    synCounts := d.synCounts.clear
    portCardinality := fun _ => none
    alertedFloodThisWindow := ∅
    alertedScanThisWindow := ∅
    windowStart := now }

def maybeRollWindow (now : Nat) (d : WindowedAnomalyDetector F) : WindowedAnomalyDetector F :=
  if decide (d.window ≤ now - d.windowStart) then d.restart now else d

def alert (d : WindowedAnomalyDetector F) (event : NetworkEvent) (rule : String)
    (severity : Severity) (detail : String) : Alert where
  id := d.nextId
  timestampMs := event.timestampMs
  ruleName := rule
  severity := severity
  srcIp := ipToString event.srcIp
  dstIp := ipToString event.dstIp
  detail := detail
  detector := .anomaly

def floodAlert (d : WindowedAnomalyDetector F) (event : NetworkEvent) (est : UInt32) : Alert :=
  d.alert event "syn-flood-anomaly" .critical
    ("source " ++ ipToString event.srcIp ++ " sent an estimated " ++ toString est.toNat ++
      "+ SYNs within " ++ durationText d.window ++ " window")

/-- The half of `observe` that counts SYNs. -/
def countSyn (H : Hasher) (d : WindowedAnomalyDetector F) (event : NetworkEvent) :
    WindowedAnomalyDetector F × List Alert :=
  if event.isSyn then
    let synCounts := d.synCounts.increment H (octets event.srcIp)
    let est := synCounts.estimate H (octets event.srcIp)
    let raised := raiseOnce d.alertedFloodThisWindow event.srcIp (decide (d.synFloodThreshold ≤ est))
      (d.floodAlert event est)
    ({ d with
        synCounts := synCounts
        alertedFloodThisWindow := raised.1
        nextId := d.nextId + raised.2.length.toUInt64 }, raised.2)
  else (d, [])

/-- `dst_port.to_be_bytes()`. -/
def portBytes (port : UInt16) : List UInt8 := [(port >>> 8).toUInt8, port.toUInt8]

/-- The counter of a source's ports, a fresh one if there is none yet. -/
def ports (d : WindowedAnomalyDetector F) (s : UInt32) : HyperLogLog :=
  (d.portCardinality s).getD (HyperLogLog.new 10 (by decide))

variable [Float64 F]

def scanAlert (d : WindowedAnomalyDetector F) (event : NetworkEvent) (distinct : F) : Alert :=
  d.alert event "port-scan-anomaly" .high
    ("source " ++ ipToString event.srcIp ++ " touched an estimated " ++ Float64.text distinct ++
      " distinct destination ports within " ++ durationText d.window ++ " window")

/-- The half that counts destination ports. -/
def countPorts (H : Hasher) (d : WindowedAnomalyDetector F) (event : NetworkEvent) :
    WindowedAnomalyDetector F × List Alert :=
  let hll := (d.ports event.srcIp).add H (portBytes event.dstPort)
  let distinct : F := hll.estimate F
  let raised := raiseOnce d.alertedScanThisWindow event.srcIp (Float64.le d.portScanThreshold distinct)
    (d.scanAlert event distinct)
  ({ d with
      portCardinality := Function.update d.portCardinality event.srcIp (some hll)
      alertedScanThisWindow := raised.1
      nextId := d.nextId + raised.2.length.toUInt64 }, raised.2)

def inspect (H : Hasher) (d : WindowedAnomalyDetector F) (event : NetworkEvent) :
    WindowedAnomalyDetector F × List Alert :=
  let flood := d.countSyn H event
  let scan := flood.1.countPorts H event
  (scan.1, flood.2 ++ scan.2)

def observe (H : Hasher) (d : WindowedAnomalyDetector F) (now : Nat) (event : NetworkEvent) :
    WindowedAnomalyDetector F × List Alert :=
  (d.maybeRollWindow now).inspect H event

end WindowedAnomalyDetector

open WindowedAnomalyDetector

/-- The detector made at `now`, as a machine over timed events. -/
def anomalyMachine (F : Type) [Float64 F] (H : Hasher) (window now : Nat) :
    Mealy.Machine (WindowedAnomalyDetector F) (Nat × NetworkEvent) (List Alert) where
  init := .new F window now
  step d x := d.observe H x.1 x.2

/-- The detector in terms of its windows. -/
def windowed (F : Type) [Float64 F] (H : Hasher) (window now : Nat) :
    Tumbling.Windowed (WindowedAnomalyDetector F) NetworkEvent (List Alert) where
  inner := { init := .new F window now, step := fun d event => d.inspect H event }
  window := WindowedAnomalyDetector.window
  start := windowStart
  restart := restart
  window_step d event := by
    simp only [inspect, countSyn]
    split <;> rfl
  start_step d event := by
    simp only [inspect, countSyn]
    split <;> rfl
  window_restart _ _ := rfl
  start_restart _ _ := rfl

/-- The alerts of every call. -/
def observed (F : Type) [Float64 F] (H : Hasher) (window now : Nat)
    (stream : List (Nat × NetworkEvent)) : List (List Alert) :=
  (anomalyMachine F H window now).outputs (anomalyMachine F H window now).init stream

theorem anomalyMachine_eq (F : Type) [Float64 F] (H : Hasher) (window now : Nat) :
    anomalyMachine F H window now = (windowed F H window now).rolling := rfl

section Alerts

def isAbout (rule : String) (s : UInt32) (alert : Alert) : Bool :=
  alert.ruleName == rule && alert.srcIp == ipToString s

/-- The alerts of a rule for one source among the alerts of several calls. -/
def alertsOf (rule : String) (s : UInt32) (answers : List (List Alert)) : List Alert :=
  answers.flatten.filter (isAbout rule s)

/-- The alerted sources are those with an alert, and no source has two. -/
def Once (rule : String) (alerted : Finset UInt32) (answers : List (List Alert)) : Prop :=
  ∀ s, (alertsOf rule s answers).length = if s ∈ alerted then 1 else 0

variable {alerted : Finset UInt32} {s s' : UInt32} {reached : Bool} {alert : Alert} {rule : String}
  {answers : List (List Alert)}

theorem alertsOf_append (answers : List (List Alert)) (answer : List Alert) :
    alertsOf rule s (answers ++ [answer]) = alertsOf rule s answers ++ answer.filter (isAbout rule s) := by
  simp [alertsOf]

theorem mem_raiseOnce : s ∈ (raiseOnce alerted s' reached alert).1 ↔
    s ∈ alerted ∨ reached = true ∧ s = s' := by
  unfold raiseOnce
  split
  · next h => simp [h.1, or_comm]
  · next h =>
    refine ⟨Or.inl, fun hs => hs.elim id fun ⟨hr, he⟩ => ?_⟩
    by_contra hn
    exact h ⟨hr, he ▸ hn⟩

theorem mem_raised {a : Alert} (h : a ∈ (raiseOnce alerted s' reached alert).2) :
    a = alert ∧ reached = true ∧ s' ∉ alerted := by
  unfold raiseOnce at h
  split at h
  · next hr => exact ⟨List.mem_singleton.mp h, hr⟩
  · cases h

theorem filter_raiseOnce_other {rule' : String} (h : alert.ruleName = rule') (hne : rule' ≠ rule) :
    (raiseOnce alerted s' reached alert).2.filter (isAbout rule s) = [] := by
  unfold raiseOnce
  split <;> simp [isAbout, h, hne]

theorem length_filter_raiseOnce (hrule : alert.ruleName = rule)
    (hsrc : alert.srcIp = ipToString s') :
    ((raiseOnce alerted s' reached alert).2.filter (isAbout rule s)).length =
      if reached = true ∧ s' ∉ alerted ∧ s = s' then 1 else 0 := by
  unfold raiseOnce
  by_cases hs : s = s'
  · subst hs
    split <;> simp_all [isAbout]
  · have hne : ipToString s' ≠ ipToString s := fun h => hs (ipToString_inj.mp h).symm
    split <;> simp [isAbout, hsrc, hne, hs]

theorem once_nil : Once rule ∅ [] := fun _ => rfl

/-- The step lemma of the alerted set. -/
theorem Once.raise (h : Once rule alerted answers) (hrule : alert.ruleName = rule)
    (hsrc : alert.srcIp = ipToString s') {answer : List Alert} (hanswer : ∀ s,
      answer.filter (isAbout rule s) = (raiseOnce alerted s' reached alert).2.filter (isAbout rule s)) :
    Once rule (raiseOnce alerted s' reached alert).1 (answers ++ [answer]) := by
  intro s
  rw [alertsOf_append, List.length_append, h s, hanswer s, length_filter_raiseOnce hrule hsrc]
  by_cases hs : s = s'
  · subst hs
    by_cases hm : s ∈ alerted <;> cases reached <;> simp [mem_raiseOnce, hm]
  · simp [mem_raiseOnce, hs]

end Alerts

section Steps
variable {F : Type} {H : Hasher} {d : WindowedAnomalyDetector F} {event : NetworkEvent}

/-- Whether the event takes its source's SYN estimate to the threshold. -/
def floodReached (H : Hasher) (d : WindowedAnomalyDetector F) (event : NetworkEvent) : Bool :=
  event.isSyn && decide (d.synFloodThreshold ≤
    (d.synCounts.increment H (octets event.srcIp)).estimate H (octets event.srcIp))

def flood (H : Hasher) (d : WindowedAnomalyDetector F) (event : NetworkEvent) :
    Finset UInt32 × List Alert :=
  raiseOnce d.alertedFloodThisWindow event.srcIp (floodReached H d event)
    (d.floodAlert event ((d.synCounts.increment H (octets event.srcIp)).estimate H (octets event.srcIp)))

theorem countSyn_eq : d.countSyn H event =
    ({ d with
        synCounts := if event.isSyn then d.synCounts.increment H (octets event.srcIp) else d.synCounts
        alertedFloodThisWindow := (flood H d event).1
        nextId := d.nextId + (flood H d event).2.length.toUInt64 }, (flood H d event).2) := by
  cases h : event.isSyn <;> simp [countSyn, flood, floodReached, raiseOnce, h]

variable [Float64 F]

/-- Whether the event takes its source's port estimate to the threshold. -/
def scanReached (H : Hasher) (d : WindowedAnomalyDetector F) (event : NetworkEvent) : Bool :=
  Float64.le d.portScanThreshold (((d.ports event.srcIp).add H (portBytes event.dstPort)).estimate F)

def scan (H : Hasher) (d : WindowedAnomalyDetector F) (event : NetworkEvent) :
    Finset UInt32 × List Alert :=
  raiseOnce d.alertedScanThisWindow event.srcIp (scanReached H d event)
    ((d.countSyn H event).1.scanAlert event
      (((d.ports event.srcIp).add H (portBytes event.dstPort)).estimate F))

/-- Everything that one event does to the detector. -/
theorem inspect_eq : d.inspect H event =
    ({ d with
        synCounts := if event.isSyn then d.synCounts.increment H (octets event.srcIp) else d.synCounts
        portCardinality := Function.update d.portCardinality event.srcIp
          (some ((d.ports event.srcIp).add H (portBytes event.dstPort)))
        alertedFloodThisWindow := (flood H d event).1
        alertedScanThisWindow := (scan H d event).1
        nextId := d.nextId + (flood H d event).2.length.toUInt64 + (scan H d event).2.length.toUInt64 },
      (flood H d event).2 ++ (scan H d event).2) := by
  simp only [inspect, countPorts, scan, scanReached, countSyn_eq]
  rfl

theorem flood_ne_scan : "syn-flood-anomaly" ≠ "port-scan-anomaly" := by decide

theorem filter_flood (s : UInt32) : (d.inspect H event).2.filter (isAbout "syn-flood-anomaly" s) =
    (flood H d event).2.filter (isAbout "syn-flood-anomaly" s) := by
  have hscan : (scan H d event).2.filter (isAbout "syn-flood-anomaly" s) = [] :=
    filter_raiseOnce_other rfl flood_ne_scan.symm
  rw [inspect_eq, List.filter_append, hscan, List.append_nil]

theorem filter_scan (s : UInt32) : (d.inspect H event).2.filter (isAbout "port-scan-anomaly" s) =
    (scan H d event).2.filter (isAbout "port-scan-anomaly" s) := by
  have hflood : (flood H d event).2.filter (isAbout "port-scan-anomaly" s) = [] :=
    filter_raiseOnce_other rfl flood_ne_scan
  rw [inspect_eq, List.filter_append, hflood, List.nil_append]

end Steps

end ThreatEngine.Detection
