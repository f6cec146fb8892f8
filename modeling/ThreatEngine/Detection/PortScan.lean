import Mathlib.Data.Finset.Card
import Mathlib.Data.Finset.Dedup
import Mathlib.Data.Finset.Image
import ThreatEngine.Detection.Anomaly
import ThreatEngine.Detection.Cep

/-! Port scans over exact reals: the alert comes with the event that takes its
source to twenty-five of the 1024 buckets. -/
namespace ThreatEngine.Detection
open Tumbling WindowedAnomalyDetector

def portBucket (H : Hasher) (event : NetworkEvent) : Nat :=
  bucketOf 10 (H.plain (portBytes event.dstPort))

def eventsOf (s : UInt32) (events : List NetworkEvent) : List NetworkEvent :=
  events.filter fun event => event.srcIp == s

/-- The buckets that the destination ports touched by `s` occupy. -/
def portBuckets (H : Hasher) (s : UInt32) (events : List NetworkEvent) : Finset Nat :=
  ((eventsOf s events).map (portBucket H)).toFinset

def distinctPorts (s : UInt32) (events : List NetworkEvent) : Finset UInt16 :=
  ((eventsOf s events).map NetworkEvent.dstPort).toFinset

section Buckets
variable {H : Hasher} {s : UInt32} {event : NetworkEvent} {events : List NetworkEvent}

theorem mem_portBuckets {i : Nat} :
    i ∈ portBuckets H s events ↔ ∃ event ∈ events, event.srcIp = s ∧ portBucket H event = i := by
  simp [portBuckets, eventsOf, and_assoc]

theorem mem_portBuckets_append {i : Nat} : i ∈ portBuckets H s (events ++ [event]) ↔
    i ∈ portBuckets H s events ∨ event.srcIp = s ∧ portBucket H event = i := by
  simp only [mem_portBuckets, List.mem_append, List.mem_singleton, or_and_right, exists_or, exists_eq_left]

theorem portBuckets_append_other (h : event.srcIp ≠ s) :
    portBuckets H s (events ++ [event]) = portBuckets H s events := by
  ext i
  simp [mem_portBuckets_append, h]

theorem portBuckets_subset {events' : List NetworkEvent} (h : events ⊆ events') :
    portBuckets H s events ⊆ portBuckets H s events' := by
  intro i hi
  obtain ⟨event, hm, hs⟩ := mem_portBuckets.mp hi
  exact mem_portBuckets.mpr ⟨event, h hm, hs⟩

theorem card_portBuckets_le (H : Hasher) (s : UInt32) (events : List NetworkEvent) :
    (portBuckets H s events).card ≤ (distinctPorts s events).card := by
  have himage : portBuckets H s events =
      (distinctPorts s events).image fun port => bucketOf 10 (H.plain (portBytes port)) := by
    ext i
    simp [portBuckets, distinctPorts, portBucket]
  rw [himage]
  exact Finset.card_image_le

/-- Buckets are reached by an event of the source. -/
theorem exists_reaching {stream : List (Nat × NetworkEvent)} {a j n : Nat} (haj : a ≤ j)
    (hj : j ≤ stream.length) (h : n < (portBuckets H s ((slice stream a j).map Prod.snd)).card) :
    ∃ k y, a ≤ k ∧ k < j ∧ stream[k]? = some y ∧ y.2.srcIp = s ∧
      n < (portBuckets H s ((slice stream a (k + 1)).map Prod.snd)).card := by
  induction j, haj using Nat.le_induction with
  | base => simp [portBuckets, eventsOf] at h
  | succ j haj ih =>
    obtain ⟨y, hy⟩ : ∃ y, stream[j]? = some y := ⟨_, List.getElem?_eq_getElem (by omega)⟩
    by_cases hs : y.2.srcIp = s
    · exact ⟨j, y, haj, Nat.lt_succ_self j, hy, hs, h⟩
    · rw [slice_succ haj hy, List.map_append, List.map_singleton, portBuckets_append_other hs] at h
      obtain ⟨k, z, hak, hkj, hrest⟩ := ih (by omega) h
      exact ⟨k, z, hak, by omega, hrest⟩

end Buckets

/-- A detector whose window has seen `events` and given `answers`. -/
structure Scanned (H : Hasher) (d : WindowedAnomalyDetector ℝ) (events : List NetworkEvent)
    (answers : List (List Alert)) : Prop where
  threshold : d.portScanThreshold = 25.0
  bits : ∀ s, (d.ports s).bucketBits = 10
  buckets : ∀ s i, (d.ports s).buckets.getD i 0 ≠ 0 ↔ i ∈ portBuckets H s events
  once : Once "port-scan-anomaly" d.alertedScanThisWindow answers
  alerted : ∀ s, s ∈ d.alertedScanThisWindow ↔ 25 ≤ (portBuckets H s events).card

variable {H : Hasher} {d : WindowedAnomalyDetector ℝ} {event : NetworkEvent}
    {events : List NetworkEvent}
  {answers : List (List Alert)} {s : UInt32}

theorem ports_inspect (H : Hasher) (d : WindowedAnomalyDetector ℝ) (event : NetworkEvent)
    (s : UInt32) : (d.inspect H event).1.ports s =
    if s = event.srcIp then (d.ports event.srcIp).add H (portBytes event.dstPort) else d.ports s := by
  rw [inspect_eq]
  by_cases h : s = event.srcIp
  · subst h
    simp [ports]
  · simp [ports, h]

theorem threshold_inspect (d : WindowedAnomalyDetector ℝ) (event : NetworkEvent) :
    (d.inspect H event).1.portScanThreshold = d.portScanThreshold := by rw [inspect_eq]

theorem Scanned.bits_inspect (h : Scanned H d events answers) (event : NetworkEvent) (s : UInt32) :
    ((d.inspect H event).1.ports s).bucketBits = 10 := by
  rw [ports_inspect]
  split
  · rw [HyperLogLog.add_bucketBits, h.bits]
  · exact h.bits s

theorem Scanned.buckets_inspect (h : Scanned H d events answers) (event : NetworkEvent) (s : UInt32)
    (i : Nat) :
    ((d.inspect H event).1.ports s).buckets.getD i 0 ≠ 0 ↔ i ∈ portBuckets H s (events ++ [event]) := by
  rw [ports_inspect, mem_portBuckets_append]
  split
  · next hs =>
    subst hs
    rw [HyperLogLog.touched_add, h.buckets, h.bits]
    simp [portBucket, eq_comm]
  · next hs =>
    rw [h.buckets]
    simp [Ne.symm hs]

/-- The threshold is reached when the buckets are. -/
theorem Scanned.scanReached_iff (h : Scanned H d events answers) (event : NetworkEvent) :
    scanReached H d event = true ↔ 25 ≤ (portBuckets H event.srcIp (events ++ [event])).card := by
  have hports := ports_inspect H d event event.srcIp
  rw [if_pos rfl] at hports
  rw [scanReached, ← hports, h.threshold,
    ← HyperLogLog.occupied_eq_card (h.buckets_inspect event event.srcIp),
    ← HyperLogLog.threshold_iff (h.bits_inspect event event.srcIp)]
  exact decide_eq_true_iff

/-- The step lemma of a window. -/
theorem Scanned.inspect (h : Scanned H d events answers) (event : NetworkEvent) :
    Scanned H (d.inspect H event).1 (events ++ [event]) (answers ++ [(d.inspect H event).2]) := by
  have hset : (d.inspect H event).1.alertedScanThisWindow = (scan H d event).1 := by rw [inspect_eq]
  refine ⟨?_, h.bits_inspect event, h.buckets_inspect event, ?_, fun s => ?_⟩
  · exact (threshold_inspect d event).trans h.threshold
  · rw [hset]
    exact h.once.raise rfl rfl filter_scan
  · rw [hset, scan, mem_raiseOnce, h.scanReached_iff, h.alerted]
    by_cases hs : event.srcIp = s
    · subst hs
      have hle := Finset.card_le_card
        (portBuckets_subset (H := H) (s := event.srcIp) (List.subset_append_left events [event]))
      simp only [and_true]
      omega
    · simp [portBuckets_append_other hs, Ne.symm hs]

/-- A window without ports, as it is at first and after a restart. -/
theorem scanned_open (hthreshold : d.portScanThreshold = 25.0)
    (hports : d.portCardinality = fun _ => none)
    (hset : d.alertedScanThisWindow = ∅) : Scanned H d [] [] := by
  have hnew : ∀ s, d.ports s = HyperLogLog.new 10 (by decide) := fun s => by
    rw [ports, hports]
    rfl
  refine ⟨hthreshold, fun s => ?_, fun s i => ?_, ?_, fun s => ?_⟩
  · rw [hnew s]
    rfl
  · rw [hnew s, HyperLogLog.buckets_new]
    simp [mem_portBuckets]
  · exact hset ▸ once_nil
  · simp [hset, portBuckets, eventsOf]

section Run
variable {window t₀ : Nat} {stream : List (Nat × NetworkEvent)} {a b : Nat}

/-- The run lemma: in every segment the answers are those of a window that has seen its events. -/
theorem scanned_segment (seg : (windowed ℝ H window t₀).Segment stream a b) {c : Nat} (hac : a ≤ c)
    (hcb : c ≤ b) :
    ∃ d, Scanned H d ((slice stream a c).map Prod.snd) (slice (observed ℝ H window t₀ stream) a c) := by
  rw [observed, anomalyMachine_eq]
  exact seg.rule (scanned_open rfl rfl rfl) (fun d events answers event h => h.inspect event)
    (fun now d events answers h => scanned_open h.threshold rfl rfl) hac hcb

/-- The alert comes when the occupied buckets pass the threshold. -/
theorem Scanned.raised_iff {d' : WindowedAnomalyDetector ℝ} {answer : List Alert}
    (h : Scanned H d events answers) (h' : Scanned H d' (events ++ [event]) (answers ++ [answer])) :
    (∃ alert ∈ answer, isAbout "port-scan-anomaly" s alert = true) ↔
      25 ≤ (portBuckets H s (events ++ [event])).card ∧ (portBuckets H s events).card < 25 := by
  have hlen := h'.once s
  rw [alertsOf_append, List.length_append, h.once s] at hlen
  have hiff : (∃ alert ∈ answer, isAbout "port-scan-anomaly" s alert = true) ↔
      0 < (answer.filter (isAbout "port-scan-anomaly" s)).length := by
    simp [List.length_pos_iff_exists_mem]
  rw [hiff, ← h'.alerted s, ← Nat.not_le (a := 25), ← h.alerted s]
  generalize (answer.filter (isAbout "port-scan-anomaly" s)).length = n at hlen ⊢
  by_cases hm : s ∈ d.alertedScanThisWindow <;> by_cases hm' : s ∈ d'.alertedScanThisWindow <;>
    simp [hm, hm'] at hlen ⊢ <;> omega

/-- In every segment, whatever the hash function: a source's port scan alert is
on its first event after which its destination ports occupy 25 buckets; without
25 distinct ports there is none, and there are never two. -/
theorem port_scan_exact (H : Hasher) (window t₀ : Nat) (stream : List (Nat × NetworkEvent))
    {a b : Nat} (seg : (windowed ℝ H window t₀).Segment stream a b) (s : UInt32) :
    (∀ j x answer, a ≤ j → j < b → stream[j]? = some x → (observed ℝ H window t₀ stream)[j]? = some answer →
      ((∃ alert ∈ answer, isAbout "port-scan-anomaly" s alert = true) ↔
        x.2.srcIp = s ∧ 25 ≤ (portBuckets H s ((slice stream a (j + 1)).map Prod.snd)).card ∧
          ∀ k y, a ≤ k → k < j → stream[k]? = some y → y.2.srcIp = s →
            (portBuckets H s ((slice stream a (k + 1)).map Prod.snd)).card < 25)) ∧
    ((distinctPorts s ((slice stream a b).map Prod.snd)).card < 25 →
      alertsOf "port-scan-anomaly" s (slice (observed ℝ H window t₀ stream) a b) = []) ∧
    (alertsOf "port-scan-anomaly" s (slice (observed ℝ H window t₀ stream) a b)).length ≤ 1 := by
  refine ⟨fun j x answer haj hjb hx ha => ?_, fun hfew => ?_, ?_⟩
  · obtain ⟨d, hd⟩ := scanned_segment seg haj (Nat.le_of_lt hjb)
    obtain ⟨d', hd'⟩ := scanned_segment seg (Nat.le_succ_of_le haj) hjb
    have hsucc : (slice stream a (j + 1)).map Prod.snd =
        (slice stream a j).map Prod.snd ++ [x.2] := by
      rw [slice_succ haj hx, List.map_append, List.map_singleton]
    rw [hsucc, slice_succ haj ha] at hd'
    rw [hd.raised_iff hd', hsucc]
    constructor
    · intro h
      refine ⟨?_, h.1, fun k y hak hkj hy _ => ?_⟩
      · by_contra hne
        rw [portBuckets_append_other hne] at h
        omega
      · refine Nat.lt_of_le_of_lt (Finset.card_le_card (portBuckets_subset (List.map_subset _ ?_))) h.2
        rw [← take_slice stream (Nat.le_succ_of_le hak) hkj]
        exact List.take_subset _ _
    · intro ⟨_, hreach, hearlier⟩
      refine ⟨hreach, ?_⟩
      by_contra hge
      obtain ⟨k, y, hak, hkj, hy, hs, hk⟩ := exists_reaching (n := 24) haj
        (Nat.le_trans (Nat.le_of_lt hjb) seg.bound) (Nat.not_lt.mp hge)
      have := hearlier k y hak hkj hy hs
      omega
  · obtain ⟨d, hd⟩ := scanned_segment seg seg.le (Nat.le_refl b)
    have hle := card_portBuckets_le H s ((slice stream a b).map Prod.snd)
    have hnot : s ∉ d.alertedScanThisWindow := fun hm => by
      have := (hd.alerted s).mp hm
      omega
    rw [← List.length_eq_zero_iff, hd.once s, if_neg hnot]
  · obtain ⟨d, hd⟩ := scanned_segment seg seg.le (Nat.le_refl b)
    rw [hd.once s]
    split <;> decide

/-- The low byte of a port is its bucket. -/
def spreadHasher : Hasher where
  seeded _ _ := 0
  plain key := (key.getD 1 0).toUInt64 <<< 54

/-- One source goes through the ports 0 to 24. -/
def portWalk : List (Nat × NetworkEvent) :=
  (List.range 25).map fun port => (0, { synEvent 42 with dstPort := port.toUInt16 })

/-- The twenty-fifth port raises the alert. -/
theorem port_scan_exact_walk : ∃ alert ∈ ((observed ℝ spreadHasher 1 0 portWalk)[24]?).getD [],
    isAbout "port-scan-anomaly" 42 alert = true := by
  have hlen : portWalk.length = 25 := by simp [portWalk]
  have seg : (windowed ℝ spreadHasher 1 0).Segment portWalk 0 25 :=
    segment_of_early fun x hx => by
      obtain ⟨port, _, rfl⟩ := List.mem_map.mp hx
      exact Nat.one_pos
  have hx : portWalk[24]? = some (0, { synEvent 42 with dstPort := 24 }) := rfl
  have ha := output_at (W := windowed ℝ spreadHasher 1 0) hx
  rw [observed, anomalyMachine_eq, ha]
  refine ((port_scan_exact spreadHasher 1 0 portWalk seg 42).1 24 _ _ (by decide) (by decide) hx ha).mpr
    ⟨rfl, by decide +kernel, fun k y _ hk _ _ => ?_⟩
  calc (portBuckets spreadHasher 42 ((slice portWalk 0 (k + 1)).map Prod.snd)).card
      ≤ ((eventsOf 42 ((slice portWalk 0 (k + 1)).map Prod.snd)).map (portBucket spreadHasher)).length :=
        List.toFinset_card_le _
    _ ≤ ((slice portWalk 0 (k + 1)).map Prod.snd).length := by
        rw [List.length_map]
        exact List.length_filter_le _ _
    _ = k + 1 := by
        rw [List.length_map, length_slice (by omega), Nat.sub_zero]
    _ < 25 := by omega

end Run

end ThreatEngine.Detection
