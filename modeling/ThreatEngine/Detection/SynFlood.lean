import ThreatEngine.Detection.Anomaly
import ThreatEngine.Detection.Cep

/-! SYN floods, window by window: one alert for every source that sends fifty
SYNs, and none for anybody before fifty SYNs have been seen. -/
namespace ThreatEngine.Detection
open Tumbling

def isSynOf (s : UInt32) (event : NetworkEvent) : Bool := event.isSyn && event.srcIp == s

/-- The keys that the sketch has counted. -/
def synKeys (events : List NetworkEvent) : List (List UInt8) :=
  (events.filter NetworkEvent.isSyn).map fun event => octets event.srcIp

variable {F : Type} {H : Hasher} {d : WindowedAnomalyDetector F} {event : NetworkEvent}
  {events : List NetworkEvent} {answers : List (List Alert)}

/-- What every call and every restart keeps. -/
structure FloodReady (d : WindowedAnomalyDetector F) : Prop where
  threshold : d.synFloodThreshold = 50
  depth : 0 < d.synCounts.depth
  width : 0 < d.synCounts.width

/-- A detector whose window has seen `events` and given `answers`. -/
structure Flooded (H : Hasher) (d : WindowedAnomalyDetector F) (events : List NetworkEvent)
    (answers : List (List Alert)) : Prop where
  ready : FloodReady d
  counts : d.synCounts.Counts H (synKeys events)
  once : Once "syn-flood-anomaly" d.alertedFloodThisWindow answers
  reached : ∀ s, 50 ≤ events.countP (isSynOf s) → s ∈ d.alertedFloodThisWindow
  few : events.countP NetworkEvent.isSyn < 50 → d.alertedFloodThisWindow = ∅

theorem length_synKeys (events : List NetworkEvent) :
    (synKeys events).length = events.countP NetworkEvent.isSyn := by
  rw [synKeys, List.length_map, List.countP_eq_length_filter]

theorem synKeys_append (events : List NetworkEvent) (event : NetworkEvent) :
    synKeys (events ++ [event]) =
      if event.isSyn then synKeys events ++ [octets event.srcIp] else synKeys events := by
  cases h : event.isSyn <;> simp [synKeys, h]

theorem countP_isSynOf_le (events : List NetworkEvent) (s : UInt32) :
    events.countP (isSynOf s) ≤ (synKeys events).count (octets s) := by
  rw [synKeys, List.count, List.countP_map, List.countP_filter]
  refine List.countP_mono_left fun event _ h => ?_
  obtain ⟨hsyn, hs⟩ := Bool.and_eq_true_iff.mp h
  simp [hsyn, eq_of_beq hs]

theorem counts_inspect (h : d.synCounts.Counts H (synKeys events)) (event : NetworkEvent) :
    (if event.isSyn then d.synCounts.increment H (octets event.srcIp) else d.synCounts).Counts H
      (synKeys (events ++ [event])) := by
  rw [synKeys_append]
  split
  · exact h.increment _
  · exact h

section Reached
variable (h : Flooded H d events answers)
include h

theorem Flooded.estimate_ge (hsyn : event.isSyn = true)
    (hcount : 50 ≤ (events ++ [event]).countP (isSynOf event.srcIp)) : floodReached H d event = true := by
  have hcounts := counts_inspect h.counts event
  rw [if_pos hsyn] at hcounts
  have hle := hcounts.count_le_estimate (s := d.synCounts.increment H _) h.ready.depth h.ready.width (octets event.srcIp)
  have := countP_isSynOf_le (events ++ [event]) event.srcIp
  rw [floodReached, hsyn, Bool.true_and, decide_eq_true_eq, h.ready.threshold, UInt32.le_iff_toNat_le]
  exact Nat.le_trans (by simp; omega) hle

theorem Flooded.total_ge (hreached : floodReached H d event = true) :
    50 ≤ (events ++ [event]).countP NetworkEvent.isSyn := by
  obtain ⟨hsyn, hest⟩ := Bool.and_eq_true_iff.mp hreached
  have hcounts := counts_inspect h.counts event
  rw [if_pos hsyn] at hcounts
  have hle := hcounts.estimate_le_length (s := d.synCounts.increment H _) h.ready.depth h.ready.width (octets event.srcIp)
  rw [decide_eq_true_eq, h.ready.threshold, UInt32.le_iff_toNat_le] at hest
  rw [length_synKeys] at hle
  exact Nat.le_trans hest hle

end Reached

section Run
variable [Float64 F]

theorem FloodReady.inspect (h : FloodReady d) (event : NetworkEvent) :
    FloodReady (d.inspect H event).1 := by
  rw [inspect_eq]
  refine ⟨h.threshold, ?_, ?_⟩
  · by_cases hs : event.isSyn = true <;> simpa [hs] using h.depth
  · by_cases hs : event.isSyn = true <;> simpa [hs] using h.width

/-- The step lemma of a window. -/
theorem Flooded.inspect (h : Flooded H d events answers) (event : NetworkEvent) :
    Flooded H (d.inspect H event).1 (events ++ [event]) (answers ++ [(d.inspect H event).2]) := by
  have hset : (d.inspect H event).1.alertedFloodThisWindow =
      (flood H d event).1 := by rw [inspect_eq]
  refine ⟨h.ready.inspect event, ?_, ?_, fun s hs => ?_, fun hfew => ?_⟩
  · rw [inspect_eq]
    exact counts_inspect h.counts event
  · rw [hset]
    exact h.once.raise rfl rfl filter_flood
  · rw [hset, flood, mem_raiseOnce]
    by_cases he : isSynOf s event = true
    · obtain ⟨hsyn, hsrc⟩ := Bool.and_eq_true_iff.mp he
      obtain rfl := eq_of_beq hsrc
      exact Or.inr ⟨h.estimate_ge hsyn hs, rfl⟩
    · refine Or.inl (h.reached s ?_)
      simpa [List.countP_append, he] using hs
  · have hle : events.countP NetworkEvent.isSyn ≤ (events ++ [event]).countP NetworkEvent.isSyn := by
      rw [List.countP_append]
      exact Nat.le_add_right _ _
    have hnot : ¬floodReached H d event = true := fun hr => by
      have := h.total_ge hr
      omega
    rw [hset, flood, raiseOnce, if_neg fun hr => hnot hr.1]
    exact h.few (by omega)

variable {window t₀ : Nat} {stream : List (Nat × NetworkEvent)} {a b : Nat}

theorem flooded_new (H : Hasher) (window t₀ : Nat) :
    Flooded H (WindowedAnomalyDetector.new F window t₀) [] [] where
  ready := ⟨rfl, Nat.zero_lt_succ 3, Nat.zero_lt_succ 2047⟩
  counts := CountMinSketch.counts_new H 2048 4
  once := once_nil
  reached := by simp
  few := fun _ => rfl

omit [Float64 F] in
theorem FloodReady.restart (h : FloodReady d) (H : Hasher) (now : Nat) : Flooded H (d.restart now)
    [] [] where
  ready := ⟨h.threshold, h.depth, h.width⟩
  counts := CountMinSketch.counts_clear H _
  once := once_nil
  reached := by simp
  few := fun _ => rfl

/-- The run lemma: in every segment the answers are those of a window that has seen its events. -/
theorem flooded_segment (seg : (windowed F H window t₀).Segment stream a b) {c : Nat} (hac : a ≤ c)
    (hcb : c ≤ b) : ∃ d : WindowedAnomalyDetector F, Flooded H d ((slice stream a c).map Prod.snd)
      (slice (observed F H window t₀ stream) a c) := by
  rw [observed, anomalyMachine_eq]
  exact seg.rule (flooded_new H window t₀) (fun d events answers event h => h.inspect event)
    (fun now d events answers h => h.ready.restart H now) hac hcb

/-- Fifty SYNs of a source in a segment have an alert. -/
theorem alerted_of_syns (seg : (windowed F H window t₀).Segment stream a b) {s : UInt32}
    (hsyns : 50 ≤ ((slice stream a b).map Prod.snd).countP (isSynOf s)) :
    alertsOf "syn-flood-anomaly" s (slice (observed F H window t₀ stream) a b) ≠ [] := by
  intro hnil
  obtain ⟨d, hd⟩ := flooded_segment seg seg.le le_rfl
  have hone := hd.once s
  rw [hnil, if_pos (hd.reached s hsyns)] at hone
  cases hone

theorem isSyn_of_flood_alert {alert : Alert} (hm : alert ∈ (d.inspect H event).2)
    (hrule : alert.ruleName = "syn-flood-anomaly") :
    event.isSyn = true ∧ alert.srcIp = ipToString event.srcIp := by
  rw [inspect_eq, List.mem_append] at hm
  cases hm with
  | inl hm =>
    obtain ⟨rfl, hreached, _⟩ := mem_raised hm
    exact ⟨(Bool.and_eq_true_iff.mp hreached).1, rfl⟩
  | inr hm =>
    obtain ⟨rfl, _⟩ := mem_raised hm
    exact absurd hrule.symm flood_ne_scan

/-- In every segment, whatever the hash function: the events lie within less
than a window, every flood alert is on a SYN of its source, no source has two,
a source with fifty SYNs has one by then, and nobody has one before fifty SYNs
have been seen altogether. -/
theorem syn_flood_per_window (F : Type) [Float64 F] (H : Hasher) (window t₀ : Nat)
    (stream : List (Nat × NetworkEvent)) (hmono : (t₀ :: stream.map Prod.fst).Pairwise (· ≤ ·)) {a b : Nat}
    (seg : (windowed F H window t₀).Segment stream a b) :
    (∀ i j x y, a ≤ i → i < j → j < b → stream[i]? = some x → stream[j]? = some y → y.1 - x.1 < window) ∧
    (∀ j x answer, a ≤ j → j < b → stream[j]? = some x →
      (observed F H window t₀ stream)[j]? = some answer →
      ∀ alert ∈ answer, alert.ruleName = "syn-flood-anomaly" →
        x.2.isSyn = true ∧ alert.srcIp = ipToString x.2.srcIp) ∧
    ∀ s, (alertsOf "syn-flood-anomaly" s (slice (observed F H window t₀ stream) a b)).length ≤ 1 ∧
      (∀ c, a ≤ c → c ≤ b → 50 ≤ ((slice stream a c).map Prod.snd).countP (isSynOf s) →
        (alertsOf "syn-flood-anomaly" s (slice (observed F H window t₀ stream) a c)).length = 1) ∧
      (((slice stream a b).map Prod.snd).countP NetworkEvent.isSyn < 50 →
        alertsOf "syn-flood-anomaly" s (slice (observed F H window t₀ stream) a b) = []) := by
  refine ⟨fun i j x y hai hij hjb hx hy => seg.within hmono hai hij hjb hx hy, ?_, fun s => ⟨?_, ?_, ?_⟩⟩
  · intro j x answer _ _ hx ha alert hm hrule
    rw [observed, anomalyMachine_eq, output_at hx] at ha
    obtain rfl := Option.some.inj ha
    exact isSyn_of_flood_alert hm hrule
  · obtain ⟨d, hd⟩ := flooded_segment seg seg.le (Nat.le_refl b)
    rw [hd.once s]
    split <;> decide
  · intro c hac hcb hcount
    obtain ⟨d, hd⟩ := flooded_segment seg hac hcb
    rw [hd.once s, if_pos (hd.reached s hcount)]
  · intro hfew
    obtain ⟨d, hd⟩ := flooded_segment seg seg.le (Nat.le_refl b)
    rw [← List.length_eq_zero_iff, hd.once s, hd.few hfew, if_neg (Finset.notMem_empty s)]

def constantHasher : Hasher where
  seeded _ _ := 0
  plain _ := 0

/-- Every key falls into one cell, and sixty SYNs of one source raise one alert. -/
theorem syn_flood_per_window_burst : (alertsOf "syn-flood-anomaly" 42
    (slice (observed ℝ constantHasher 1 0 (List.replicate 60 (0, synEvent 42))) 0 60)).length = 1 := by
  have seg : (windowed ℝ constantHasher 1 0).Segment (List.replicate 60 (0, synEvent 42)) 0 60 :=
    segment_of_early fun x hx => by
      rw [List.eq_of_mem_replicate hx]
      exact Nat.one_pos
  exact ((syn_flood_per_window ℝ constantHasher 1 0 (List.replicate 60 (0, synEvent 42)) (by decide) seg).2.2 42).2.1
    60 (Nat.zero_le 60) (Nat.le_refl 60) (by decide)

end Run

end ThreatEngine.Detection
