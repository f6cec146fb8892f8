import ThreatEngine.Detection.FxCollisions
import ThreatEngine.Detection.WindowRoll

/-! Bursts of SYNs against the instants at which the window is rolled. An alert is
raised when a SYN finds fifty SYNs of its window in each of its source's cells, so
a burst that a roll divides can pass unnoticed. -/
namespace ThreatEngine.Detection
open Tumbling WindowedAnomalyDetector

/-- Whether the SYN of an event is counted in the cell of `s` in a row. -/
def sharesCell (H : Hasher) (s : UInt32) (row : Nat) (event : NetworkEvent) : Bool :=
  event.isSyn && (CountMinSketch.new 2048 4).hash H (octets event.srcIp) row ==
    (CountMinSketch.new 2048 4).hash H (octets s) row

/-- Each of the four cells of `s` has counted fifty SYNs. -/
def Crowded (H : Hasher) (s : UInt32) (events : List NetworkEvent) : Prop :=
  ∀ row < 4, 50 ≤ events.countP (sharesCell H s row)

/-- A SYN of `s` has found its cells so. -/
def ReachedIn (H : Hasher) (s : UInt32) (events : List NetworkEvent) : Prop :=
  ∃ past event, past ++ [event] <+: events ∧ isSynOf s event = true ∧ Crowded H s (past ++ [event])

/-- A detector whose window has seen `events` and given `answers`: exactly who is alerted. -/
structure Crowding {F : Type} [Float64 F] (H : Hasher) (window : Nat)
    (d : WindowedAnomalyDetector F)
    (events : List NetworkEvent) (answers : List (List Alert)) : Prop where
  configured : Configured window d
  counts : d.synCounts.Counts H (synKeys events)
  once : Once "syn-flood-anomaly" d.alertedFloodThisWindow answers
  alerted : ∀ s, s ∈ d.alertedFloodThisWindow ↔ ReachedIn H s events

section Cells
variable {H : Hasher} {s : UInt32} {events : List NetworkEvent} {event : NetworkEvent}

theorem not_reachedIn_nil : ¬ ReachedIn H s [] := by
  rintro ⟨past, event, hpre, -⟩
  simpa using List.prefix_nil.mp hpre

theorem reachedIn_concat : ReachedIn H s (events ++ [event]) ↔
    ReachedIn H s events ∨ isSynOf s event = true ∧ Crowded H s (events ++ [event]) := by
  constructor
  · rintro ⟨past, e, hpre, hsyn, hcrowded⟩
    obtain he | hpre := List.prefix_concat_iff.mp hpre
    · obtain ⟨rfl, rfl⟩ : past = events ∧ e = event := by simpa using he
      exact .inr ⟨hsyn, hcrowded⟩
    · exact .inl ⟨past, e, hpre, hsyn, hcrowded⟩
  · rintro (⟨past, e, hpre, hsyn, hcrowded⟩ | ⟨hsyn, hcrowded⟩)
    · exact ⟨past, e, hpre.trans (List.prefix_append _ _), hsyn, hcrowded⟩
    · exact ⟨events, event, List.prefix_rfl, hsyn, hcrowded⟩

/-- The source's own SYNs are in all its cells. -/
theorem crowded_of_own (h : 50 ≤ events.countP (isSynOf s)) : Crowded H s events := by
  intro row _
  refine h.trans (List.countP_mono_left fun event _ hs => ?_)
  obtain ⟨hsyn, hsrc⟩ := Bool.and_eq_true_iff.mp hs
  rw [sharesCell, hsyn, eq_of_beq hsrc]
  exact beq_self_eq_true _

/-- Nobody is alerted before fifty SYNs. -/
theorem ReachedIn.total_ge (h : ReachedIn H s events) : 50 ≤ events.countP NetworkEvent.isSyn := by
  obtain ⟨past, event, hpre, -, hcrowded⟩ := h
  calc 50 ≤ (past ++ [event]).countP (sharesCell H s 0) := hcrowded 0 (by decide)
    _ ≤ (past ++ [event]).countP NetworkEvent.isSyn :=
      List.countP_mono_left fun e _ he => (Bool.and_eq_true_iff.mp he).1
    _ ≤ events.countP NetworkEvent.isSyn := hpre.sublist.countP_le

theorem countP_synKeys (H : Hasher) (s : UInt32) (row : Nat) (events : List NetworkEvent) :
    ((synKeys events).countP fun key => (CountMinSketch.new 2048 4).hash H key row ==
      (CountMinSketch.new 2048 4).hash H (octets s) row) = events.countP (sharesCell H s row) := by
  rw [synKeys, List.countP_map, List.countP_filter]
  exact List.countP_congr fun event _ => by rw [sharesCell, Bool.and_comm]; rfl

end Cells

section Window
variable {F : Type} [Float64 F] {H : Hasher} {window : Nat} {d : WindowedAnomalyDetector F}
  {events : List NetworkEvent} {answers : List (List Alert)} {event : NetworkEvent}

omit [Float64 F] in
theorem floodReached_of_not_syn (h : event.isSyn = false) : floodReached H d event = false := by
  rw [floodReached, h, Bool.false_and]

/-- The estimate is at the threshold when all four cells are. -/
theorem Crowding.floodReached_iff (h : Crowding H window d events answers)
    (hsyn : event.isSyn = true) :
    floodReached H d event = true ↔ Crowded H event.srcIp (events ++ [event]) := by
  have hcounts := counts_inspect h.counts event
  rw [if_pos hsyn] at hcounts
  have hdepth : (d.synCounts.increment H (octets event.srcIp)).depth = 4 := h.configured.depth
  have hwidth : (d.synCounts.increment H (octets event.srcIp)).width = 2048 := h.configured.width
  have hhash (key : List UInt8) (row : Nat) :
      (d.synCounts.increment H (octets event.srcIp)).hash H key row =
      (CountMinSketch.new 2048 4).hash H key row := by
    rw [CountMinSketch.hash_increment, CountMinSketch.hash, CountMinSketch.hash, h.configured.seeds,
      h.configured.width]
    rfl
  have hcell (row : Nat) (hrow : row < 4) : ((d.synCounts.increment H (octets event.srcIp)).cell row
      ((d.synCounts.increment H (octets event.srcIp)).hash H (octets event.srcIp) row)).toNat =
        min (2 ^ 32 - 1) ((events ++ [event]).countP (sharesCell H event.srcIp row)) := by
    rw [hcounts row _ (by rwa [hdepth]) (CountMinSketch.hash_lt H _ row (by rw [hwidth]; decide))]
    simp only [hhash, countP_synKeys]
  have hspec := CountMinSketch.estimate_spec (s := d.synCounts.increment H (octets event.srcIp)) H
    (octets event.srcIp) (by rw [hdepth]; decide)
  rw [hdepth] at hspec
  obtain ⟨⟨row, hrow, hleast⟩, hle⟩ := hspec
  rw [floodReached, hsyn, Bool.true_and, decide_eq_true_eq, h.configured.flood,
    UInt32.le_iff_toNat_le]
  constructor
  · intro hest r hr
    have hreach := hest.trans (UInt32.le_iff_toNat_le.mp (hle r hr))
    rw [hcell r hr] at hreach
    exact hreach.trans (min_le_right _ _)
  · intro hcrowded
    rw [hleast, hcell row hrow]
    exact le_min (by decide) (hcrowded row hrow)

/-- The step lemma of a window. -/
theorem Crowding.inspect (h : Crowding H window d events answers) (event : NetworkEvent) :
    Crowding H window (d.inspect H event).1 (events ++ [event])
      (answers ++ [(d.inspect H event).2]) := by
  have hset : (d.inspect H event).1.alertedFloodThisWindow =
      (flood H d event).1 := by rw [inspect_eq]
  refine ⟨h.configured.inspect event, ?_, ?_, fun s => ?_⟩
  · rw [inspect_eq]
    exact counts_inspect h.counts event
  · rw [hset]
    exact h.once.raise rfl rfl filter_flood
  · rw [hset, flood, mem_raiseOnce, h.alerted, reachedIn_concat]
    refine or_congr_right ?_
    cases hsyn : event.isSyn with
    | false => simp [floodReached_of_not_syn hsyn, isSynOf, hsyn]
    | true =>
      rw [h.floodReached_iff hsyn, isSynOf, hsyn, Bool.true_and, beq_iff_eq]
      constructor
      · rintro ⟨hcrowded, rfl⟩
        exact ⟨rfl, hcrowded⟩
      · rintro ⟨rfl, hcrowded⟩
        exact ⟨hcrowded, rfl⟩

theorem crowding_new (H : Hasher) (window t₀ : Nat) :
    Crowding H window (.new F window t₀) [] [] where
  configured := configured_new window t₀
  counts := CountMinSketch.counts_new H 2048 4
  once := once_nil
  alerted s := iff_of_false (Finset.notMem_empty s) not_reachedIn_nil

theorem Crowding.restart (h : Crowding H window d events answers) (now : Nat) :
    Crowding H window (d.restart now) [] [] where
  configured := h.configured.restart now
  counts := CountMinSketch.counts_clear H _
  once := once_nil
  alerted s := iff_of_false (Finset.notMem_empty s) not_reachedIn_nil

variable {t₀ : Nat} {stream : List (Nat × NetworkEvent)} {a b : Nat} {s : UInt32}

/-- The events from position `a` up to position `c`. -/
def eventsIn (stream : List (Nat × NetworkEvent)) (a c : Nat) : List NetworkEvent :=
  (slice stream a c).map Prod.snd

theorem eventsIn_succ {k : Nat} (hak : a ≤ k) {x : Nat × NetworkEvent} (hx : stream[k]? = some x) :
    eventsIn stream a (k + 1) = eventsIn stream a k ++ [x.2] := by
  rw [eventsIn, slice_succ hak hx, List.map_append]
  rfl

/-- The run lemma: in every segment those are alerted whose cells have been found full. -/
theorem crowding_segment (seg : (windowed F H window t₀).Segment stream a b) {c : Nat} (hac : a ≤ c)
    (hcb : c ≤ b)
    (s : UInt32) [Decidable (ReachedIn H s (eventsIn stream a c))] :
    (alertsOf "syn-flood-anomaly" s (slice (observed F H window t₀ stream) a c)).length =
      if ReachedIn H s (eventsIn stream a c) then 1 else 0 := by
  obtain ⟨d, hd⟩ : ∃ d, Crowding H window d (eventsIn stream a c)
      (slice (observed F H window t₀ stream) a c) := by
    rw [observed, anomalyMachine_eq]
    exact seg.rule (crowding_new H window t₀) (fun d events answers event h => h.inspect event)
      (fun now d events answers h => h.restart now) hac hcb
  rw [hd.once s]
  simp only [hd.alerted s]

/-- At position `k` the cells of `s` are found full for the first time in their window. -/
def FillsAt (F : Type) [Float64 F] (H : Hasher) (window t₀ : Nat)
    (stream : List (Nat × NetworkEvent)) (s : UInt32)
    (k : Nat) : Prop :=
  ∃ a, a ≤ k ∧ (windowed F H window t₀).Segment stream a (k + 1) ∧
    ReachedIn H s (eventsIn stream a (k + 1)) ∧ ¬ ReachedIn H s (eventsIn stream a k)

/-- An alert for `s` is among the answers to the event at position `k`. -/
def FloodAlertAt (F : Type) [Float64 F] (H : Hasher) (window t₀ : Nat)
    (stream : List (Nat × NetworkEvent))
    (s : UInt32) (k : Nat) : Prop :=
  ∃ answer, (observed F H window t₀ stream)[k]? = some answer ∧
    ∃ alert ∈ answer, isAbout "syn-flood-anomaly" s alert = true

theorem alert_iff_in_segment {k : Nat} (hak : a ≤ k)
    (seg : (windowed F H window t₀).Segment stream a (k + 1)) :
    FloodAlertAt F H window t₀ stream s k ↔
      ReachedIn H s (eventsIn stream a (k + 1)) ∧ ¬ ReachedIn H s (eventsIn stream a k) := by
  classical
  have hk : k < stream.length := seg.bound
  have hlt : k < (observed F H window t₀ stream).length := by
    rwa [observed, Mealy.length_outputs]
  obtain ⟨answer, hanswer⟩ : ∃ answer, (observed F H window t₀ stream)[k]? = some answer :=
    ⟨_, List.getElem?_eq_getElem hlt⟩
  have halert : FloodAlertAt F H window t₀ stream s k ↔
      (answer.filter (isAbout "syn-flood-anomaly" s)).length ≠ 0 := by
    simp [FloodAlertAt, hanswer]
  have hbefore := crowding_segment seg hak (Nat.le_succ k) s
  have hafter := crowding_segment seg (Nat.le_succ_of_le hak) (Nat.le_refl _) s
  rw [slice_succ hak hanswer, alertsOf_append, List.length_append, hbefore] at hafter
  have hevents := eventsIn_succ hak (List.getElem?_eq_getElem hk)
  rw [halert]
  by_cases h : ReachedIn H s (eventsIn stream a k)
  · have h' : ReachedIn H s (eventsIn stream a (k + 1)) := hevents ▸ reachedIn_concat.mpr (.inl h)
    rw [if_pos h, if_pos h'] at hafter
    exact iff_of_false (by omega) fun hr => hr.2 h
  · rw [if_neg h, Nat.zero_add] at hafter
    rw [hafter]
    simp [h]

/-- Alerts are raised when cells are found full for the first time. -/
theorem floodAlertAt_iff {k : Nat} (hk : k < stream.length) :
    FloodAlertAt F H window t₀ stream s k ↔ FillsAt F H window t₀ stream s k := by
  obtain ⟨a, hak, seg⟩ := exists_segment (windowed F H window t₀) hk
  constructor
  · intro h
    exact ⟨a, hak, seg, (alert_iff_in_segment hak seg).mp h⟩
  · rintro ⟨a', hak', seg', hfills⟩
    exact (alert_iff_in_segment hak' seg').mpr hfills

/-- From position `i` to position `j`, in less than a window, fifty SYNs of `s`, the last at `j`. -/
structure Burst (window : Nat) (stream : List (Nat × NetworkEvent)) (s : UInt32) (i j : Nat)
    (x y : Nat × NetworkEvent) : Prop where
  first : stream[i]? = some x
  last : stream[j]? = some y
  le : i ≤ j
  within : y.1 - x.1 < window
  syn : isSynOf s y.2 = true
  fifty : 50 ≤ (eventsIn stream i (j + 1)).countP (isSynOf s)

/-- A burst that no roll divides fills the cells of its source, in its window. -/
theorem Burst.fills {i j : Nat} {x y : Nat × NetworkEvent} (h : Burst window stream s i j x y)
    (hroll : ∀ k, i < k → k ≤ j → ¬ (windowed F H window t₀).RollsAt stream k) :
    ∃ a k, a ≤ k ∧ k ≤ j ∧ (windowed F H window t₀).Segment stream a (j + 1) ∧
      FillsAt F H window t₀ stream s k := by
  have hj : j < stream.length := (List.getElem?_eq_some_iff.mp h.last).1
  obtain ⟨a, haj, seg⟩ := exists_segment (windowed F H window t₀) hj
  have hai : a ≤ i := by
    obtain rfl | hopens := seg.opens
    · exact Nat.zero_le i
    · by_contra hlt
      exact hroll a (Nat.not_le.mp hlt) haj hopens
  have hreached : ReachedIn H s (eventsIn stream a (j + 1)) := by
    have hown : 50 ≤ (eventsIn stream a (j + 1)).countP (isSynOf s) :=
      h.fifty.trans (((slice_suffix stream hai (j + 1)).sublist.map Prod.snd).countP_le)
    rw [eventsIn_succ haj h.last] at hown ⊢
    exact reachedIn_concat.mpr (.inr ⟨h.syn, crowded_of_own hown⟩)
  -- the first position by which the cells have been found full
  classical
  have hex : ∃ c, a ≤ c ∧ ReachedIn H s (eventsIn stream a c) := ⟨j + 1, by omega, hreached⟩
  obtain ⟨c, ⟨hac, hfirst⟩, hmin⟩ : ∃ c, (a ≤ c ∧ ReachedIn H s (eventsIn stream a c)) ∧
      ∀ m < c, ¬ (a ≤ m ∧ ReachedIn H s (eventsIn stream a m)) :=
    ⟨Nat.find hex, Nat.find_spec hex, fun m => Nat.find_min hex⟩
  have hne : c ≠ a := by
    rintro rfl
    rw [eventsIn, slice_self] at hfirst
    exact not_reachedIn_nil hfirst
  obtain ⟨k, rfl⟩ : ∃ k, c = k + 1 := ⟨c - 1, by omega⟩
  have hkj : k ≤ j := by
    by_contra hlt
    exact hmin (j + 1) (by omega) ⟨by omega, hreached⟩
  exact ⟨a, k, by omega, hkj, seg, a, by omega, seg.take (by omega) (by omega), hfirst,
    fun hr => hmin k (Nat.lt_succ_self k) ⟨by omega, hr⟩⟩

/-- The answers to a burst: an alert from one window before its last event up to
that event is where the cells of the source are found full for the first time in
a window, and there is one unless the window is rolled during the burst. -/
theorem flood_within_window_iff (F : Type) [Float64 F] (H : Hasher) (window t₀ : Nat)
    (stream : List (Nat × NetworkEvent)) (hmono : (t₀ :: stream.map Prod.fst).Pairwise (· ≤ ·))
    {s : UInt32} {i j : Nat}
    {x y : Nat × NetworkEvent} (h : Burst window stream s i j x y) :
    ((∃ k z, stream[k]? = some z ∧ y.1 - window ≤ z.1 ∧ z.1 ≤ y.1 ∧
        FloodAlertAt F H window t₀ stream s k) ↔
      ∃ k z, stream[k]? = some z ∧ y.1 - window ≤ z.1 ∧ z.1 ≤ y.1 ∧
        FillsAt F H window t₀ stream s k) ∧
    ((∀ k, i < k → k ≤ j → ¬ (windowed F H window t₀).RollsAt stream k) →
      ∃ k z, stream[k]? = some z ∧ y.1 - window ≤ z.1 ∧ z.1 ≤ y.1 ∧
        FillsAt F H window t₀ stream s k) := by
  constructor
  · refine exists_congr fun k => exists_congr fun z => and_congr_right fun hz => ?_
    rw [floodAlertAt_iff (List.getElem?_eq_some_iff.mp hz).1]
  · intro hroll
    obtain ⟨a, k, hak, hkj, seg, hfills⟩ := h.fills hroll
    have hj : j < stream.length := (List.getElem?_eq_some_iff.mp h.last).1
    have hk : k < stream.length := Nat.lt_of_le_of_lt hkj hj
    have hz : stream[k]? = some stream[k] := List.getElem?_eq_getElem hk
    refine ⟨k, stream[k], hz, ?_, instant_le (List.pairwise_cons.mp hmono).2 hkj hz h.last, hfills⟩
    obtain rfl | hlt := Nat.eq_or_lt_of_le hkj
    · obtain rfl : stream[k] = y := Option.some.inj (hz.symm.trans h.last)
      exact Nat.sub_le _ _
    · have hnear : y.1 - stream[k].1 < window :=
        seg.within hmono hak hlt (Nat.lt_succ_self j) hz h.last
      omega

end Window

/-- Sixty SYNs at once. -/
theorem flood_within_window_iff_burst :
    ∃ k z, (List.replicate 60 (0, synEvent 42))[k]? = some z ∧ 0 ≤ z.1 ∧
    z.1 ≤ 0 ∧ FloodAlertAt ℝ constantHasher 1 0 (List.replicate 60 (0, synEvent 42)) 42 k := by
  have seg : (windowed ℝ constantHasher 1 0).Segment (List.replicate 60 (0, synEvent 42)) 0 60 :=
    segment_of_early fun x hx => by
      rw [List.eq_of_mem_replicate hx]
      exact Nat.one_pos
  have hburst : Burst 1 (List.replicate 60 (0, synEvent 42)) 42 0 59 (0, synEvent 42)
      (0, synEvent 42) :=
    ⟨rfl, rfl, by decide, by decide, by decide, by decide⟩
  have hall := flood_within_window_iff ℝ constantHasher 1 0 _ (by decide) hburst
  exact hall.1.mpr (hall.2 fun k hk hk' => seg.quiet k hk (by omega))

/-- Forty-nine SYNs at 4.9 s and as many at 5 s, when the window is rolled. -/
def dividedBurst : List (Nat × NetworkEvent) :=
  List.replicate 49 (4900000000, synEvent 42) ++ List.replicate 49 (5000000000, synEvent 42)

theorem rollsAt_dividedBurst : (windowed ℝ fxWord 5000000000 0).RollsAt dividedBurst 49 := by
  refine ⟨(5000000000, synEvent 42), rfl, ?_⟩
  have hstart : (windowed ℝ fxWord 5000000000 0).start
      ((windowed ℝ fxWord 5000000000 0).before dividedBurst 49) = 0 := by
    refine start_of_early (by decide) fun x hx => ?_
    have hx' : x ∈ List.replicate 49 (4900000000, synEvent 42) := hx
    rw [List.eq_of_mem_replicate hx']
    decide
  rw [Windowed.due, hstart, window_before]
  decide

/-- No window has fifty SYNs. -/
theorem not_fillsAt_dividedBurst (k : Nat) : ¬ FillsAt ℝ fxWord 5000000000 0 dividedBurst 42 k := by
  rintro ⟨a, hak, seg, hreached, -⟩
  have hlen : (eventsIn dividedBurst a (k + 1)).length = k + 1 - a := by
    rw [eventsIn, List.length_map, length_slice seg.bound]
  have htotal := hreached.total_ge.trans List.countP_le_length
  have hbound : k + 1 ≤ 98 := seg.bound
  have hroll : ¬ (a < 49 ∧ 49 < k + 1) := fun h => seg.quiet 49 h.1 h.2 rollsAt_dividedBurst
  omega

theorem divided_burst_unnoticed :
    ¬ ∀ stream : List (Nat × NetworkEvent), (0 :: stream.map Prod.fst).Pairwise (· ≤ ·) →
    ∀ s i j x y, Burst 5000000000 stream s i j x y →
      ∃ k z, stream[k]? = some z ∧ y.1 - 5000000000 ≤ z.1 ∧ z.1 ≤ y.1 ∧
      FloodAlertAt ℝ fxWord 5000000000 0 stream s k := by
  intro hall
  have hburst : Burst 5000000000 dividedBurst 42 0 97 (4900000000, synEvent 42)
      (5000000000, synEvent 42) :=
    ⟨rfl, rfl, by decide, by decide, by decide, by decide +kernel⟩
  obtain ⟨k, z, hz, -, -, halert⟩ := hall dividedBurst (by decide +kernel) 42 0 97 _ _ hburst
  exact not_fillsAt_dividedBurst k
    ((floodAlertAt_iff (List.getElem?_eq_some_iff.mp hz).1).mp halert)

end ThreatEngine.Detection
