import ThreatEngine.Detection.CepSharding
import ThreatEngine.Detection.KnownBad
import ThreatEngine.Detection.PortScan
import ThreatEngine.Pipeline.AlertIdentity
import ThreatEngine.Pipeline.Engines
import ThreatEngine.Pipeline.Sequential

/-! No false alarms, whatever the other sources send: a source that sends no SYN
without ACK and no known-bad payload, and touches fewer than twenty-five of the
buckets of its port counter, is not the source of any alert. -/
namespace ThreatEngine.Pipeline
open Queue Detection WindowedAnomalyDetector
variable {n : Nat} {find : OverlappingSearch} {H : Hasher}

/-- Nothing that a detector looks for in one event. -/
structure Harmless (event : NetworkEvent) : Prop where
  no_syn : event.isSyn = false
  no_pattern : ∀ p ∈ SignatureDetector.withDefaultRules.patterns, ¬ p <:+: event.payloadSample
  no_marker : ¬ Utf8.ascii "passwd" <:+: event.payloadSample

/-- What the detectors of a worker hold about a source that has touched only the buckets `B`. -/
structure Calm (ip : UInt32) (B : Finset Nat) (d : Engines ℝ) : Prop where
  patterns : d.signature.patterns = SignatureDetector.withDefaultRules.patterns
  rules : d.cep.rules = CepEngine.withDefaultRules.rules
  threshold : d.anomaly.portScanThreshold = 25.0
  bits : (d.anomaly.ports ip).bucketBits = 10
  buckets : ∀ i, (d.anomaly.ports ip).buckets.getD i 0 ≠ 0 → i ∈ B

section Steps
variable {ip : UInt32} {B : Finset Nat} {d : Engines ℝ} {event : NetworkEvent}

theorem buckets_fresh (a : WindowedAnomalyDetector ℝ) (h : a.portCardinality = fun _ => none)
    (ip : UInt32) : (a.ports ip).bucketBits = 10 ∧ ∀ i, (a.ports ip).buckets.getD i 0 = 0 := by
  have hnew : a.ports ip = HyperLogLog.new 10 (by decide) := by
    rw [ports, h]
    rfl
  rw [hnew]
  exact ⟨rfl, HyperLogLog.buckets_new 10 (by decide)⟩

theorem calm_fresh (H : Hasher) (find : OverlappingSearch) (ip : UInt32) (B : Finset Nat) :
    Calm ip B (engines ℝ H find).fresh where
  patterns := rfl
  rules := rfl
  threshold := rfl
  bits := rfl
  buckets i hi := absurd ((buckets_fresh _ rfl ip).2 i) hi

/-- A counter that has only buckets of `B` is below the threshold. -/
theorem occupied_lt {s : HyperLogLog} (h : ∀ i, s.buckets.getD i 0 ≠ 0 → i ∈ B) (hB : B.card < 25) :
    s.occupied < 25 := by
  have hcard : s.occupied = (B.filter fun i => s.buckets.getD i 0 ≠ 0).card :=
    HyperLogLog.occupied_eq_card fun i => by
      rw [Finset.mem_filter]
      exact ⟨fun hi => ⟨h i hi, hi⟩, And.right⟩
  rw [hcard]
  exact (Finset.card_le_card (Finset.filter_subset _ B)).trans_lt hB

/-- Every alert is about the source of the event that it is raised on. -/
theorem srcIp_of_detect (kind : DetectorKind) (now : Nat) (d : Engines ℝ) :
    ∀ a ∈ ((engines ℝ H find).detect kind now event d).2, a.srcIp = ipToString event.srcIp := by
  intro a ha
  cases kind with
  | signature =>
    obtain ⟨_, _, _, rfl⟩ := mem_signatureAlerts ha
    rfl
  | anomaly =>
    have ha' : a ∈ ((d.anomaly.maybeRollWindow now).inspect H event).2 := ha
    rw [inspect_eq] at ha'
    obtain ha' | ha' := List.mem_append.mp ha'
    · exact (mem_raised ha').1 ▸ rfl
    · exact (mem_raised ha').1 ▸ rfl
  | cep => exact srcIp_of_mem_process ha

/-- The anomaly detector after an event that touches no bucket outside `B` for the source. -/
theorem Calm.observe (h : Calm ip B d) (now : Nat) (hevent : event.srcIp = ip → portBucket H event ∈ B) :
    let a := (d.anomaly.observe H now event).1
    a.portScanThreshold = 25.0 ∧ (a.ports ip).bucketBits = 10 ∧
      ∀ i, (a.ports ip).buckets.getD i 0 ≠ 0 → i ∈ B := by
  have hroll : (d.anomaly.maybeRollWindow now).portScanThreshold = 25.0 ∧
      ((d.anomaly.maybeRollWindow now).ports ip).bucketBits = 10 ∧
      ∀ i, ((d.anomaly.maybeRollWindow now).ports ip).buckets.getD i 0 ≠ 0 → i ∈ B := by
    unfold maybeRollWindow
    split
    · obtain ⟨hbits, hzero⟩ := buckets_fresh (d.anomaly.restart now) rfl ip
      exact ⟨h.threshold, hbits, fun i hi => absurd (hzero i) hi⟩
    · exact ⟨h.threshold, h.bits, h.buckets⟩
  obtain ⟨hthreshold, hbits, hbuckets⟩ := hroll
  simp only [WindowedAnomalyDetector.observe]
  refine ⟨(threshold_inspect _ event).trans hthreshold, ?_, fun i => ?_⟩
  · rw [ports_inspect]
    split
    · next hs => rw [HyperLogLog.add_bucketBits, ← hs, hbits]
    · exact hbits
  · rw [ports_inspect]
    split
    · next hs =>
      rw [HyperLogLog.touched_add, ← hs, hbits]
      rintro (hi | hi)
      · exact hbuckets i hi
      · exact hi ▸ hevent hs.symm
    · exact hbuckets i

theorem nonempty_of_mem_patterns : ∀ p ∈ SignatureDetector.withDefaultRules.patterns, p ≠ [] := by
  decide

/-- The step lemma: a question about an event that is harmless, or of another source, keeps the
detectors calm and raises nothing about the source. -/
theorem Calm.detect (hfind : find.Complete) (hB : B.card < 25) (h : Calm ip B d)
    (x : DetectorKind × Nat × NetworkEvent)
    (hx : x.2.2.srcIp = ip → Harmless x.2.2 ∧ portBucket H x.2.2 ∈ B) :
    Calm ip B ((engines ℝ H find).machine.step d x).1 ∧
      ∀ a ∈ ((engines ℝ H find).machine.step d x).2, a.srcIp ≠ ipToString ip := by
  obtain ⟨kind, now, event⟩ := x
  have hobserve := h.observe (H := H) now fun hs => (hx hs).2
  constructor
  · cases kind with
    | signature => exact ⟨h.patterns, h.rules, h.threshold, h.bits, h.buckets⟩
    | anomaly => exact ⟨h.patterns, h.rules, hobserve.1, hobserve.2.1, hobserve.2.2⟩
    | cep => exact ⟨h.patterns, h.rules, h.threshold, h.bits, h.buckets⟩
  · intro a ha hsrc
    have hevent : event.srcIp = ip :=
      ipToString_inj.mp ((srcIp_of_detect kind now d a ha).symm.trans hsrc)
    obtain ⟨hharmless, hbucket⟩ := hx hevent
    obtain ⟨-, -, hfire⟩ := (detect_issued find d event H kind now).marked a ha
    cases kind with
    | signature =>
      obtain ⟨idx, hidx, -⟩ := hfire
      have hmem : d.signature.patterns.get idx ∈ SignatureDetector.withDefaultRules.patterns :=
        h.patterns ▸ List.get_mem d.signature.patterns idx
      have hne : d.signature.patterns.get idx ≠ [] := nonempty_of_mem_patterns _ hmem
      exact hharmless.no_pattern _ hmem ((mem_matched_iff hfind hne).mp hidx)
    | anomaly =>
      have ha' : a ∈ ((d.anomaly.maybeRollWindow now).inspect H event).2 := ha
      rw [inspect_eq] at ha'
      obtain ha' | ha' := List.mem_append.mp ha'
      · have hsyn := floodReached_isSyn (mem_raised ha').2.1
        rw [hharmless.no_syn] at hsyn
        cases hsyn
      · have hreached := (mem_raised ha').2.1
        obtain ⟨hthreshold, hbits, hbuckets⟩ := hobserve
        simp only [WindowedAnomalyDetector.observe] at hthreshold hbits hbuckets
        have hports := ports_inspect H (d.anomaly.maybeRollWindow now) event event.srcIp
        rw [if_pos rfl] at hports
        rw [threshold_inspect] at hthreshold
        rw [scanReached, hthreshold, ← hports, hevent] at hreached
        have hocc := (HyperLogLog.threshold_iff hbits).mp (of_decide_eq_true hreached)
        exact absurd hocc (Nat.not_le.mpr (occupied_lt hbuckets hB))
    | cep =>
      obtain ⟨r, hr, -, hexpects⟩ := hfire
      rw [h.rules] at hr
      obtain rfl : r = probeRule := List.mem_singleton.mp hr
      exact hharmless.no_marker ((hasSignaturePayload_iff event).mp hexpects)

end Steps

section Runs
variable [NeZero n] {k : Nat} {ip : UInt32}

/-- What a worker has been asked about has been generated. -/
theorem Served.asked_generated {D : Detectors (Engines ℝ)} {s : State n (Engines ℝ)}
    {log : List (Fin n × Entry)} (h : Served D s log) (hbooks : Books k s) {w : Fin n}
    {x : DetectorKind × Nat × NetworkEvent} (hx : x ∈ askedIn (entriesOf w log)) :
    x.2.2 ∈ s.generated := by
  have hasked : (x.1, x.2.2) ∈ (handledIn (entriesOf w log)).flatMap questions :=
    (h.ledger w).asked ▸ List.mem_append_left _ (List.mem_map.mpr ⟨x, hx, rfl⟩)
  obtain ⟨event, hevent, hq⟩ := List.mem_flatMap.mp hasked
  have hsame : x.2.2 = event := by
    simp only [questions, List.mem_cons, Prod.mk.injEq, List.not_mem_nil, or_false] at hq
    tauto
  have hpopped : event ∈ s.poppedBy w := h.handled w ▸ List.mem_append_left _ hevent
  obtain ⟨o, ho, he⟩ := List.mem_map.mp (List.mem_of_mem_take hpopped)
  rw [hsame, hbooks.labelled]
  exact List.mem_append_left _ (List.mem_map.mpr ⟨o, (List.mem_filter.mp ho).1, he⟩)

/-- Detectors that are asked about nothing but harmless events of a source raise nothing about it. -/
theorem outputs_of_harmless (hfind : find.Complete) {B : Finset Nat} (hB : B.card < 25)
    {asked : List (DetectorKind × Nat × NetworkEvent)}
    (h : ∀ x ∈ asked, x.2.2.srcIp = ip → Harmless x.2.2 ∧ portBucket H x.2.2 ∈ B) :
    ∀ answer ∈ (engines ℝ H find).machine.outputs (engines ℝ H find).fresh asked,
      ∀ a ∈ answer, a.srcIp ≠ ipToString ip :=
  Mealy.outputs_of_inputs (P := Calm ip B) (fun _ x hd hx => hd.detect hfind hB x hx)
    (calm_fresh H find ip B) h

omit [NeZero n] in
/-- The worker that has recorded an alert. -/
theorem mem_recordedIn {log : List (Fin n × Entry)} {a : Alert} (ha : a ∈ recordedIn (log.map Prod.snd)) :
    ∃ w, a ∈ recordedIn (entriesOf w log) := by
  obtain ⟨e, he, hrec⟩ := List.mem_filterMap.mp ha
  obtain ⟨y, hy, rfl⟩ := List.mem_map.mp he
  have hentry : y.2 ∈ entriesOf y.1 log :=
    List.mem_map.mpr ⟨y, List.mem_filter.mpr ⟨hy, decide_eq_true rfl⟩, rfl⟩
  exact ⟨y.1, List.mem_filterMap.mpr ⟨y.2, hentry, hrec⟩⟩

omit [NeZero n] in
theorem exists_asked (d : Engines ℝ) {asked : List (DetectorKind × Nat × NetworkEvent)} {a : Alert}
    (ha : a ∈ ((engines ℝ H find).machine.outputs d asked).flatten) :
    ∃ x ∈ asked, a.srcIp = ipToString x.2.2.srcIp := by
  induction asked generalizing d with
  | nil => cases ha
  | cons x asked ih =>
    obtain ha | ha := List.mem_append.mp ha
    · exact ⟨x, List.mem_cons_self, srcIp_of_detect x.1 x.2.1 d a ha⟩
    · obtain ⟨y, hy, hs⟩ := ih _ ha
      exact ⟨y, List.mem_cons_of_mem x hy, hs⟩

variable {x : State n (Engines ℝ) × List (Fin n × Entry)}

/-- The worker that has raised a recorded alert, and what it has been asked. -/
theorem raised_of_recorded (hk : 1 ≤ k) (hr : ((pipeline n (engines ℝ H find) k).logged entries).Reachable x)
    {a : Alert} (ha : a ∈ recordedIn (x.2.map Prod.snd)) :
    ∃ w, a ∈ ((engines ℝ H find).machine.outputs (engines ℝ H find).fresh
        (askedIn (entriesOf w x.2))).flatten ∧
      ∀ y ∈ askedIn (entriesOf w x.2), y.2.2 ∈ x.1.generated := by
  have hserved := served_of_reachable hk hr
  have hbooks := books_of_reachable hk hr.of_logged
  obtain ⟨w, hworker⟩ := mem_recordedIn ha
  refine ⟨w, ?_, fun y hy => hserved.asked_generated hbooks hy⟩
  exact (hserved.ledger w).raised ▸ List.mem_append_left _ hworker

/-- A source that sends nothing but harmless events to few ports gets no alert. -/
theorem no_alert_of_harmless (hk : 1 ≤ k) (hfind : find.Complete)
    (hr : ((pipeline n (engines ℝ H find) k).logged entries).Reachable x)
    (hharmless : ∀ event ∈ x.1.generated, event.srcIp = ip → Harmless event)
    (hports : (portBuckets H ip x.1.generated).card < 25) :
    ∀ a ∈ recordedIn (x.2.map Prod.snd), a.srcIp ≠ ipToString ip := by
  intro a ha
  obtain ⟨w, hraised, hgenerated⟩ := raised_of_recorded hk hr ha
  obtain ⟨answer, hanswer, hmem⟩ := List.mem_flatten.mp hraised
  refine outputs_of_harmless hfind hports (fun y hy hs => ?_) answer hanswer a hmem
  exact ⟨hharmless _ (hgenerated y hy) hs, mem_portBuckets.mpr ⟨_, hgenerated y hy, hs, rfl⟩⟩

/-- Every alert ever recorded is about a source that has sent an event which is not harmless, or
has touched twenty-five buckets. -/
theorem alert_has_cause (hk : 1 ≤ k) (hfind : find.Complete) {run : List (Action n)}
    (h : ((pipeline n (engines ℝ H find) k).logged entries).exec
      ((pipeline n (engines ℝ H find) k).logged entries).init run = some x) :
    ∀ a ∈ recordedIn (x.2.map Prod.snd), ∃ ip, a.srcIp = ipToString ip ∧
      ((∃ event ∈ x.1.generated, event.srcIp = ip ∧ ¬ Harmless event) ∨
        25 ≤ (portBuckets H ip x.1.generated).card) := by
  intro a ha
  obtain ⟨w, hraised, -⟩ := raised_of_recorded hk ⟨run, h⟩ ha
  obtain ⟨y, -, hsrc⟩ := exists_asked _ hraised
  refine ⟨y.2.2.srcIp, hsrc, ?_⟩
  by_contra hnone
  push Not at hnone
  exact no_alert_of_harmless hk hfind ⟨run, h⟩ hnone.1 hnone.2 a ha hsrc

end Runs

/-- One worker records the alert of a signature. -/
theorem alert_has_cause_oneRecord :
    let x := (((pipeline 1 (engines ℝ fxWord findByEnd) 1).logged entries).exec
      ((pipeline 1 (engines ℝ fxWord findByEnd) 1).logged entries).init oneRecord).get
        (by decide +kernel)
    ∀ a ∈ recordedIn (x.2.map Prod.snd), ∃ ip, a.srcIp = ipToString ip ∧
      ((∃ event ∈ x.1.generated, event.srcIp = ip ∧ ¬ Harmless event) ∨
        25 ≤ (portBuckets fxWord ip x.1.generated).card) :=
  alert_has_cause le_rfl findByEnd_complete (Option.some_get _).symm

end ThreatEngine.Pipeline
