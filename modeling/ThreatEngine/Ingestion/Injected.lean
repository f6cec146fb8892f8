import ThreatEngine.Detection.PortEvasion
import ThreatEngine.Detection.SynFlood
import ThreatEngine.Ingestion.Simulated
import ThreatEngine.Pipeline.Correlation

/-! What the simulator injects can be found: whatever the host does, each of the four
attacks raises its alert on the detector that it is meant for, in every stream in which
the detector sees it soon enough. -/
namespace ThreatEngine.Ingestion
open Pipeline Detection Tumbling
variable {σ : Type}

/-- What is assumed of FxHash for the two bytes of a port. -/
structure FxPorts (bigEndian : Bool) (H : Hasher) : Prop where
  plain : ∀ key, key.length = 2 → H.plain key = fxAbsorb (fxAbsorb 0 2) (nativeWord bigEndian key)

/-- A burst of one source of which no window sees the whole without an alert. -/
structure Loud (H : Hasher) (rule : String) (ip : UInt32) (burst : List NetworkEvent) : Prop where
  source : ∀ event ∈ burst, event.srcIp = ip
  heard : ∀ window t₀ stream a b, (windowed ℝ H window t₀).Segment stream a b →
    burst.Sublist ((slice stream a b).map Prod.snd) →
      alertsOf rule ip (slice (observed ℝ H window t₀ stream) a b) ≠ []

/-- An event on which every scan raises the alert for "/etc/passwd". -/
def Noticed (event : NetworkEvent) : Prop :=
  ∀ find : OverlappingSearch, find.Complete → ∀ (stream : List (Nat × NetworkEvent)) (t : Nat),
    (t, event) ∈ stream → ∃ id, SignatureDetector.withDefaultRules.alert event id ⟨0, by decide⟩ ∈
      ((signatureMachine find).outputs (signatureMachine find).init stream).flatten

/-- A probe and an exploit of one source that are correlated whenever they are seen within 5 s. -/
structure Telling (ip : UInt32) (probe exploit : NetworkEvent) : Prop where
  source : probe.srcIp = ip ∧ exploit.srcIp = ip
  heard : ∀ (stream : List (Nat × NetworkEvent)) (i j t t' : Nat),
    (stream.map Prod.fst).Pairwise (· ≤ ·) → i < j → stream[i]? = some (t, probe) →
      stream[j]? = some (t', exploit) → t' - t ≤ 5000000000 → Correlated stream ip i j

/-- The batch of a tick has the attacks that are due, and each of them can be found. -/
structure Detectable (H : Hasher) (tick : UInt64) (batch : List NetworkEvent) : Prop where
  flood : tick % 500 = 0 → ∃ ip burst, burst <:+: batch ∧ Loud H "syn-flood-anomaly" ip burst
  bad : tick % 733 = 0 → ∃ event ∈ batch, Noticed event
  exploit : tick % 900 = 0 → ∃ ip probe exploit, [probe, exploit] <:+: batch ∧ Telling ip probe exploit
  scan : tick % 611 = 0 → ∃ ip burst, burst <:+: batch ∧ Loud H "port-scan-anomaly" ip burst

section Bursts
variable {α β γ : Type} {host : Host σ} {H : Hasher} {bigEndian : Bool} {ip : UInt32}
  {burst : List NetworkEvent}

theorem Always.imp {m : StateM σ α} {P Q : α → Prop} (h : Always m P) (hPQ : ∀ a, P a → Q a) :
    Always m Q :=
  fun w => hPQ _ (h w)

/-- What is always so of every result of a loop, in order. -/
theorem always_mapM_map {f : α → StateM σ β} {g : β → γ} {g' : α → γ} {as : List α}
    (h : ∀ a ∈ as, Always (f a) fun b => g b = g' a) :
    Always (as.mapM f) fun bs => bs.map g = as.map g' := by
  induction as with
  | nil => exact .pure rfl
  | cons a as ih =>
    rw [List.mapM_cons]
    refine (h a List.mem_cons_self).bind fun b hb =>
      (ih fun a' ha' => h a' (List.mem_cons_of_mem a ha')).bind fun bs hbs => .pure ?_
    rw [List.map_cons, List.map_cons, hb, hbs]

theorem always_of_every {P : List NetworkEvent → Prop} {m : StateM σ (List NetworkEvent)}
    (h : Always m P) (period tick : UInt64) :
    Always (every period tick m) fun events => tick % period = 0 → P events := by
  unfold every
  split
  · exact h.imp fun events hevents _ => hevents
  · next hnot => exact .pure fun hdue => absurd hdue hnot

/-- What an attack fixes of its events. -/
def fields (event : NetworkEvent) : UInt32 × UInt16 × UInt8 × List UInt8 :=
  (event.srcIp, event.dstPort, event.flags, event.payloadSample)

theorem attackEvent_fields (host : Host σ) (srcIp : UInt32) (dstPort : UInt16) (flags : UInt8)
    (payload : List UInt8) : Always (host.attackEvent srcIp dstPort flags payload) fun event =>
      fields event = (srcIp, dstPort, flags, payload) :=
  (always_true _).bind fun _ _ => (always_true _).bind fun _ _ => .pure rfl

theorem mem_of_fields {events : List NetworkEvent} {event : NetworkEvent} {l : List α}
    {g : α → UInt32 × UInt16 × UInt8 × List UInt8} (h : events.map fields = l.map g)
    (hm : event ∈ events) : ∃ a ∈ l, g a = fields event :=
  List.mem_map.mp (h ▸ List.mem_map_of_mem hm)

/-- More than fifty SYNs of one source. -/
theorem loud_of_syns (hlen : 50 ≤ burst.length) (h : ∀ event ∈ burst, isSynOf ip event = true) :
    Loud H "syn-flood-anomaly" ip burst where
  source event hm := eq_of_beq (Bool.and_eq_true_iff.mp (h event hm)).2
  heard window t₀ stream a b seg hsub := by
    refine alerted_of_syns seg ?_
    calc 50 ≤ burst.length := hlen
      _ = burst.countP (isSynOf ip) := (List.countP_eq_length.mpr h).symm
      _ ≤ _ := hsub.countP_le

theorem isSynOf_of_fields {event : NetworkEvent} {port : UInt16} {payload : List UInt8}
    (h : (ip, port, (1 : UInt8), payload) = fields event) : isSynOf ip event = true := by
  obtain ⟨hip, -, hflags, -⟩ : _ ∧ _ ∧ _ ∧ _ := by simpa only [fields, Prod.mk.injEq] using h
  rw [isSynOf, NetworkEvent.isSyn, ← hflags, ← hip, beq_self_eq_true]
  rfl

theorem loud_floodBurst (H : Hasher) (host : Host σ) :
    Always host.floodBurst fun events => ∃ ip, Loud H "syn-flood-anomaly" ip events := by
  refine (always_true _).bind fun attacker _ => ?_
  have hfields : Always (repeated 80 (host.attackEvent attacker 80 1 [])) fun events =>
      events.map fields = (List.replicate 80 (host.attackEvent attacker 80 1 [])).map
        fun _ => (attacker, 80, 1, []) :=
    always_mapM_map fun event hm => List.eq_of_mem_replicate hm ▸ attackEvent_fields host attacker 80 1 []
  refine hfields.imp fun events hevents => ⟨attacker, loud_of_syns ?_ fun event hm => ?_⟩
  · have hlen := congrArg List.length hevents
    rw [List.length_map, List.length_map, List.length_replicate] at hlen
    omega
  · obtain ⟨_, -, hfield⟩ := mem_of_fields hevents hm
    exact isSynOf_of_fields hfield

/-- The buckets of the ports that the simulator scans. -/
def scannedBuckets (bigEndian : Bool) : Finset Nat :=
  (scannedPorts.map fun port => bucketOf 10
    (fxAbsorb (fxAbsorb 0 2) (nativeWord bigEndian (WindowedAnomalyDetector.portBytes port)))).toFinset

theorem card_scannedBuckets : ∀ bigEndian, (scannedBuckets bigEndian).card = 38
  | false => by decide +kernel
  | true => by decide +kernel

theorem portBuckets_of_scan (hH : FxPorts bigEndian H) (hsrc : ∀ event ∈ burst, event.srcIp = ip)
    (hports : burst.map NetworkEvent.dstPort = scannedPorts) :
    portBuckets H ip burst = scannedBuckets bigEndian := by
  have hevents : eventsOf ip burst = burst :=
    List.filter_eq_self.mpr fun event hm => beq_iff_eq.mpr (hsrc event hm)
  have hport (event : NetworkEvent) : H.plain (WindowedAnomalyDetector.portBytes event.dstPort) = _ :=
    hH.plain _ rfl
  rw [portBuckets, hevents, scannedBuckets, ← hports, List.map_map]
  refine congrArg List.toFinset (List.map_congr_left fun event _ => ?_)
  rw [portBucket, hport, Function.comp]

theorem loud_portScan (hH : FxPorts bigEndian H) (host : Host σ) :
    Always host.portScan fun events => ∃ ip, Loud H "port-scan-anomaly" ip events := by
  refine (always_true _).bind fun scanner _ => ?_
  have hfields : Always (scannedPorts.mapM fun port => host.attackEvent scanner port 1 []) fun events =>
      events.map fields = scannedPorts.map fun port => (scanner, port, 1, []) :=
    always_mapM_map fun port _ => attackEvent_fields host scanner port 1 []
  refine hfields.imp fun events hevents => ?_
  have hsrc : ∀ event ∈ events, event.srcIp = scanner := fun event hm => by
    obtain ⟨_, -, hfield⟩ := mem_of_fields hevents hm
    exact (congrArg Prod.fst hfield).symm
  have hports : events.map NetworkEvent.dstPort = scannedPorts := by
    have hsecond := congrArg (List.map fun x : UInt32 × UInt16 × UInt8 × List UInt8 => x.2.1) hevents
    rw [List.map_map, List.map_map] at hsecond
    exact hsecond.trans (List.map_id _)
  refine ⟨scanner, hsrc, fun window t₀ stream a b seg hsub => (scanned_iff seg scanner).mpr ?_⟩
  calc 25 ≤ (portBuckets H scanner events).card := by
        rw [portBuckets_of_scan hH hsrc hports, card_scannedBuckets]
        decide
    _ ≤ _ := Finset.card_le_card (portBuckets_subset hsub.subset)

end Bursts

section Requests
variable {host : Host σ}

theorem badPayload_patterns :
    SignatureDetector.withDefaultRules.patterns.get ⟨0, by decide⟩ <:+: badPayload ∧
      Utf8.ascii "passwd" <:+: badPayload := by decide

theorem noticed_of_payload {event : NetworkEvent} (h : event.payloadSample = badPayload) : Noticed event :=
  fun _ hfind _ _ hm => alert_mem_answers hfind hm (h ▸ badPayload_patterns.1)

theorem noticed_badRequest (host : Host σ) :
    Always host.badRequest fun events => ∃ event ∈ events, Noticed event :=
  (always_true _).bind fun _ _ => .pure ⟨_, List.mem_singleton_self _, noticed_of_payload rfl⟩

theorem telling_of_fields {ip : UInt32} {probe exploit : NetworkEvent} {port port' : UInt16}
    {flags : UInt8} (hprobe : fields probe = (ip, port, 1, []))
    (hexploit : fields exploit = (ip, port', flags, badPayload)) : Telling ip probe exploit := by
  obtain ⟨hsyn, hsrc⟩ := Bool.and_eq_true_iff.mp (isSynOf_of_fields hprobe.symm)
  have hsrc' : exploit.srcIp = ip := congrArg Prod.fst hexploit
  have hpayload : exploit.payloadSample = badPayload := congrArg (fun x => x.2.2.2) hexploit
  refine ⟨⟨eq_of_beq hsrc, hsrc'⟩, fun stream i j t t' hmono hij hi hj hwin => ?_⟩
  obtain ⟨m, him, hmj, hfired⟩ := exists_firedFor hmono hij hi (eq_of_beq hsrc) hsyn hj hsrc'
    (hpayload ▸ badPayload_patterns.2) hwin
  obtain ⟨alerts, hout, habout⟩ := firedFor_iff_answer.mp hfired
  exact ⟨m, alerts, him, hmj, hout, habout⟩

theorem telling_probeThenExploit (host : Host σ) : Always host.probeThenExploit fun events =>
    ∃ ip probe exploit, events = [probe, exploit] ∧ Telling ip probe exploit :=
  (always_true _).bind fun prober _ => (attackEvent_fields host prober 80 1 []).bind fun _ hprobe =>
    (attackEvent_fields host prober 80 3 badPayload).bind fun _ hexploit =>
      .pure ⟨prober, _, _, rfl, telling_of_fields hprobe hexploit⟩

end Requests

/-- Every batch has the attacks that are due on its tick, and all of them can be found. -/
theorem injected_detectable {bigEndian : Bool} {H : Hasher} (hH : FxPorts bigEndian H) (host : Host σ)
    (sim : Simulator) : Always (host.nextBatch sim) fun r => Detectable H (sim.tick + 1) r.1 := by
  refine (always_true _).bind fun normalCount _ => (always_true _).bind fun normal _ =>
    (always_of_every (loud_floodBurst H host) _ _).bind fun flood hflood =>
    (always_of_every (noticed_badRequest host) _ _).bind fun bad hbad =>
    (always_of_every (telling_probeThenExploit host) _ _).bind fun exploit hexploit =>
    (always_of_every (loud_portScan hH host) _ _).bind fun scan hscan => .pure ⟨fun h => ?_, fun h => ?_,
      fun h => ?_, fun h => ?_⟩
  · obtain ⟨ip, hloud⟩ := hflood h
    exact ⟨ip, flood, ⟨normal, bad ++ exploit ++ scan, by simp⟩, hloud⟩
  · obtain ⟨event, hm, hnoticed⟩ := hbad h
    exact ⟨event, by simp [hm], hnoticed⟩
  · obtain ⟨ip, probe, exploited, rfl, htelling⟩ := hexploit h
    exact ⟨ip, probe, exploited, ⟨normal ++ flood ++ bad, scan, by simp⟩, htelling⟩
  · obtain ⟨ip, hloud⟩ := hscan h
    exact ⟨ip, scan, ⟨normal ++ flood ++ bad ++ exploit, [], by simp⟩, hloud⟩

theorem fxPorts_fxWord : FxPorts false fxWord where
  plain key hlen := by
    change fxAbsorb (fxAbsorb 0 key.length.toUInt64) _ = _
    rw [hlen]
    rfl

/-- The first tick on which all four attacks are due. -/
theorem injected_detectable_together :
    Detectable fxWord 2015383500 (stillHost.nextBatch ⟨2015383499⟩ ()).1.1 :=
  injected_detectable fxPorts_fxWord stillHost ⟨2015383499⟩ ()

end ThreatEngine.Ingestion
