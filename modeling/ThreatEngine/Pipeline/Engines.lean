import ThreatEngine.Detection.Anomaly
import ThreatEngine.Detection.CepRuns
import ThreatEngine.Detection.Signature
import ThreatEngine.Pipeline.Stages

/-! The three detectors that a worker owns. The alerts of each are numbered by a
counter of its own, whatever the other detectors and the other workers do. -/
namespace ThreatEngine.Pipeline
open Detection

structure Engines (F : Type) where
  signature : SignatureDetector
  anomaly : WindowedAnomalyDetector F
  cep : CepEngine

/-- A worker's instants are counted from the one at which it has made its detectors. -/
def engines (F : Type) [Float64 F] (H : Hasher) (find : OverlappingSearch) :
    Detectors (Engines F) where
  fresh := ⟨.withDefaultRules, .new F 5000000000 0, .withDefaultRules⟩
  detect
    | .signature, _, event, d =>
      let r := d.signature.scan event find
      ({ d with signature := r.1 }, r.2)
    | .anomaly, now, event, d =>
      let r := d.anomaly.observe H now event
      ({ d with anomaly := r.1 }, r.2)
    | .cep, now, event, d =>
      let r := d.cep.process now event
      ({ d with cep := r.1 }, r.2)

section Numbers

/-- The ids of the alerts count up from `id`. -/
def NumberedFrom (id : UInt64) (alerts : List Alert) : Prop :=
  alerts.map Alert.id = (List.range alerts.length).map fun i => id + i.toUInt64

variable {id : UInt64} {alerts : List Alert}

/-- Counting on by two steps. -/
theorem add_offset (id : UInt64) (i j : Nat) :
    id + (i + j).toUInt64 = id + i.toUInt64 + j.toUInt64 := by
  rw [UInt64.add_assoc]
  exact congrArg _ (UInt64.ofNat_add i j)

theorem numberedFrom_nil (id : UInt64) : NumberedFrom id [] := rfl

theorem numberedFrom_singleton {a : Alert} (h : a.id = id) : NumberedFrom id [a] := by
  simp [NumberedFrom, h]

theorem NumberedFrom.append (h : NumberedFrom id alerts) {alerts' : List Alert}
    (h' : NumberedFrom (id + alerts.length.toUInt64) alerts') :
    NumberedFrom id (alerts ++ alerts') := by
  unfold NumberedFrom at h h' ⊢
  rw [List.map_append, h, h', List.length_append, List.range_add, List.map_append, List.map_map]
  congr 1
  exact List.map_congr_left fun i _ => (add_offset id alerts.length i).symm

theorem NumberedFrom.cons {a : Alert} (ha : a.id = id) (h : NumberedFrom (id + 1) alerts) :
    NumberedFrom id (a :: alerts) := by
  exact (numberedFrom_singleton ha).append h

theorem toNat_offset (id : UInt64) {i : Nat} (hi : i < 2 ^ 64) :
    (id + i.toUInt64 - id).toNat = i := by
  rw [UInt64.add_comm, UInt64.add_sub_cancel]
  exact UInt64.toNat_ofNat_of_lt' hi

theorem NumberedFrom.offset_lt (h : NumberedFrom id alerts) (hlen : alerts.length ≤ 2 ^ 64)
    {a : Alert}
    (ha : a ∈ alerts) : (a.id - id).toNat < alerts.length := by
  have hid : a.id ∈ (List.range alerts.length).map fun i => id + i.toUInt64 :=
    h ▸ List.mem_map_of_mem ha
  obtain ⟨i, hi, he⟩ := List.mem_map.mp hid
  have hlt := List.mem_range.mp hi
  rw [← he, toNat_offset id (hlt.trans_le hlen)]
  exact hlt

theorem NumberedFrom.nodup (h : NumberedFrom id alerts) (hlen : alerts.length ≤ 2 ^ 64) :
    (alerts.map Alert.id).Nodup := by
  rw [h]
  refine List.Nodup.map_on (fun i hi j hj he => ?_) List.nodup_range
  have hi := (List.mem_range.mp hi).trans_le hlen
  have hj := (List.mem_range.mp hj).trans_le hlen
  rw [← toNat_offset id hi, he, toNat_offset id hj]

end Numbers

section Detectors
variable {event : NetworkEvent}

theorem numberedFrom_signature (d : SignatureDetector) (event : NetworkEvent) (id : UInt64)
    (found : List (Fin d.patterns.length)) : NumberedFrom id (d.alerts event id found) := by
  induction found generalizing id with
  | nil => exact numberedFrom_nil id
  | cons idx found ih => exact NumberedFrom.cons rfl (ih (id + 1))

theorem numberedFrom_rule (rule : CepRule) (event : NetworkEvent) (id : UInt64)
    (completed : List PartialMatch) :
    NumberedFrom id (rule.alerts event id completed) := by
  induction completed generalizing id with
  | nil => exact numberedFrom_nil id
  | cons p completed ih => exact NumberedFrom.cons rfl (ih (id + 1))

/-- The loop over the rules: the ids, the next id, at most one alert for a rule,
and only for one whose last step the event satisfies. -/
theorem processRules_numbered (now : Nat) (event : NetworkEvent) (rules : List CepRule)
    (active : List Partials)
    (id : UInt64) :
    NumberedFrom id (processRules now event rules active id).2.1.flatten ∧
    (processRules now event rules active id).2.2 =
      id + (processRules now event rules active id).2.1.flatten.length.toUInt64 ∧
    (processRules now event rules active id).2.1.flatten.length ≤ rules.length ∧
    ∀ a ∈ (processRules now event rules active id).2.1.flatten, ∃ rule ∈ rules, ∃ id',
      a = rule.alert event id' ∧
      rule.expects event (rule.steps.length - 1) = true := by
  induction rules generalizing active id with
  | nil => exact ⟨numberedFrom_nil id, (UInt64.add_zero id).symm, le_rfl, by simp [processRules]⟩
  | cons rule rules ih =>
    cases active with
    | nil =>
      exact ⟨numberedFrom_nil id, (UInt64.add_zero id).symm, Nat.zero_le _, by simp [processRules]⟩
    | cons partials active =>
      let tracked := rule.track now event ((partials event.srcIp).getD [])
      obtain ⟨hnumbered, hnext, hlen, hmem⟩ := ih active (id + tracked.2.length.toUInt64)
      have hfirst : (rule.alerts event id tracked.2).length = tracked.2.length :=
        length_alerts id tracked.2
      have hone : tracked.2.length ≤ 1 := length_track_le rule now event _
      simp only [processRules, List.flatten_cons]
      refine ⟨(numberedFrom_rule rule event id tracked.2).append (by rw [hfirst]; exact hnumbered),
        ?_, ?_, ?_⟩
      · rw [hnext, List.length_append, hfirst, add_offset]
      · rw [List.length_append, hfirst, List.length_cons, Nat.add_comm]
        exact Nat.add_le_add hlen hone
      · intro a ha
        obtain ha | ha := List.mem_append.mp ha
        · have hne : tracked.2 ≠ [] := fun hnil => by
            have hempty : a ∈ rule.alerts event id tracked.2 := ha
            rw [hnil] at hempty
            cases hempty
          obtain ⟨id', rfl⟩ := mem_alerts ha
          obtain ⟨n, hn, hexpects⟩ := expects_of_track hne
          refine ⟨rule, List.mem_cons_self, id', rfl, ?_⟩
          rwa [← hn, Nat.add_sub_cancel]
        · obtain ⟨r, hr, id', he⟩ := hmem a ha
          exact ⟨r, List.mem_cons_of_mem _ hr, id', he⟩

theorem numberedFrom_raiseOnce (alerted : Finset UInt32) (s : UInt32) (reached : Bool)
    {alert : Alert} {id : UInt64}
    (h : alert.id = id) : NumberedFrom id (raiseOnce alerted s reached alert).2 := by
  unfold raiseOnce
  split
  · exact numberedFrom_singleton h
  · exact numberedFrom_nil id

theorem length_raiseOnce_le (alerted : Finset UInt32) (s : UInt32) (reached : Bool)
    (alert : Alert) :
    (raiseOnce alerted s reached alert).2.length ≤ reached.toNat := by
  unfold raiseOnce
  split
  · next h => exact h.1 ▸ le_rfl
  · exact Nat.zero_le _

variable {F : Type} {H : Hasher}

/-- The anomaly detector's next id stays as it is when the window is rolled. -/
theorem nextId_maybeRollWindow (now : Nat) (d : WindowedAnomalyDetector F) :
    (d.maybeRollWindow now).nextId = d.nextId := by
  unfold WindowedAnomalyDetector.maybeRollWindow
  split <;> rfl

theorem floodReached_isSyn {d : WindowedAnomalyDetector F} (h : floodReached H d event = true) :
    event.isSyn = true :=
  (Bool.and_eq_true_iff.mp h).1

variable [Float64 F]

theorem inspect_numbered (d : WindowedAnomalyDetector F) (event : NetworkEvent) :
    NumberedFrom d.nextId (d.inspect H event).2 ∧
    (d.inspect H event).1.nextId = d.nextId + (d.inspect H event).2.length.toUInt64 ∧
    (d.inspect H event).2.length ≤ event.isSyn.toNat + 1 ∧
    ∀ a ∈ (d.inspect H event).2, a.detector = .anomaly ∧ a.timestampMs = event.timestampMs ∧
      (a.ruleName = "port-scan-anomaly" ∨ a.ruleName = "syn-flood-anomaly" ∧ event.isSyn = true) := by
  have hid : (d.countSyn H event).1.nextId = d.nextId + (flood H d event).2.length.toUInt64 := by
    rw [countSyn_eq]
  have hflood : (flood H d event).2.length ≤ event.isSyn.toNat := by
    refine (length_raiseOnce_le _ _ _ _).trans ?_
    cases h : floodReached H d event with
    | true => exact floodReached_isSyn h ▸ le_rfl
    | false => exact Nat.zero_le _
  have hscan : (scan H d event).2.length ≤ 1 :=
    (length_raiseOnce_le _ _ _ _).trans (Bool.toNat_le _)
  rw [inspect_eq]
  refine ⟨?_, ?_, ?_, fun a ha => ?_⟩
  · exact (numberedFrom_raiseOnce _ _ _ rfl).append (numberedFrom_raiseOnce _ _ _ hid)
  · rw [List.length_append, add_offset]
  · rw [List.length_append]
    exact Nat.add_le_add hflood hscan
  · obtain ha | ha := List.mem_append.mp ha
    · obtain ⟨rfl, hreached, -⟩ := mem_raised ha
      exact ⟨rfl, rfl, .inr ⟨rfl, floodReached_isSyn hreached⟩⟩
    · obtain ⟨rfl, -, -⟩ := mem_raised ha
      exact ⟨rfl, rfl, .inl rfl⟩

end Detectors

section Engines
variable {F : Type} (find : OverlappingSearch) (d : Engines F) (event : NetworkEvent)

/-- The id that the next alert of a detector gets. -/
def Engines.nextId : DetectorKind → UInt64
  | .signature => d.signature.nextId
  | .anomaly => d.anomaly.nextId
  | .cep => d.cep.nextId

/-- A bound on the alerts that the event makes a detector raise. -/
def Engines.atMost : DetectorKind → Nat
  | .signature => (d.signature.matched event find).length
  | .anomaly => event.isSyn.toNat + 1
  | .cep => d.cep.rules.length

/-- The rules that the event can make a detector raise an alert of. -/
def Engines.canFire (rule : String) : DetectorKind → Prop
  | .signature => ∃ idx ∈ d.signature.matched event find,
      d.signature.ruleNames.get (idx.cast d.signature.named) = rule
  | .anomaly => rule = "port-scan-anomaly" ∨ rule = "syn-flood-anomaly" ∧ event.isSyn = true
  | .cep => ∃ r ∈ d.cep.rules, r.name = rule ∧ r.expects event (r.steps.length - 1) = true

instance (rule : String) : (kind : DetectorKind) → Decidable (d.canFire find event rule kind)
  | .signature => inferInstanceAs (Decidable (∃ idx ∈ _, _))
  | .anomaly => inferInstanceAs (Decidable (_ ∨ _ ∧ _))
  | .cep => inferInstanceAs (Decidable (∃ r ∈ _, _))

/-- What a detector raises on an event. -/
structure Issued (kind : DetectorKind) (alerts : List Alert) : Prop where
  numbered : NumberedFrom (d.nextId kind) alerts
  length_le : alerts.length ≤ d.atMost find event kind
  marked : ∀ a ∈ alerts, a.detector = kind ∧ a.timestampMs = event.timestampMs ∧
    d.canFire find event a.ruleName kind

variable [Float64 F]

theorem detect_issued (H : Hasher) (kind : DetectorKind) (now : Nat) :
    Issued find d event kind ((engines F H find).detect kind now event d).2 := by
  cases kind with
  | signature =>
    refine ⟨numberedFrom_signature d.signature event _ _, length_signatureAlerts.le, fun a ha => ?_⟩
    obtain ⟨id, idx, hidx, rfl⟩ := mem_signatureAlerts ha
    exact ⟨rfl, rfl, idx, hidx, rfl⟩
  | anomaly =>
    obtain ⟨hnumbered, -, hlen, hmem⟩ := inspect_numbered (d.anomaly.maybeRollWindow now) event
    rw [nextId_maybeRollWindow] at hnumbered
    exact ⟨hnumbered, hlen, hmem⟩
  | cep =>
    obtain ⟨hnumbered, -, hlen, hmem⟩ :=
      processRules_numbered now event d.cep.rules d.cep.active d.cep.nextId
    refine ⟨hnumbered, hlen, fun a ha => ?_⟩
    obtain ⟨r, hr, id, rfl, hexpects⟩ := hmem a ha
    exact ⟨rfl, rfl, r, hr, rfl, hexpects⟩

/-- A detector counts the alerts that it raises, and no others. -/
theorem detect_nextId (find : OverlappingSearch) (d : Engines F) (event : NetworkEvent) (H : Hasher)
    (kind kind' : DetectorKind) (now : Nat) :
    ((engines F H find).detect kind now event d).1.nextId kind' =
      if kind' = kind then
        d.nextId kind + ((engines F H find).detect kind now event d).2.length.toUInt64
      else d.nextId kind' := by
  split
  · next h =>
    subst h
    cases kind' with
    | signature =>
      exact congrArg (fun n : Nat => d.signature.nextId + n.toUInt64) length_signatureAlerts.symm
    | anomaly =>
      have hnext := (inspect_numbered (H := H) (d.anomaly.maybeRollWindow now) event).2.1
      rw [nextId_maybeRollWindow] at hnext
      exact hnext
    | cep => exact (processRules_numbered now event d.cep.rules d.cep.active d.cep.nextId).2.1
  · next h => cases kind <;> cases kind' <;> first | rfl | exact absurd rfl h

theorem nextId_fresh (H : Hasher) (find : OverlappingSearch) (kind : DetectorKind) :
    (engines F H find).fresh.nextId kind = 1 := by
  cases kind <;> rfl

end Engines

end ThreatEngine.Pipeline
