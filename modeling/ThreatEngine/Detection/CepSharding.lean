import ThreatEngine.Detection.Cep

/-! What the engine raises for one source depends on the events of that source
only, so engines that share the sources between them raise what one would. -/
namespace ThreatEngine.Detection

/-- `workers` engines; every event is given to the one its shard key names. -/
def shardedMachine (workers : Nat) [NeZero workers] (rules : List CepRule) :
    Mealy.Machine (Fin workers → CepEngine) (Nat × NetworkEvent) (List Alert) where
  init := fun _ => .ofRules rules
  step engines x :=
    let w := x.2.shard workers
    let r := (engines w).process x.1 x.2
    (Function.update engines w r.1, r.2)

/-- The alerts for source `s`, without their ids. -/
def alertsFor (s : UInt32) (alerts : List Alert) : List Alert :=
  (alerts.filter fun a => a.srcIp == ipToString s).map Alert.body

def fromSource (s : UInt32) (x : Nat × NetworkEvent) : Bool := x.2.srcIp == s

/-- Two engines that hold the same for source `s`. -/
structure Agree (rules : List CepRule) (s : UInt32) (E E' : CepEngine) : Prop where
  left : E.rules = rules
  right : E'.rules = rules
  entry : ∀ i, E.entry i s = E'.entry i s

section Source
variable {rules : List CepRule} {s : UInt32} {E E' : CepEngine} {now : Nat} {event : NetworkEvent}

theorem body_alerts (rule : CepRule) (event : NetworkEvent) (id : UInt64)
    (completed : List PartialMatch) :
    (rule.alerts event id completed).map Alert.body = completed.map fun _ => rule.alert event 0 := by
  induction completed generalizing id with
  | nil => rfl
  | cons p completed ih => exact congrArg _ (ih (id + 1))

/-- Up to ids the alerts are a function of what is held for the event's source. -/
theorem body_process (E : CepEngine) (now : Nat) (event : NetworkEvent) :
    (E.process now event).2.map Alert.body = (E.rules.mapIdx fun i rule =>
      (rule.track now event (E.entry i event.srcIp)).2.map fun _ => rule.alert event 0).flatten := by
  rw [CepEngine.process, List.map_flatten]
  congr 1
  refine List.ext_getElem? fun i => ?_
  rw [List.getElem?_map, List.getElem?_mapIdx]
  cases hr : E.rules[i]? with
  | none =>
    have hle := List.getElem?_eq_none_iff.mp hr
    rw [List.getElem?_eq_none (by rw [length_alerts_processEach]; exact hle)]
    rfl
  | some rule =>
    obtain ⟨id, hid⟩ := alerts_processEach now event hr
    rw [hid, Option.map_some, Option.map_some, body_alerts]

theorem srcIp_of_mem_process {a : Alert} (h : a ∈ (E.process now event).2) :
    a.srcIp = ipToString event.srcIp := by
  have hb : a.body ∈ (E.process now event).2.map Alert.body := List.mem_map_of_mem h
  rw [body_process] at hb
  obtain ⟨l, hl, ha⟩ := List.mem_flatten.mp hb
  obtain ⟨i, hi, rfl⟩ := List.mem_mapIdx.mp hl
  obtain ⟨_, _, he⟩ := List.mem_map.mp ha
  exact (congrArg Alert.srcIp he).symm

theorem alertsFor_process (E : CepEngine) (now : Nat) (event : NetworkEvent) :
    alertsFor s (E.process now event).2 =
      if event.srcIp = s then (E.process now event).2.map Alert.body else [] := by
  unfold alertsFor
  split
  · next h =>
    rw [List.filter_eq_self.mpr fun a ha => by simp [srcIp_of_mem_process ha, h]]
  · next h =>
    rw [List.filter_eq_nil_iff.mpr fun a ha => by simp [srcIp_of_mem_process ha, ipToString_inj, h]]
    rfl

theorem entry_of_rules_none {i : Nat} (h : E.rules[i]? = none) : E.entry i s = [] := by
  have hle := E.aligned.trans_le (List.getElem?_eq_none_iff.mp h)
  simp [CepEngine.entry, List.getElem?_eq_none hle]

/-- An event of another source changes nothing of what is held for `s`. -/
theorem entry_process_other (h : event.srcIp ≠ s) (i : Nat) :
    (E.process now event).1.entry i s = E.entry i s := by
  cases hr : E.rules[i]? with
  | none => rw [entry_of_rules_none hr, entry_of_rules_none (E := (E.process now event).1) hr]
  | some rule => exact (entry_processEach now event hr s).trans (if_neg (Ne.symm h))

theorem Agree.skip (h : Agree rules s E E') (now : Nat) (hne : event.srcIp ≠ s) :
    Agree rules s (E.process now event).1 E' :=
  ⟨h.left, h.right, fun i => (entry_process_other hne i).trans (h.entry i)⟩

theorem Agree.step (h : Agree rules s E E') (now : Nat) (hs : event.srcIp = s) :
    Agree rules s (E.process now event).1 (E'.process now event).1 ∧
      alertsFor s (E.process now event).2 = alertsFor s (E'.process now event).2 := by
  subst hs
  refine ⟨⟨h.left, h.right, fun i => ?_⟩, ?_⟩
  · cases hr : rules[i]? with
    | none =>
      rw [entry_of_rules_none (E := (E.process now event).1) (h.left ▸ hr),
        entry_of_rules_none (E := (E'.process now event).1) (h.right ▸ hr)]
    | some rule =>
      have hl := entry_processEach now event (h.left ▸ hr) event.srcIp
      have hr' := entry_processEach now event (h.right ▸ hr) event.srcIp
      rw [if_pos rfl] at hl hr'
      exact hl.trans (h.entry i ▸ hr'.symm)
  · rw [alertsFor_process, alertsFor_process, body_process, body_process, h.left, h.right]
    simp only [h.entry]

end Source

section Streams
variable (rules : List CepRule) (s : UInt32) (stream : List (Nat × NetworkEvent))

theorem agree_ofRules : Agree rules s (.ofRules rules) (.ofRules rules) := ⟨rfl, rfl, fun _ => rfl⟩

/-- The whole stream raises for `s` what the events of `s` raise. -/
theorem single_eq_filtered :
    ((singleMachine rules).outputs (singleMachine rules).init stream).flatMap (alertsFor s) =
      ((singleMachine rules).outputs (singleMachine rules).init (stream.filter (fromSource s))).flatMap
        (alertsFor s) := by
  refine Mealy.shown_eq_of_simulation (R := Agree rules s) _ _ ?_ ?_ (agree_ofRules rules s) stream
  · intro E E' x h hx
    exact h.step x.1 (beq_iff_eq.mp hx)
  · intro E E' x h hx
    have hne : x.2.srcIp ≠ s := beq_eq_false_iff_ne.mp hx
    exact ⟨h.skip x.1 hne, (alertsFor_process E x.1 x.2).trans (if_neg hne)⟩

/-- The engine that `s` is routed to follows an engine that sees only `s`. -/
theorem sharded_eq_filtered (workers : Nat) [NeZero workers] :
    ((shardedMachine workers rules).outputs (shardedMachine workers rules).init stream).flatMap
        (alertsFor s) =
      ((singleMachine rules).outputs (singleMachine rules).init (stream.filter (fromSource s))).flatMap
        (alertsFor s) := by
  let w : Fin workers := Fin.ofNat workers (fnv (octets s)).toNat
  refine Mealy.shown_eq_of_simulation (R := fun engines E => Agree rules s (engines w) E) _ _ ?_ ?_
    (agree_ofRules rules s) stream
  · intro engines E x h hx
    have hs : x.2.srcIp = s := beq_iff_eq.mp hx
    have hw : x.2.shard workers = w := shard_of_srcIp workers hs
    obtain ⟨hr, ho⟩ := h.step x.1 hs
    simp only [shardedMachine, hw, Function.update_self]
    exact ⟨hr, ho⟩
  · intro engines E x h hx
    have hne : x.2.srcIp ≠ s := beq_eq_false_iff_ne.mp hx
    refine ⟨?_, (alertsFor_process _ x.1 x.2).trans (if_neg hne)⟩
    by_cases hw : w = x.2.shard workers
    · simpa [shardedMachine, ← hw] using h.skip x.1 hne
    · simpa [shardedMachine, hw] using h

/-- Sharding does not change detection: for every source the engines of `workers`
workers, one engine, and one engine that is given only the events of the source
raise the same alerts in the same order. -/
theorem sharding_transparent (workers : Nat) [NeZero workers] :
    ((shardedMachine workers rules).outputs (shardedMachine workers rules).init stream).flatMap
        (alertsFor s) =
      ((singleMachine rules).outputs (singleMachine rules).init stream).flatMap (alertsFor s) ∧
    ((singleMachine rules).outputs (singleMachine rules).init stream).flatMap (alertsFor s) =
      ((singleMachine rules).outputs (singleMachine rules).init (stream.filter (fromSource s))).flatMap
        (alertsFor s) := by
  have hsingle := single_eq_filtered rules s stream
  exact ⟨(sharded_eq_filtered rules s stream workers).trans hsingle.symm, hsingle⟩

end Streams

theorem sharding_transparent_probe :
    ((shardedMachine 4 CepEngine.withDefaultRules.rules).outputs
        (shardedMachine 4 CepEngine.withDefaultRules.rules).init probeThenExploit).flatMap (alertsFor 42) =
      ((singleMachine CepEngine.withDefaultRules.rules).outputs
        (singleMachine CepEngine.withDefaultRules.rules).init probeThenExploit).flatMap (alertsFor 42) ∧
    ((singleMachine CepEngine.withDefaultRules.rules).outputs
        (singleMachine CepEngine.withDefaultRules.rules).init probeThenExploit).flatMap (alertsFor 42) =
      ((singleMachine CepEngine.withDefaultRules.rules).outputs
        (singleMachine CepEngine.withDefaultRules.rules).init
        (probeThenExploit.filter (fromSource 42))).flatMap (alertsFor 42) :=
  sharding_transparent CepEngine.withDefaultRules.rules 42 probeThenExploit 4

end ThreatEngine.Detection
