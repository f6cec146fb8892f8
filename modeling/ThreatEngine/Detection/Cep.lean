import Mathlib.Logic.Function.Basic
import ThreatEngine.Lib.Mealy
import ThreatEngine.Lib.Sweep
import ThreatEngine.Lib.Utf8
import ThreatEngine.Models

/-! The complex event processing engine of `cep.rs`: sequences of conditions,
correlated by source address within a window. Instants and durations are
nanoseconds, and `duration_since` saturates at zero. -/
namespace ThreatEngine.Detection

inductive Condition where
  | isSynOnly
  | hasSignaturePayload
  | distinctPortAbove (p : UInt16)
  deriving DecidableEq

def Condition.matched (event : NetworkEvent) : Condition → Bool
  | .isSynOnly => event.isSyn
  | .hasSignaturePayload => !event.payloadSample.isEmpty &&
      Utf8.contains (Utf8.fromUtf8Lossy event.payloadSample) (Utf8.ascii "passwd")
  | .distinctPortAbove p => decide (p < event.dstPort)

structure CepRule where
  name : String
  severity : Severity
  steps : List Condition
  window : Nat

structure PartialMatch where
  step : Nat
  startedAt : Nat
  deriving DecidableEq

/-- The partial matches of one rule, by source address. -/
abbrev Partials := UInt32 → Option (List PartialMatch)

/-- `active` has a map for every rule. -/
structure CepEngine where
  rules : List CepRule
  active : List Partials
  nextId : UInt64
  aligned : active.length = rules.length

def CepEngine.ofRules (rules : List CepRule) : CepEngine where
  rules := rules
  active := rules.map fun _ _ => none
  nextId := 1
  aligned := List.length_map _

def CepEngine.withDefaultRules : CepEngine :=
  .ofRules [{ name := "probe-then-exploit-attempt", severity := .critical
              steps := [.isSynOnly, .hasSignaturePayload], window := 5000000000 }]

def CepRule.alert (rule : CepRule) (event : NetworkEvent) (id : UInt64) : Alert where
  id := id
  timestampMs := event.timestampMs
  ruleName := rule.name
  severity := rule.severity
  srcIp := ipToString event.srcIp
  dstIp := ipToString event.dstIp
  detail := "CEP rule '" ++ rule.name ++ "' completed: " ++ toString rule.steps.length ++
    " steps matched within " ++ durationText rule.window
  detector := .cep

/-- `step < steps.len() && steps[step].matches(event)`. -/
def CepRule.expects (rule : CepRule) (event : NetworkEvent) (step : Nat) : Bool :=
  match rule.steps[step]? with
  | some c => c.matched event
  | none => false

def CepRule.advance (rule : CepRule) (event : NetworkEvent) (p : PartialMatch) :
    Option PartialMatch :=
  if rule.expects event p.step then some { p with step := p.step + 1 } else none

def CepRule.complete (rule : CepRule) (p : PartialMatch) : Bool := p.step == rule.steps.length

def CepRule.fresh (rule : CepRule) (now : Nat) (p : PartialMatch) : Bool :=
  decide (now - p.startedAt ≤ rule.window)

def CepRule.unfinished (rule : CepRule) (p : PartialMatch) : Bool :=
  decide (p.step < rule.steps.length)

/-- One rule's work on one event: the source's partial matches afterwards, and
those that the pass over them, newest first, has completed. -/
def CepRule.track (rule : CepRule) (now : Nat) (event : NetworkEvent)
    (partials : List PartialMatch) : List PartialMatch × List PartialMatch :=
  let round := Sweep.round (rule.fresh now) (rule.advance event) rule.complete rule.unfinished partials
  (if rule.expects event 0 then round.1 ++ [⟨1, now⟩] else round.1, round.2)

/-- One alert for every completed match, numbered from `id`. -/
def CepRule.alerts (rule : CepRule) (event : NetworkEvent) : UInt64 → List PartialMatch → List Alert
  | _, [] => []
  | id, _ :: completed => rule.alert event id :: rule.alerts event (id + 1) completed

/-- The loop over the rules: their maps afterwards, the alerts of each, the next id. -/
def processRules (now : Nat) (event : NetworkEvent) :
    List CepRule → List Partials → UInt64 → List Partials × List (List Alert) × UInt64
  | rule :: rules, partials :: active, id =>
    let tracked := rule.track now event ((partials event.srcIp).getD [])
    let rest := processRules now event rules active (id + tracked.2.length.toUInt64)
    (Function.update partials event.srcIp (some tracked.1) :: rest.1,
      rule.alerts event id tracked.2 :: rest.2.1, rest.2.2)
  | _, _, id => ([], [], id)

theorem length_processRules (now : Nat) (event : NetworkEvent) (rules : List CepRule)
    (active : List Partials) (id : UInt64) (h : active.length = rules.length) :
    (processRules now event rules active id).1.length = rules.length := by
  induction rules generalizing active id with
  | nil => rfl
  | cons rule rules ih =>
    cases active with
    | nil => cases h
    | cons partials active => exact congrArg (· + 1) (ih active _ (Nat.succ.inj h))

theorem length_processRules_alerts (now : Nat) (event : NetworkEvent) (rules : List CepRule)
    (active : List Partials) (id : UInt64) (h : active.length = rules.length) :
    (processRules now event rules active id).2.1.length = rules.length := by
  induction rules generalizing active id with
  | nil => rfl
  | cons rule rules ih =>
    cases active with
    | nil => cases h
    | cons partials active => exact congrArg (· + 1) (ih active _ (Nat.succ.inj h))

/-- `process`, with the alerts of each rule in a list of their own. -/
def CepEngine.processEach (engine : CepEngine) (now : Nat) (event : NetworkEvent) :
    CepEngine × List (List Alert) :=
  let r := processRules now event engine.rules engine.active engine.nextId
  ({ rules := engine.rules, active := r.1, nextId := r.2.2
     aligned := length_processRules now event _ _ _ engine.aligned }, r.2.1)

def CepEngine.process (engine : CepEngine) (now : Nat) (event : NetworkEvent) :
    CepEngine × List Alert :=
  let r := engine.processEach now event
  (r.1, r.2.flatten)

/-- The engine as a machine over timed events. -/
def singleMachine (rules : List CepRule) : Mealy.Machine CepEngine (Nat × NetworkEvent)
    (List Alert) where
  init := .ofRules rules
  step engine x := engine.process x.1 x.2

/-- The same machine with the alerts of each rule apart. -/
def cepMachine (rules : List CepRule) : Mealy.Machine CepEngine (Nat × NetworkEvent)
    (List (List Alert)) where
  init := .ofRules rules
  step engine x := engine.processEach x.1 x.2

/-- The partial matches that the engine holds for rule `i` and source `s`. -/
def CepEngine.entry (engine : CepEngine) (i : Nat) (s : UInt32) : List PartialMatch :=
  ((engine.active[i]?).bind fun partials => partials s).getD []

section Engine
variable (now : Nat) (event : NetworkEvent) {engine : CepEngine} {i : Nat} {rule : CepRule}

/-- What one event does to one rule's map, and the alerts it makes the rule raise. -/
theorem processRules_spec {rules : List CepRule} {active : List Partials} (id : UInt64)
    {i : Nat} {partials : Partials} (hr : rules[i]? = some rule) (hp : active[i]? = some partials) :
    (processRules now event rules active id).1[i]? = some (Function.update partials event.srcIp
      (some (rule.track now event ((partials event.srcIp).getD [])).1)) ∧
    ∃ id', (processRules now event rules active id).2.1[i]? =
      some (rule.alerts event id' (rule.track now event ((partials event.srcIp).getD [])).2) := by
  induction rules generalizing active id i with
  | nil => simp at hr
  | cons r rules ih =>
    cases active with
    | nil => simp at hp
    | cons p active =>
      cases i with
      | zero =>
        obtain rfl : r = rule := by simpa using hr
        obtain rfl : p = partials := by simpa using hp
        exact ⟨rfl, id, rfl⟩
      | succ i => exact ih _ (by simpa using hr) (by simpa using hp)

theorem CepEngine.exists_partials (hr : engine.rules[i]? = some rule) :
    ∃ partials, engine.active[i]? = some partials := by
  obtain ⟨hlt, _⟩ := List.getElem?_eq_some_iff.mp hr
  exact ⟨_, List.getElem?_eq_getElem (engine.aligned ▸ hlt)⟩

theorem entry_processEach (hr : engine.rules[i]? = some rule) (s : UInt32) :
    (engine.processEach now event).1.entry i s =
      if s = event.srcIp then (rule.track now event (engine.entry i s)).1 else engine.entry i s := by
  obtain ⟨partials, hp⟩ := CepEngine.exists_partials hr
  have hspec := (processRules_spec now event engine.nextId hr hp).1
  have hentry : (engine.processEach now event).1.entry i s =
      ((Function.update partials event.srcIp
        (some (rule.track now event ((partials event.srcIp).getD [])).1)) s).getD [] := by
    simp [CepEngine.entry, CepEngine.processEach, hspec]
  rw [hentry]
  by_cases hs : s = event.srcIp
  · subst hs
    simp [CepEngine.entry, hp]
  · simp [CepEngine.entry, hp, hs]

theorem alerts_processEach (hr : engine.rules[i]? = some rule) :
    ∃ id, (engine.processEach now event).2[i]? =
      some (rule.alerts event id (rule.track now event (engine.entry i event.srcIp)).2) := by
  obtain ⟨partials, hp⟩ := CepEngine.exists_partials hr
  obtain ⟨id, hid⟩ := (processRules_spec now event engine.nextId hr hp).2
  exact ⟨id, by simpa [CepEngine.processEach, CepEngine.entry, hp] using hid⟩

theorem length_alerts_processEach (engine : CepEngine) :
    (engine.processEach now event).2.length = engine.rules.length :=
  length_processRules_alerts now event _ _ _ engine.aligned

end Engine

def synEvent (ip : UInt32) : NetworkEvent where
  timestampMs := 0
  srcIp := ip
  dstIp := 99
  srcPort := 1111
  dstPort := 80
  protocol := .tcp
  flags := 0b0001
  payloadSample := []

def payloadEvent (ip : UInt32) : NetworkEvent where
  timestampMs := 0
  srcIp := ip
  dstIp := 99
  srcPort := 1111
  dstPort := 80
  protocol := .tcp
  flags := 0b0011
  payloadSample := Utf8.ascii "GET /../../etc/passwd"

/-- A probe and an exploit attempt by source 42, with another source between. -/
def probeThenExploit : List (Nat × NetworkEvent) :=
  [(0, synEvent 42), (1000000000, payloadEvent 7), (2000000000, payloadEvent 42)]

end ThreatEngine.Detection
