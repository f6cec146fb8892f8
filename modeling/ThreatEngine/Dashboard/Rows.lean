import ThreatEngine.Api.Requests
import ThreatEngine.Pipeline.AlertIdentity

/-! The rows of the dashboard. `render` in `index.html` writes the fields of the alerts
into the page as HTML and escapes nothing. The text of a time is a parameter. -/
namespace ThreatEngine.Dashboard
open Detection Pipeline Api WindowedAnomalyDetector
open scoped Queue
variable {ι F : Type} {n : Nat}

/-- A severity as it is sent. -/
def severityText : Severity → String
  | .low => "Low"
  | .medium => "Medium"
  | .high => "High"
  | .critical => "Critical"

/-- A detector as it is sent. -/
def detectorText : DetectorKind → String
  | .signature => "Signature"
  | .anomaly => "Anomaly"
  | .cep => "Cep"

/-- The buttons that are active. -/
structure Filters where
  sevFilter : String
  detFilter : String

def Filters.filtered (f : Filters) (alerts : List Alert) : List Alert :=
  alerts.filter fun a =>
    (f.sevFilter == "all" || severityText a.severity == f.sevFilter) &&
    (f.detFilter == "all" || detectorText a.detector == f.detFilter)

/-- `tr.innerHTML`, with what is written into it. -/
def innerHTML (time severity rule detector src dst : String) : String :=
  "<td>" ++ time ++ "</td>" ++
  "<td><span class=''sev-pill sev-" ++ severity ++ "''>" ++ severity ++ "</span></td>" ++
  "<td>" ++ rule ++ "</td>" ++
  "<td class=''detector-tag''>" ++ detector ++ "</td>" ++
  "<td>" ++ src ++ "</td>" ++
  "<td>" ++ dst ++ "</td>"

def row (toLocaleTimeString : Int → String) (a : Alert) : String :=
  innerHTML (toLocaleTimeString a.timestampMs) (severityText a.severity) a.ruleName
    (detectorText a.detector) a.srcIp a.dstIp

def render (toLocaleTimeString : Int → String) (f : Filters) (alerts : List Alert) : List String :=
  ((f.filtered alerts).take 500).map (row toLocaleTimeString)

/-- The characters that HTML does not take for text: less-than, greater-than, ampersand and quotes. -/
def isMarkup (c : Char) : Bool := [60, 62, 38, 34, 39].contains c.toNat

def markup (s : String) : List Char := s.toList.filter isMarkup

/-- The rules of the detectors. -/
def kinds : List (String × Severity × DetectorKind) := [
  ("path-traversal-passwd", .high, .signature), ("sql-injection-union", .high, .signature),
  ("xss-script-tag", .medium, .signature), ("windows-cmd-exec", .critical, .signature),
  ("path-traversal-generic", .medium, .signature), ("syn-flood-anomaly", .critical, .anomaly),
  ("port-scan-anomaly", .high, .anomaly), ("probe-then-exploit-attempt", .critical, .cep)]

/-- An alert of one of the rules, about two addresses. -/
structure Named (a : Alert) : Prop where
  kind : (a.ruleName, a.severity, a.detector) ∈ kinds
  addresses : ∃ src dst, a.srcIp = ipToString src ∧ a.dstIp = ipToString dst

/-- Detectors whose rules are these. -/
structure Default (d : Engines F) : Prop where
  signature : ∀ idx : Fin d.signature.patterns.length,
    (d.signature.ruleNames.get (idx.cast d.signature.named),
      d.signature.severities.get (idx.cast d.signature.graded), DetectorKind.signature) ∈ kinds
  rules : d.cep.rules = CepEngine.withDefaultRules.rules

section Detectors
variable [Float64 F] {H : Hasher} {find : OverlappingSearch} {d : Engines F}

theorem signature_kinds : ∀ idx : Fin SignatureDetector.withDefaultRules.patterns.length,
    (SignatureDetector.withDefaultRules.ruleNames.get (idx.cast SignatureDetector.withDefaultRules.named),
      SignatureDetector.withDefaultRules.severities.get
        (idx.cast SignatureDetector.withDefaultRules.graded),
      DetectorKind.signature) ∈ kinds := by decide

theorem default_fresh (H : Hasher) (find : OverlappingSearch) : Default (engines F H find).fresh :=
  ⟨signature_kinds, rfl⟩

/-- The detectors keep their rules, and an answer has alerts of these only. -/
theorem Default.detect (h : Default d) (kind : DetectorKind) (now : Nat) (event : NetworkEvent) :
    Default ((engines F H find).detect kind now event d).1 ∧
      ∀ a ∈ ((engines F H find).detect kind now event d).2, Named a := by
  cases kind with
  | signature =>
    refine ⟨⟨h.signature, h.rules⟩, fun a ha => ?_⟩
    obtain ⟨id, idx, -, rfl⟩ := mem_signatureAlerts ha
    exact ⟨h.signature idx, event.srcIp, event.dstIp, rfl, rfl⟩
  | anomaly =>
    refine ⟨⟨h.signature, h.rules⟩, fun a ha => ?_⟩
    have hraised : a ∈ ((d.anomaly.maybeRollWindow now).inspect H event).2 := ha
    rw [inspect_eq] at hraised
    obtain hraised | hraised := List.mem_append.mp hraised
    · obtain ⟨rfl, -⟩ := mem_raised hraised
      exact ⟨by simp [kinds, floodAlert, alert], event.srcIp, event.dstIp, rfl, rfl⟩
    · obtain ⟨rfl, -⟩ := mem_raised hraised
      exact ⟨by simp [kinds, scanAlert, alert], event.srcIp, event.dstIp, rfl, rfl⟩
  | cep =>
    refine ⟨⟨h.signature, h.rules⟩, fun a ha => ?_⟩
    obtain ⟨-, -, -, hmem⟩ := processRules_numbered now event d.cep.rules d.cep.active d.cep.nextId
    obtain ⟨rule, hrule, id, rfl, -⟩ := hmem a ha
    rw [h.rules] at hrule
    obtain rfl := List.mem_singleton.mp hrule
    exact ⟨by simp [kinds, CepRule.alert], event.srcIp, event.dstIp, rfl, rfl⟩

end Detectors

section Text
variable {s t : String} {a : Alert}

theorem markup_append (s t : String) : markup (s ++ t) = markup s ++ markup t := by
  simp [markup]

theorem markup_empty : markup "" = [] := by simp [markup]

/-- A row whose fields are text has the markup of an empty row. -/
theorem markup_innerHTML {time severity rule detector src dst : String} (htime : markup time = [])
    (hseverity : markup severity = []) (hrule : markup rule = []) (hdetector : markup detector = [])
    (hsrc : markup src = []) (hdst : markup dst = []) :
    markup (innerHTML time severity rule detector src dst) = markup (innerHTML "" "" "" "" "" "") := by
  unfold innerHTML
  simp only [markup_append, htime, hseverity, hrule, hdetector, hsrc, hdst, markup_empty,
    -String.reduceAppend]

theorem isMarkup_of_isDigit {c : Char} (h : c.isDigit = true) : isMarkup c = false := by
  have hc : 48 ≤ c.toNat ∧ c.toNat ≤ 57 := by
    simpa [Char.isDigit, UInt32.le_iff_toNat_le] using h
  simp only [isMarkup, List.contains_eq_mem, List.mem_cons, List.not_mem_nil, or_false,
    decide_eq_false_iff_not]
  omega

theorem filter_octetText (x : UInt32) : (octetText x).filter isMarkup = [] :=
  List.filter_eq_nil_iff.mpr fun _ hc => Bool.eq_false_iff.mp
    (isMarkup_of_isDigit (Nat.isDigit_of_mem_toDigits (by decide) (by decide) hc))

theorem markup_ipToString (ip : UInt32) : markup (ipToString ip) = [] := by
  have hdot : isMarkup '.' = false := by decide
  simp [markup, ipToString, List.filter_append, filter_octetText, hdot]

/-- The names of the rules, the severities and the detectors are text. -/
theorem markup_of_mem_kinds : ∀ kind ∈ kinds, markup kind.1 = [] ∧ markup (severityText kind.2.1) = [] ∧
    markup (detectorText kind.2.2) = [] := by
  decide +kernel

theorem listed_or_signature : ∀ kind ∈ kinds, (∃ r ∈ rules, r.name = kind.1) ∨ kind.2.2 = .signature ∧
    kind.1 ∈ ["xss-script-tag", "windows-cmd-exec", "path-traversal-generic"] := by
  decide +kernel

theorem Named.markup_row {a : Alert} (h : Named a) {toLocaleTimeString : Int → String}
    (htime : ∀ t, markup (toLocaleTimeString t) = []) :
    markup (row toLocaleTimeString a) = markup (innerHTML "" "" "" "" "" "") := by
  obtain ⟨src, dst, hsrc, hdst⟩ := h.addresses
  obtain ⟨hrule, hseverity, hdetector⟩ := markup_of_mem_kinds _ h.kind
  refine markup_innerHTML (htime _) hseverity hrule hdetector ?_ ?_
  · rw [hsrc, markup_ipToString]
  · rw [hdst, markup_ipToString]

end Text

section Runs
variable [DecidableEq ι] {env : Environment} {r : Request} {c c' : Handler}

/-- Every alert that a connection has been answered with is named. -/
def Shows (c : Handler) : Prop := ∀ l, c = .answered (.alerts l) → ∀ a ∈ l, Named a

theorem shows_serve (env : Environment) (r : Request) : Shows (env.serve r) := by
  intro l h
  obtain ⟨authorization, route⟩ := r
  cases route with
  | health => cases h
  | login token =>
    simp only [Environment.serve, Environment.login] at h
    split at h <;> cases h
  | stats | alerts | rules =>
    simp only [Environment.serve, Environment.protect] at h
    split at h <;> cases h

theorem shows_load {app : AppState n} (happ : ∀ a ∈ app.alerts, Named a) (h : c.load app = some c') :
    Shows c' := by
  intro l hl a ha
  subst hl
  cases c with
  | alerts limit =>
    obtain rfl : app.readAlerts limit = l := by simpa [Handler.load] using h
    exact happ a (List.mem_reverse.mp (List.mem_of_mem_take ha))
  | _ => cases h

variable [NeZero n] [Float64 F] {H : Hasher} {find : OverlappingSearch} {k : Nat}
  {s : Server ι n (Engines F)}

theorem shows_of_reachable (hr : (server ι n (engines F H find) k env).Reachable s) (i : ι) :
    Shows (s.handler i) := by
  refine hr.rule (P := fun s => ∀ i, Shows (s.handler i)) (fun i l h => by cases h)
    (fun s a u hs h hu => ?_) i
  cases a with
  | engine a =>
    obtain ⟨e, -, rfl⟩ := Option.map_eq_some_iff.mp hu
    exact h
  | request j r =>
    simp only [server, Server.step] at hu
    split at hu
    · obtain rfl := Option.some.inj hu
      exact (Function.forall_update_iff s.handler fun _ c => Shows c).mpr ⟨shows_serve env r, fun i _ => h i⟩
    · cases hu
  | load j =>
    obtain ⟨c, hc, rfl⟩ := Option.map_eq_some_iff.mp hu
    have hvetted : Vetted Default Named s.engine := vetted_of_reachable (default_fresh H find)
      (fun kind now event d hd => hd.detect kind now event) (engine_reachable hs).of_logged
    exact (Function.forall_update_iff s.handler fun _ c => Shows c).mpr
      ⟨shows_load hvetted.stored hc, fun i _ => h i⟩

/-- In every run of the engine and its API, whatever alerts a connection is answered with are of
the eight rules, of which only three signatures are missing from the list that `/rules` gives; and
however the dashboard filters them, it shows rows that have the markup of an empty row. -/
theorem rows_are_text {toLocaleTimeString : Int → String} (htime : ∀ t, markup (toLocaleTimeString t) = [])
    (hr : (server ι n (engines F H find) k env).Reachable s) {i : ι} {l : List Alert}
    (hl : s.handler i = .answered (.alerts l)) (f : Filters) :
    (∀ a ∈ l, (a.ruleName, a.severity, a.detector) ∈ kinds ∧ ((∃ r ∈ rules, r.name = a.ruleName) ∨
      a.detector = .signature ∧
        a.ruleName ∈ ["xss-script-tag", "windows-cmd-exec", "path-traversal-generic"])) ∧
    ∀ html ∈ render toLocaleTimeString f l, markup html = markup (innerHTML "" "" "" "" "" "") := by
  have hnamed : ∀ a ∈ l, Named a := shows_of_reachable hr i l hl
  refine ⟨fun a ha => ⟨(hnamed a ha).kind, listed_or_signature _ (hnamed a ha).kind⟩, fun html hhtml => ?_⟩
  obtain ⟨a, ha, rfl⟩ := List.mem_map.mp hhtml
  exact (hnamed a (List.mem_filter.mp (List.mem_of_mem_take ha)).1).markup_row htime

end Runs

/-- One alert is stored, and then asked for. -/
def askedOnce : List (Api.Action (Fin 1) 1) :=
  oneRecord.map .engine ++ [.engine (.store 0),
    .request 0 { statsRequest with route := .alerts (some 1000) }, .load 0]

theorem rows_are_text_askedOnce :
    let S := server (Fin 1) 1 (engines ℝ fxWord findByEnd) 1 plainEnvironment
    let s := (S.exec S.init askedOnce).get (by decide +kernel)
    let l := s.engine.readAlerts (some 1000)
    l.length = 1 ∧ (∀ a ∈ l, (a.ruleName, a.severity, a.detector) ∈ kinds ∧ ((∃ r ∈ rules, r.name = a.ruleName) ∨
      a.detector = .signature ∧
        a.ruleName ∈ ["xss-script-tag", "windows-cmd-exec", "path-traversal-generic"])) ∧
    ∀ html ∈ render (fun _ => "12:00:00") ⟨"all", "all"⟩ l,
      markup html = markup (innerHTML "" "" "" "" "" "") := by
  intro S s l
  have hs : S.Reachable s := ⟨askedOnce, (Option.some_get _).symm⟩
  have hl : s.handler 0 = .answered (.alerts l) := by decide +kernel
  exact ⟨by decide +kernel, rows_are_text (fun _ => by decide +kernel) hs hl _⟩

end ThreatEngine.Dashboard
