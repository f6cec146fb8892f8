import Mathlib.Order.Interval.Set.Defs
import ThreatEngine.Pipeline.Accounting
import ThreatEngine.Pipeline.AlertHistory

/-! The API of `api.rs` beside the running pipeline. A handler is a thread of its
own: it loads one counter after the other, or reads the alerts under the lock, while
the producer and the workers go on. -/
namespace ThreatEngine.Api
open Pipeline
open scoped Queue
variable {ι δ : Type} {n : Nat}

/-- A route that a request has matched, with what its extractors have found. -/
inductive Route where
  | health
  | login (token : String)
  | stats
  | alerts (limit : Option Nat)
  | rules

structure Request where
  /-- The value of the `Authorization` header. -/
  authorization : Option (List UInt8)
  route : Route

/-- The variable `API_TOKEN`, where it is set to text, and `HeaderValue::to_str`. -/
structure Environment where
  apiToken : Option String
  toStr : List UInt8 → Option String

def Environment.expectedToken (env : Environment) : String :=
  env.apiToken.getD "dev-token-change-me"

/-- The check of `require_auth`. -/
def Environment.admits (env : Environment) (r : Request) : Bool :=
  ((r.authorization.bind env.toStr).map fun v => v == "Bearer " ++ env.expectedToken).getD false

structure HealthResponse where
  status : String
  eventsProcessed : Nat
  eventsDropped : Nat
  deriving DecidableEq

structure StatsResponse where
  eventsProcessed : Nat
  eventsDropped : Nat
  alertsFired : Nat
  queueBackpressureEvents : Nat
  deriving DecidableEq

structure RuleSummary where
  name : String
  detector : String
  description : String
  deriving DecidableEq

/-- The status codes of the answers. -/
inductive StatusCode where
  | ok
  | unauthorized
  deriving DecidableEq

inductive Response where
  | unauthorized (text : String)
  | login (status : StatusCode) (ok : Bool)
  | health (r : HealthResponse)
  | stats (r : StatsResponse)
  | alerts (alerts : List Alert)
  | rules (rules : List RuleSummary)
  deriving DecidableEq

def Response.status : Response → StatusCode
  | .unauthorized _ => .unauthorized
  | .login status _ => status
  | _ => .ok

def rules : List RuleSummary := [
  ⟨"path-traversal-passwd", "signature", "Aho-Corasick match on '/etc/passwd' in payload sample"⟩,
  ⟨"sql-injection-union", "signature", "Aho-Corasick match on 'UNION SELECT' in payload sample"⟩,
  ⟨"syn-flood-anomaly", "anomaly",
    "Count-Min Sketch estimated SYN count per source exceeds threshold within window"⟩,
  ⟨"port-scan-anomaly", "anomaly",
    "HyperLogLog estimated distinct destination ports per source exceeds threshold within window"⟩,
  ⟨"probe-then-exploit-attempt", "cep",
    "NFA sequence: SYN probe followed by known-bad payload from same source within 5s window"⟩]

/-- A connection without a request, before the next load of its handler with the values that
it has loaded, and with its answer. -/
inductive Handler where
  | idle
  | health
  | healthDropped (eventsProcessed : Nat)
  | stats
  | statsDropped (eventsProcessed : Nat)
  | statsFired (eventsProcessed eventsDropped : Nat)
  | statsBackpressure (eventsProcessed eventsDropped alertsFired : Nat)
  | alerts (limit : Option Nat)
  | answered (r : Response)
  deriving DecidableEq

/-- `next.run(req)` where `require_auth` lets the request through. -/
def Environment.protect (env : Environment) (r : Request) (next : Handler) : Handler :=
  if env.admits r then next else .answered (.unauthorized "missing or invalid bearer token")

def Environment.login (env : Environment) (token : String) : Response :=
  if token == env.expectedToken then .login .ok true else .login .unauthorized false

/-- `build_router`, up to the first load. -/
def Environment.serve (env : Environment) (r : Request) : Handler :=
  match r.route with
  | .health => .health
  | .login token => .answered (env.login token)
  | .stats => env.protect r .stats
  | .alerts limit => env.protect r (.alerts limit)
  | .rules => env.protect r (.answered (.rules rules))

def Handler.load (app : AppState n) : Handler → Option Handler
  | .health => some (.healthDropped app.eventsProcessed)
  | .healthDropped p => some (.answered (.health ⟨"ok", p, app.eventsDropped⟩))
  | .stats => some (.statsDropped app.eventsProcessed)
  | .statsDropped p => some (.statsFired p app.eventsDropped)
  | .statsFired p d => some (.statsBackpressure p d app.alertsFired)
  | .statsBackpressure p d f => some (.answered (.stats ⟨p, d, f, app.eventsDropped⟩))
  | .alerts limit => some (.answered (.alerts (app.readAlerts limit)))
  | .idle | .answered _ => none

def Handler.free : Handler → Bool
  | .idle | .answered _ => true
  | _ => false

/-- The engine and the connections to it. The list `stored` only observes. -/
structure Server (ι : Type) (n : Nat) (δ : Type) where
  engine : State n δ
  handler : ι → Handler
  /-- The alerts that have been stored, in order. -/
  stored : List Alert

inductive Action (ι : Type) (n : Nat) where
  | engine (a : Pipeline.Action n)
  | request (i : ι) (r : Request)
  | load (i : ι)

/-- Counters never go back and what has been stored stays stored. -/
structure Since (s u : Server ι n δ) : Prop where
  processed : s.engine.eventsProcessed ≤ u.engine.eventsProcessed
  dropped : s.engine.eventsDropped ≤ u.engine.eventsDropped
  fired : s.engine.alertsFired ≤ u.engine.alertsFired
  stored : s.stored <+: u.stored

/-- The requests that the code 401 is for: a login with a wrong token, and whatever
`require_auth` does not let through. -/
def Environment.Refuses (env : Environment) (r : Request) : Prop :=
  match r.route with
  | .health => False
  | .login token => token ≠ env.expectedToken
  | _ => env.admits r = false

/-- What an answer says of a request that came in at `s`, once it is given at `u`. -/
def Response.Answers (env : Environment) (r : Request) (s u : Server ι n δ) : Response → Prop
  | .unauthorized text => env.admits r = false ∧ r.route ≠ .health ∧
      (∀ token, r.route ≠ .login token) ∧ text = "missing or invalid bearer token"
  | .login status ok => ∃ token, r.route = .login token ∧ (ok = true ↔ token = env.expectedToken) ∧
      (status = .ok ↔ token = env.expectedToken)
  | .health h => r.route = .health ∧ h.status = "ok" ∧
      h.eventsProcessed ∈ Set.Icc s.engine.eventsProcessed u.engine.eventsProcessed ∧
      h.eventsDropped ∈ Set.Icc s.engine.eventsDropped u.engine.eventsDropped
  | .stats t => r.route = .stats ∧ env.admits r = true ∧
      t.eventsProcessed ∈ Set.Icc s.engine.eventsProcessed u.engine.eventsProcessed ∧
      t.eventsDropped ∈ Set.Icc s.engine.eventsDropped u.engine.eventsDropped ∧
      t.alertsFired ∈ Set.Icc s.engine.alertsFired u.engine.alertsFired ∧
      t.queueBackpressureEvents ∈ Set.Icc t.eventsDropped u.engine.eventsDropped
  | .alerts l => ∃ limit m, r.route = .alerts limit ∧ env.admits r = true ∧
      s.stored.length ≤ m ∧ m ≤ u.stored.length ∧
      l = (u.stored.take m).reverse.take (min (limit.getD 200) 5000)
  | .rules l => r.route = .rules ∧ env.admits r = true ∧ l = Api.rules

/-- The invariant of a handler at work. -/
def Handler.Follows (env : Environment) (r : Request) (s u : Server ι n δ) : Handler → Prop
  | .idle => False
  | .health => r.route = .health
  | .healthDropped p => r.route = .health ∧
      p ∈ Set.Icc s.engine.eventsProcessed u.engine.eventsProcessed
  | .stats => r.route = .stats ∧ env.admits r = true
  | .statsDropped p => r.route = .stats ∧ env.admits r = true ∧
      p ∈ Set.Icc s.engine.eventsProcessed u.engine.eventsProcessed
  | .statsFired p d => r.route = .stats ∧ env.admits r = true ∧
      p ∈ Set.Icc s.engine.eventsProcessed u.engine.eventsProcessed ∧
      d ∈ Set.Icc s.engine.eventsDropped u.engine.eventsDropped
  | .statsBackpressure p d f => r.route = .stats ∧ env.admits r = true ∧
      p ∈ Set.Icc s.engine.eventsProcessed u.engine.eventsProcessed ∧
      d ∈ Set.Icc s.engine.eventsDropped u.engine.eventsDropped ∧
      f ∈ Set.Icc s.engine.alertsFired u.engine.alertsFired
  | .alerts limit => r.route = .alerts limit ∧ env.admits r = true
  | .answered a => a.Answers env r s u

section Counters
variable {s u : State n δ}

theorem counters_afterPush (s : State n δ) (event : NetworkEvent) (rest : List NetworkEvent)
    (r : Option (Queue.Result NetworkEvent)) :
    (s.afterPush event rest r).eventsProcessed = s.eventsProcessed ∧
      (s.afterPush event rest r).eventsDropped = s.eventsDropped := by
  unfold State.afterPush
  split <;> exact ⟨rfl, rfl⟩

theorem counters_afterPop (s : State n δ) (w : Fin n) (r : Option (Queue.Result NetworkEvent)) :
    (s.afterPop w r).eventsProcessed = s.eventsProcessed ∧
      (s.afterPop w r).eventsDropped = s.eventsDropped := by
  unfold State.afterPop
  split <;> exact ⟨rfl, rfl⟩

variable [NeZero n]

theorem counters_of_stage (h : Stage s u) :
    s.eventsProcessed ≤ u.eventsProcessed ∧ s.eventsDropped ≤ u.eventsDropped := by
  cases h with
  | push event rest b q hp hq =>
    obtain ⟨hp, hd⟩ := counters_afterPush (s.setQueue (event.shard n) q) event rest
      (q.call .producer).result
    exact ⟨hp.ge, hd.ge⟩
  | popStep w b q hw hq =>
    obtain ⟨hp, hd⟩ := counters_afterPop (s.setQueue w q) w (q.call .worker).result
    exact ⟨hp.ge, hd.ge⟩
  | drop => exact ⟨le_rfl, Nat.le_succ _⟩
  | count => exact ⟨Nat.le_succ _, le_rfl⟩
  | _ => exact ⟨le_rfl, le_rfl⟩

theorem fired_of_step {D : Detectors δ} {a : Pipeline.Action n} (h : Pipeline.step D s a = some u) :
    s.alertsFired ≤ u.alertsFired := by
  cases report_of_step h with
  | quiet a u ha h => exact h.fired.ge
  | fire => exact Nat.le_succ _
  | _ => exact le_rfl

end Counters

section Handlers
variable {env : Environment} {r : Request} {s u v : Server ι n δ}

theorem Since.refl (s : Server ι n δ) : Since s s := ⟨le_rfl, le_rfl, le_rfl, List.prefix_refl _⟩

theorem Since.trans (h : Since s u) (h' : Since u v) : Since s v :=
  ⟨h.processed.trans h'.processed, h.dropped.trans h'.dropped, h.fired.trans h'.fired,
    h.stored.trans h'.stored⟩

/-- An answer stays true while the engine goes on. -/
theorem Response.Answers.later {a : Response} (h : a.Answers env r s u) (hu : Since u v) :
    a.Answers env r s v := by
  cases a with
  | health a =>
    obtain ⟨hr, hok, hp, hd⟩ := h
    exact ⟨hr, hok, ⟨hp.1, hp.2.trans hu.processed⟩, ⟨hd.1, hd.2.trans hu.dropped⟩⟩
  | stats a =>
    obtain ⟨hr, ha, hp, hd, hf, hb⟩ := h
    exact ⟨hr, ha, ⟨hp.1, hp.2.trans hu.processed⟩, ⟨hd.1, hd.2.trans hu.dropped⟩,
      ⟨hf.1, hf.2.trans hu.fired⟩, ⟨hb.1, hb.2.trans hu.dropped⟩⟩
  | alerts l =>
    obtain ⟨limit, m, hr, ha, hs, hm, rfl⟩ := h
    refine ⟨limit, m, hr, ha, hs, hm.trans hu.stored.length_le, ?_⟩
    rw [List.prefix_iff_eq_take.mp hu.stored, List.take_take, min_eq_left hm]
  | _ => exact h

theorem Handler.Follows.later {c : Handler} (h : c.Follows env r s u) (hu : Since u v) :
    c.Follows env r s v := by
  cases c with
  | healthDropped p =>
    obtain ⟨hr, hp⟩ := h
    exact ⟨hr, hp.1, hp.2.trans hu.processed⟩
  | statsDropped p =>
    obtain ⟨hr, ha, hp⟩ := h
    exact ⟨hr, ha, hp.1, hp.2.trans hu.processed⟩
  | statsFired p d =>
    obtain ⟨hr, ha, hp, hd⟩ := h
    exact ⟨hr, ha, ⟨hp.1, hp.2.trans hu.processed⟩, hd.1, hd.2.trans hu.dropped⟩
  | statsBackpressure p d f =>
    obtain ⟨hr, ha, hp, hd, hf⟩ := h
    exact ⟨hr, ha, ⟨hp.1, hp.2.trans hu.processed⟩, ⟨hd.1, hd.2.trans hu.dropped⟩,
      hf.1, hf.2.trans hu.fired⟩
  | answered a => exact Response.Answers.later h hu
  | _ => exact h

/-- The load lemma: what is loaded lies between the request and now. -/
theorem Handler.Follows.load {c c' : Handler} (h : c.Follows env r s u) (hu : Since s u)
    (halerts : ∀ limit, u.engine.readAlerts limit =
      u.stored.reverse.take (min (limit.getD 200) alertHistoryCap))
    (hc : c.load u.engine.toAppState = some c') : c'.Follows env r s u := by
  cases c with
  | health =>
    obtain rfl := Option.some.inj hc
    exact ⟨h, hu.processed, le_rfl⟩
  | healthDropped p =>
    obtain rfl := Option.some.inj hc
    exact ⟨h.1, rfl, h.2, hu.dropped, le_rfl⟩
  | stats =>
    obtain rfl := Option.some.inj hc
    exact ⟨h.1, h.2, hu.processed, le_rfl⟩
  | statsDropped p =>
    obtain rfl := Option.some.inj hc
    exact ⟨h.1, h.2.1, h.2.2, hu.dropped, le_rfl⟩
  | statsFired p d =>
    obtain rfl := Option.some.inj hc
    exact ⟨h.1, h.2.1, h.2.2.1, h.2.2.2, hu.fired, le_rfl⟩
  | statsBackpressure p d f =>
    obtain rfl := Option.some.inj hc
    exact ⟨h.1, h.2.1, h.2.2.1, h.2.2.2.1, h.2.2.2.2, h.2.2.2.1.2, le_rfl⟩
  | alerts limit =>
    obtain rfl := Option.some.inj hc
    refine ⟨limit, u.stored.length, h.1, h.2, hu.stored.length_le, le_rfl, ?_⟩
    rw [List.take_length, halerts, alertHistoryCap]
  | idle | answered _ => cases hc

/-- The code 401 is for the refused requests, and for them only. -/
theorem Response.Answers.refuses_iff {a : Response} (h : a.Answers env r s u) :
    a.status = .unauthorized ↔ env.Refuses r := by
  cases a with
  | unauthorized text =>
    obtain ⟨hadmits, hhealth, hlogin, -⟩ := h
    refine iff_of_true rfl ?_
    unfold Environment.Refuses
    split
    · next hr => exact hhealth hr
    · next token hr => exact absurd hr (hlogin token)
    · exact hadmits
  | login status ok =>
    obtain ⟨token, hr, -, hstatus⟩ := h
    have hrefuses : env.Refuses r ↔ token ≠ env.expectedToken := by rw [Environment.Refuses, hr]
    rw [hrefuses, ne_eq, ← hstatus]
    cases status <;> simp [Response.status]
  | health a =>
    obtain ⟨hr, -⟩ := h
    simp [Response.status, Environment.Refuses, hr]
  | stats a =>
    obtain ⟨hr, ha, -⟩ := h
    simp [Response.status, Environment.Refuses, hr, ha]
  | alerts l =>
    obtain ⟨limit, m, hr, ha, -⟩ := h
    simp [Response.status, Environment.Refuses, hr, ha]
  | rules l =>
    obtain ⟨hr, ha, -⟩ := h
    simp [Response.status, Environment.Refuses, hr, ha]

theorem answers_login (env : Environment) (authorization : Option (List UInt8)) (token : String)
    (s u : Server ι n δ) : (env.login token).Answers env ⟨authorization, .login token⟩ s u := by
  rw [Environment.login]
  split
  · next h => exact ⟨token, rfl, iff_of_true rfl (beq_iff_eq.mp h), iff_of_true rfl (beq_iff_eq.mp h)⟩
  · next h =>
    have hne : token ≠ env.expectedToken := fun he => h (beq_iff_eq.mpr he)
    exact ⟨token, rfl, iff_of_false Bool.false_ne_true hne, iff_of_false (by decide) hne⟩

/-- What the router does with a request. -/
theorem follows_serve (env : Environment) (r : Request) (s : Server ι n δ) :
    (env.serve r).Follows env r s s := by
  obtain ⟨authorization, route⟩ := r
  cases route with
  | health => rfl
  | login token => exact answers_login env authorization token s s
  | stats | alerts limit | rules =>
    simp only [Environment.serve, Environment.protect]
    split
    · next ha => simp [Handler.Follows, Response.Answers, ha]
    · next ha => simpa [Handler.Follows, Response.Answers] using ha

end Handlers

variable [DecidableEq ι]

/-- A new request on connection `i`. -/
def Action.requests (i : ι) : Action ι n → Bool
  | .request j _ => j = i
  | _ => false

def Server.setHandler (s : Server ι n δ) (i : ι) (h : Handler) : Server ι n δ :=
  { s with handler := Function.update s.handler i h }

@[simp] theorem handler_setHandler (s : Server ι n δ) (i : ι) (h : Handler) :
    (s.setHandler i h).handler i = h := by simp [Server.setHandler]

theorem handler_setHandler_of_ne (s : Server ι n δ) {i j : ι} (hne : j ≠ i) (h : Handler) :
    (s.setHandler i h).handler j = s.handler j := by simp [Server.setHandler, hne]

def Server.step [NeZero n] (D : Detectors δ) (env : Environment) (s : Server ι n δ) :
    Action ι n → Option (Server ι n δ)
  | .engine a =>
    (Pipeline.step D s.engine a).map fun u =>
      { s with engine := u, stored := s.stored ++ storedAlerts s.engine a }
  | .request i r => if (s.handler i).free then some (s.setHandler i (env.serve r)) else none
  | .load i => ((s.handler i).load s.engine.toAppState).map fun h => s.setHandler i h

/-- The connections `ι` to the pipeline. -/
def server (ι : Type) [DecidableEq ι] (n : Nat) [NeZero n] (D : Detectors δ) (k : Nat)
    (env : Environment) : Guarded.System (Server ι n δ) (Action ι n) where
  init := ⟨(pipeline n D k).init, fun _ => .idle, []⟩
  step := Server.step D env

section Steps
variable [NeZero n] {D : Detectors δ} {env : Environment} {s u : Server ι n δ} {k : Nat}

theorem since_of_step {a : Action ι n} (h : s.step D env a = some u) : Since s u := by
  cases a with
  | engine a =>
    obtain ⟨e, he, rfl⟩ := Option.map_eq_some_iff.mp h
    obtain ⟨hp, hd⟩ := counters_of_stage (stage_of_step he)
    exact ⟨hp, hd, fired_of_step he, List.prefix_append _ _⟩
  | request i r =>
    simp only [Server.step] at h
    split at h
    · obtain rfl := Option.some.inj h
      exact ⟨le_rfl, le_rfl, le_rfl, List.prefix_refl _⟩
    · cases h
  | load i =>
    obtain ⟨c, -, rfl⟩ := Option.map_eq_some_iff.mp h
    exact ⟨le_rfl, le_rfl, le_rfl, List.prefix_refl _⟩

/-- Behind the API the pipeline runs as ever. -/
theorem engine_reachable (hr : (server ι n D k env).Reachable s) :
    ((pipeline n D k).logged storedAlerts).Reachable (s.engine, s.stored) := by
  refine Guarded.System.Reachable.project (fun s => (s.engine, s.stored))
    (Guarded.System.Reachable.start ((pipeline n D k).logged storedAlerts)) (fun s a u _ hs => ?_) hr
  cases a with
  | engine a =>
    obtain ⟨e, he, rfl⟩ := Option.map_eq_some_iff.mp hs
    refine .inr ⟨a, ?_⟩
    simp [Guarded.System.logged, pipeline, he]
  | request i r =>
    simp only [server, Server.step] at hs
    split at hs
    · obtain rfl := Option.some.inj hs
      exact .inl rfl
    · cases hs
  | load i =>
    obtain ⟨c, -, rfl⟩ := Option.map_eq_some_iff.mp hs
    exact .inl rfl

theorem kept_stored (hr : (server ι n D k env).Reachable s) :
    Kept (historyOf (2 ^ k) (Nat.two_pow_pos k) (s.engine, s.stored)) :=
  kept_of_reachable (history_of_pipeline (engine_reachable hr))

/-- The step lemma: a handler follows its request until its connection gets another. -/
theorem follows_of_step {s₀ : Server ι n δ} {r : Request} {i : ι} {a : Action ι n}
    (hr : (server ι n D k env).Reachable s) (hsince : Since s₀ s)
    (h : (s.handler i).Follows env r s₀ s) (ha : a.requests i = false)
    (hs : s.step D env a = some u) : (u.handler i).Follows env r s₀ u := by
  have hlater := since_of_step hs
  cases a with
  | engine a =>
    obtain ⟨e, he, rfl⟩ := Option.map_eq_some_iff.mp hs
    exact h.later hlater
  | request j r' =>
    have hne : i ≠ j := fun he => by simp [Action.requests, he] at ha
    simp only [Server.step] at hs
    split at hs
    · obtain rfl := Option.some.inj hs
      rw [handler_setHandler_of_ne s hne]
      exact h.later hlater
    · cases hs
  | load j =>
    obtain ⟨c, hc, rfl⟩ := Option.map_eq_some_iff.mp hs
    by_cases he : i = j
    · subst he
      rw [handler_setHandler]
      exact (h.load hsince (readAlerts_eq (kept_stored hr).alerts) hc).later hlater
    · rw [handler_setHandler_of_ne s he]
      exact h.later hlater

end Steps

section Runs
variable [NeZero n] {D : Detectors δ} {env : Environment} {s u : Server ι n δ} {k : Nat}

/-- A request comes in on connection `i` at `s` and has its answer at `u`. -/
structure Exchange (D : Detectors δ) (k : Nat) (env : Environment) (i : ι) (r : Request)
    (a : Response) (s u : Server ι n δ) : Prop where
  run : ∃ mid, (server ι n D k env).exec s (.request i r :: mid) = some u ∧
    ∀ b ∈ mid, b.requests i = false
  answer : u.handler i = .answered a

/-- The run lemma. -/
theorem follows_of_run {r : Request} {i : ι} {mid : List (Action ι n)}
    (hr : (server ι n D k env).Reachable s)
    (h : (server ι n D k env).exec s (.request i r :: mid) = some u)
    (hmid : ∀ b ∈ mid, b.requests i = false) :
    (server ι n D k env).Reachable u ∧ Since s u ∧ (u.handler i).Follows env r s u := by
  obtain ⟨m, hm, hrest⟩ := Option.bind_eq_some_iff.mp h
  have hlater : Since s m := since_of_step (show s.step D env (.request i r) = some m from hm)
  refine Guarded.exec_keeps
    (P := fun u => (server ι n D k env).Reachable u ∧ Since s u ∧ (u.handler i).Follows env r s u)
    (fun s' a u' ⟨hr', hsince, hf⟩ ha hs => ?_) ⟨hr.next hm, hlater, ?_⟩ hmid hrest
  · have hs' : s'.step D env a = some u' := hs
    exact ⟨hr'.next hs, hsince.trans (since_of_step hs'), follows_of_step hr' hsince hf ha hs'⟩
  · simp only [server, Server.step] at hm
    split at hm
    · obtain rfl := Option.some.inj hm
      rw [handler_setHandler]
      exact (follows_serve env r s).later hlater
    · cases hm

/-- Whatever the engine and the other connections do meanwhile, an answer holds of the moments
between its request and itself, its code is 401 if and only if the request is refused, and it
never counts more events or shows more alerts than there were. -/
theorem answered_between (hk : 1 ≤ k) (hr : (server ι n D k env).Reachable s) {i : ι} {r : Request}
    {a : Response} (h : Exchange D k env i r a s u) : a.Answers env r s u ∧
      (a.status = .unauthorized ↔ env.Refuses r) ∧
      u.engine.eventsProcessed + u.engine.eventsDropped ≤ u.engine.generated.length ∧
      u.stored.length ≤ u.engine.alertsFired := by
  obtain ⟨mid, hrun, hmid⟩ := h.run
  obtain ⟨hu, -, hfollows⟩ := follows_of_run hr hrun hmid
  rw [h.answer] at hfollows
  have hengine : (pipeline n D k).Reachable u.engine := (engine_reachable hu).of_logged
  have hbalance := (books_of_reachable hk hengine).balance hk
  have hfired := (kept_stored hu).fired
  refine ⟨hfollows, Response.Answers.refuses_iff hfollows, by omega, ?_⟩
  change u.engine.alertsFired = u.stored.length + _ at hfired
  omega

/-- Header values in ASCII, and no variable set. -/
def plainEnvironment : Environment where
  apiToken := none
  toStr bytes :=
    if bytes.all (· < 128) then some (String.ofList (bytes.map fun b => Char.ofNat b.toNat)) else none

def statsRequest : Request where
  authorization := some ("Bearer dev-token-change-me".toList.map fun c => c.toNat.toUInt8)
  route := .stats

/-- While the counters are loaded an event is popped and counted. -/
def loadedWhile : List (Action (Fin 1) 2) :=
  [.load 0] ++ twoProbes.map .engine ++ [.load 0, .load 0, .load 0]

theorem answered_between_loadedWhile :
    let S := server (Fin 1) 2 quietDetectors 1 plainEnvironment
    let u := (S.exec S.init (.request 0 statsRequest :: loadedWhile)).get (by decide +kernel)
    (Response.stats ⟨0, 0, 0, 0⟩).Answers plainEnvironment statsRequest S.init u ∧
      ((Response.stats ⟨0, 0, 0, 0⟩).status = .unauthorized ↔ plainEnvironment.Refuses statsRequest) ∧
      u.engine.eventsProcessed + u.engine.eventsDropped ≤ u.engine.generated.length ∧
      u.stored.length ≤ u.engine.alertsFired :=
  answered_between le_rfl (.start _)
    ⟨⟨loadedWhile, (Option.some_get _).symm, by decide +kernel⟩, by decide +kernel⟩

end Runs

end ThreatEngine.Api
