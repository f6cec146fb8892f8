import ThreatEngine.Api.Requests
import ThreatEngine.Lib.Windows
import ThreatEngine.Pipeline.AlertIdentity
import ThreatEngine.Pipeline.Sequential

/-! `capture_telemetry.py` while it polls the API of a running engine: first the
statistics, then the latest 2000 alerts, of which it keeps those whose key it has
not seen. A poll that fails is given up wherever it stands. -/
namespace ThreatEngine.Analysis
open Pipeline Api
open scoped Queue
variable {ι τ δ : Type} {n : Nat}

/-- Asleep, or in `fetch_json` on a connection. -/
inductive Phase (ι τ : Type) where
  | sleeping
  | stats (t0 : τ) (i : ι)
  | alerts (i : ι)

structure Capture (ι τ : Type) where
  phase : Phase ι τ
  seenIds : List (UInt64 × DetectorKind × String × Int)
  alertRows : List Alert
  statsRows : List (τ × StatsResponse)

/-- The body of the inner loop. -/
def Capture.keep (c : Capture ι τ) (a : Alert) : Capture ι τ :=
  if alertKey a ∈ c.seenIds then c
  else { c with seenIds := c.seenIds ++ [alertKey a], alertRows := c.alertRows ++ [a] }

def Capture.keepAll (c : Capture ι τ) (alerts : List Alert) : Capture ι τ := alerts.foldl Capture.keep c

/-- The API and the script. The numbers `asked` and `covered` only observe. -/
structure Watched (ι τ : Type) (n : Nat) (δ : Type) where
  server : Server ι n δ
  client : Capture ι τ
  /-- How many alerts were stored when the script last asked for alerts. -/
  asked : Nat
  /-- The same for the last request whose answer it has got. -/
  covered : Nat

inductive Action (ι τ : Type) (n : Nat) where
  | server (a : Api.Action ι n)
  | poll (t0 : τ) (i : ι)
  | gotStats (i : ι)
  | gotAlerts
  | fail

/-- The connection that the script waits on. -/
def Phase.connection : Phase ι τ → Option ι
  | .sleeping => none
  | .stats _ i | .alerts i => some i

variable [DecidableEq ι] [NeZero n]

def Watched.step (D : Detectors δ) (env : Environment) (auth : Option (List UInt8))
    (x : Watched ι τ n δ) : Action ι τ n → Option (Watched ι τ n δ)
  | .server a =>
    if x.client.phase.connection.any a.requests then none
    else (x.server.step D env a).map fun s => { x with server := s }
  | .poll t0 i =>
    match x.client.phase with
    | .sleeping =>
      (x.server.step D env (.request i ⟨auth, .stats⟩)).map fun s =>
        { x with server := s, client := { x.client with phase := .stats t0 i } }
    | _ => none
  | .gotStats j =>
    match x.client.phase with
    | .stats t0 i =>
      match x.server.handler i with
      | .answered (.stats r) =>
        (x.server.step D env (.request j ⟨auth, .alerts (some 2000)⟩)).map fun s =>
          { x with
            server := s
            client := { x.client with phase := .alerts j, statsRows := x.client.statsRows ++ [(t0, r)] }
            asked := x.server.stored.length }
      | _ => none
    | _ => none
  | .gotAlerts =>
    match x.client.phase with
    | .alerts i =>
      match x.server.handler i with
      | .answered (.alerts alerts) =>
        some { x with
          client := { x.client.keepAll alerts with phase := .sleeping }
          covered := x.asked }
      | _ => none
    | _ => none
  | .fail =>
    match x.client.phase with
    | .sleeping => none
    | _ => some { x with client := { x.client with phase := .sleeping } }

/-- One run of the script, with the connections `ι`, against a pipeline with its API. -/
def watched (ι τ : Type) [DecidableEq ι] (n : Nat) [NeZero n] (D : Detectors δ) (k : Nat)
    (env : Environment) (auth : Option (List UInt8)) :
    Guarded.System (Watched ι τ n δ) (Action ι τ n) where
  init := ⟨(server ι n D k env).init, ⟨.sleeping, [], [], []⟩, 0, 0⟩
  step := Watched.step D env auth

section Rows
variable {env : Environment} {auth : Option (List UInt8)} {D : Detectors δ} {k : Nat}
  {x y : Watched ι τ n δ}

/-- One row of the statistics is not ahead of another in any column. -/
structure Precedes (t t' : StatsResponse) : Prop where
  processed : t.eventsProcessed ≤ t'.eventsProcessed
  dropped : t.eventsDropped ≤ t'.eventsDropped
  fired : t.alertsFired ≤ t'.alertsFired
  backpressure : t.queueBackpressureEvents ≤ t'.queueBackpressureEvents

/-- A row is not ahead of the engine. -/
structure Counted (t : StatsResponse) (s : Server ι n δ) : Prop where
  processed : t.eventsProcessed ≤ s.engine.eventsProcessed
  dropped : t.eventsDropped ≤ s.engine.eventsDropped
  fired : t.alertsFired ≤ s.engine.alertsFired
  backpressure : t.queueBackpressureEvents ≤ s.engine.eventsDropped

/-- What the request under way is about, since `s`. -/
def Pending (env : Environment) (auth : Option (List UInt8)) (x : Watched ι τ n δ) : Prop :=
  match x.client.phase with
  | .sleeping => True
  | .stats _ i => ∃ s, Since s x.server ∧ (x.server.handler i).Follows env ⟨auth, .stats⟩ s x.server ∧
      ∀ r ∈ x.client.statsRows, Counted r.2 s
  | .alerts i => ∃ s, Since s x.server ∧ s.stored.length = x.asked ∧
      (x.server.handler i).Follows env ⟨auth, .alerts (some 2000)⟩ s x.server

/-- The invariant of the script in any run. -/
structure Polled (env : Environment) (auth : Option (List UInt8)) (x : Watched ι τ n δ) : Prop where
  seen : x.client.seenIds = x.client.alertRows.map alertKey
  distinct : (x.client.alertRows.map alertKey).Nodup
  stored : ∀ a ∈ x.client.alertRows, a ∈ x.server.stored
  counted : ∀ r ∈ x.client.statsRows, Counted r.2 x.server
  ordered : x.client.statsRows.Pairwise fun r r' => Precedes r.2 r'.2
  pending : Pending env auth x

omit [DecidableEq ι] [NeZero n] in
theorem Counted.later {t : StatsResponse} {s u : Server ι n δ} (h : Counted t s) (hu : Since s u) :
    Counted t u :=
  ⟨h.processed.trans hu.processed, h.dropped.trans hu.dropped, h.fired.trans hu.fired,
    h.backpressure.trans hu.dropped⟩

omit [DecidableEq ι] [NeZero n] in
/-- The inner loop keeps by key. -/
theorem keepAll_eq {c : Capture ι τ} (h : c.seenIds = c.alertRows.map alertKey) (alerts : List Alert) :
    c.keepAll alerts = { c with
      alertRows := Windows.keepAll alertKey c.alertRows alerts
      seenIds := (Windows.keepAll alertKey c.alertRows alerts).map alertKey } := by
  induction alerts generalizing c with
  | nil => rw [Windows.keepAll, List.foldl_nil, ← h]; rfl
  | cons a alerts ih =>
    have hkeep : c.keep a = { c with
        alertRows := Windows.keep alertKey c.alertRows a
        seenIds := (Windows.keep alertKey c.alertRows a).map alertKey } := by
      unfold Capture.keep Windows.keep
      rw [h]
      split
      · rw [← h]
      · rw [List.map_append, List.map_singleton]
    change (c.keep a).keepAll alerts = _
    rw [ih (c := c.keep a) (by rw [hkeep]), hkeep]
    rfl

omit [NeZero n] in
theorem since_setHandler (s : Server ι n δ) (i : ι) (c : Handler) : Since s (s.setHandler i c) :=
  ⟨le_rfl, le_rfl, le_rfl, List.prefix_refl _⟩

/-- What a request of the script does to the server. -/
theorem server_request {s u : Server ι n δ} {i : ι} {r : Request}
    (h : s.step D env (.request i r) = some u) :
    Since s u ∧ u.stored = s.stored ∧ (u.handler i).Follows env r s u := by
  simp only [Server.step] at h
  split at h
  · obtain rfl := Option.some.inj h
    refine ⟨since_setHandler s i _, rfl, ?_⟩
    rw [handler_setHandler]
    exact (follows_serve env r s).later (since_setHandler s i _)
  · cases h

/-- A step of the script or of the server that it watches. -/
inductive Turn (D : Detectors δ) (env : Environment) (auth : Option (List UInt8))
    (x : Watched ι τ n δ) : Action ι τ n → Watched ι τ n δ → Prop where
  | server (a s) (ha : ∀ i, x.client.phase.connection = some i → a.requests i = false)
      (hs : x.server.step D env a = some s) : Turn D env auth x (.server a) { x with server := s }
  | poll (t0 i s) (hp : x.client.phase = .sleeping)
      (hs : x.server.step D env (.request i ⟨auth, .stats⟩) = some s) :
      Turn D env auth x (.poll t0 i)
        { x with server := s, client := { x.client with phase := .stats t0 i } }
  | gotStats (t0 i j r s) (hp : x.client.phase = .stats t0 i)
      (hr : x.server.handler i = .answered (.stats r))
      (hs : x.server.step D env (.request j ⟨auth, .alerts (some 2000)⟩) = some s) :
      Turn D env auth x (.gotStats j)
        { x with
          server := s
          client := { x.client with phase := .alerts j, statsRows := x.client.statsRows ++ [(t0, r)] }
          asked := x.server.stored.length }
  | gotAlerts (i alerts) (hp : x.client.phase = .alerts i)
      (hr : x.server.handler i = .answered (.alerts alerts)) :
      Turn D env auth x .gotAlerts
        { x with client := { x.client.keepAll alerts with phase := .sleeping }, covered := x.asked }
  | fail : Turn D env auth x .fail { x with client := { x.client with phase := .sleeping } }

theorem turn_of_step {a : Action ι τ n} (h : x.step D env auth a = some y) :
    Turn D env auth x a y := by
  cases a with
  | server a =>
    simp only [Watched.step] at h
    split at h
    · cases h
    · next hfree =>
      obtain ⟨s, hs, rfl⟩ := Option.map_eq_some_iff.mp h
      refine .server a s (fun i hi => ?_) hs
      rw [hi] at hfree
      simpa using hfree
  | poll t0 i =>
    simp only [Watched.step] at h
    split at h
    · next hp =>
      obtain ⟨s, hs, rfl⟩ := Option.map_eq_some_iff.mp h
      exact .poll t0 i s hp hs
    · cases h
  | gotStats j =>
    simp only [Watched.step] at h
    split at h
    · next t0 i hp =>
      split at h
      · next r hr =>
        obtain ⟨s, hs, rfl⟩ := Option.map_eq_some_iff.mp h
        exact .gotStats t0 i j r s hp hr hs
      · cases h
    · cases h
  | gotAlerts =>
    simp only [Watched.step] at h
    split at h
    · next i hp =>
      split at h
      · next alerts hr =>
        obtain rfl := Option.some.inj h
        exact .gotAlerts i alerts hp hr
      · cases h
    · cases h
  | fail =>
    simp only [Watched.step] at h
    split at h
    · cases h
    · obtain rfl := Option.some.inj h
      exact .fail

/-- Behind the script the API serves as ever. -/
theorem server_reachable (hr : (watched ι τ n D k env auth).Reachable x) :
    (server ι n D k env).Reachable x.server := by
  refine Guarded.System.Reachable.project Watched.server
    (Guarded.System.Reachable.start (server ι n D k env)) (fun x a y _ hstep => ?_) hr
  cases turn_of_step (show x.step D env auth a = some y from hstep) with
  | server a s ha hs => exact .inr ⟨a, hs⟩
  | poll t0 i s hp hs => exact .inr ⟨.request i ⟨auth, .stats⟩, hs⟩
  | gotStats t0 i j r s hp hr hs => exact .inr ⟨.request j ⟨auth, .alerts (some 2000)⟩, hs⟩
  | gotAlerts | fail => exact .inl rfl

/-- A request under way goes on while the server makes a step. -/
theorem Pending.server {a : Api.Action ι n} {s : Server ι n δ}
    (hr : (Api.server ι n D k env).Reachable x.server) (h : Pending env auth x)
    (ha : ∀ i, x.client.phase.connection = some i → a.requests i = false)
    (hs : x.server.step D env a = some s) : Pending env auth { x with server := s } := by
  have hsince := since_of_step hs
  unfold Pending at h ⊢
  split at h
  · next hp =>
    simp only [hp]
  · next t0 i hp =>
    simp only [hp]
    obtain ⟨s₀, hs₀, hf, hrows⟩ := h
    exact ⟨s₀, hs₀.trans hsince, follows_of_step hr hs₀ hf (ha i (by rw [hp]; rfl)) hs, hrows⟩
  · next i hp =>
    simp only [hp]
    obtain ⟨s₀, hs₀, hasked, hf⟩ := h
    exact ⟨s₀, hs₀.trans hsince, hasked, follows_of_step hr hs₀ hf (ha i (by rw [hp]; rfl)) hs⟩

/-- The step lemma. -/
theorem Polled.turn (hr : (Api.server ι n D k env).Reachable x.server) (h : Polled env auth x)
    {a : Action ι τ n} (ht : Turn D env auth x a y) : Polled env auth y := by
  cases ht with
  | server a s ha hs =>
    have hsince := since_of_step hs
    exact ⟨h.seen, h.distinct, fun a ha => hsince.stored.subset (h.stored a ha),
      fun r hm => (h.counted r hm).later hsince, h.ordered, h.pending.server hr ha hs⟩
  | poll t0 i s hp hs =>
    obtain ⟨hsince, -, hf⟩ := server_request hs
    exact ⟨h.seen, h.distinct, fun a ha => hsince.stored.subset (h.stored a ha),
      fun r hm => (h.counted r hm).later hsince, h.ordered, x.server, hsince, hf, h.counted⟩
  | gotStats t0 i j r s hp hans hs =>
    obtain ⟨hsince, hstored, hf⟩ := server_request hs
    have hpending := h.pending
    simp only [Pending, hp, hans] at hpending
    obtain ⟨s₀, hs₀, ⟨-, -, hproc, hdrop, hfire, hback⟩, hrows⟩ := hpending
    have hnew : Counted r x.server := ⟨hproc.2, hdrop.2, hfire.2, hback.2⟩
    refine ⟨h.seen, h.distinct, fun a ha => hsince.stored.subset (h.stored a ha), ?_, ?_,
      x.server, hsince, rfl, hf⟩
    · intro r' hm
      obtain hold | hlast := List.mem_append.mp hm
      · exact (h.counted r' hold).later hsince
      · obtain rfl := List.mem_singleton.mp hlast
        exact hnew.later hsince
    · refine List.pairwise_append.mpr ⟨h.ordered, List.pairwise_singleton .., fun r' hm r'' hlast => ?_⟩
      obtain rfl := List.mem_singleton.mp hlast
      have hbefore := hrows r' hm
      exact ⟨hbefore.processed.trans hproc.1, hbefore.dropped.trans hdrop.1,
        hbefore.fired.trans hfire.1, (hbefore.backpressure.trans hdrop.1).trans hback.1⟩
  | gotAlerts i alerts hp hans =>
    have hpending := h.pending
    simp only [Pending, hp, hans] at hpending
    obtain ⟨s₀, -, -, limit, m, -, -, -, -, rfl⟩ := hpending
    rw [keepAll_eq h.seen]
    refine ⟨rfl, Windows.nodup_keepAll h.distinct _, fun a ha => ?_, h.counted, h.ordered, trivial⟩
    obtain hold | hread := Windows.mem_of_mem_keepAll ha
    · exact h.stored a hold
    · exact List.mem_of_mem_take (List.mem_reverse.mp (List.mem_of_mem_take hread))
  | fail => exact ⟨h.seen, h.distinct, h.stored, h.counted, h.ordered, trivial⟩

theorem polled_of_reachable (hr : (watched ι τ n D k env auth).Reachable x) : Polled env auth x := by
  refine hr.rule (P := Polled env auth) ?_ fun x a y hx h hs =>
    h.turn (server_reachable hx) (turn_of_step hs)
  exact ⟨rfl, List.nodup_nil, by simp [watched], by simp [watched], List.Pairwise.nil, trivial⟩

/-- An answer that the script takes in is shorter than it asked for, or shows an alert that the
script has. -/
def overlapping (x : Watched ι τ n δ) : Action ι τ n → Bool
  | .gotAlerts =>
    match x.client.phase with
    | .alerts i =>
      match x.server.handler i with
      | .answered (.alerts alerts) =>
        alerts.length < 2000 || alerts.any fun a => alertKey a ∈ x.client.seenIds
      | _ => true
    | _ => true
  | _ => true

/-- The script has the first alerts that were stored, as many as it has covered at least. -/
def Covers (x : Watched ι τ n δ) : Prop :=
  ∃ m, x.covered ≤ m ∧ m ≤ x.server.stored.length ∧
    (∀ i, x.client.phase = .alerts i → m ≤ x.asked) ∧
    x.client.alertRows.Perm (x.server.stored.take m)

theorem Covers.turn (hp : Polled env auth x) {a : Action ι τ n} (ht : Turn D env auth x a y)
    (hok : overlapping x a = true) (hkeys : (y.server.stored.map alertKey).Nodup)
    (h : (x.server.stored.map alertKey).Nodup → Covers x) : Covers y := by
  cases ht with
  | server a s ha hs =>
    have hstored := (since_of_step hs).stored
    obtain ⟨m, hc, hm, hasked, hrows⟩ := h (hkeys.sublist (hstored.sublist.map alertKey))
    rw [List.prefix_iff_eq_take.mp hstored, List.take_take, min_eq_left hm] at hrows
    exact ⟨m, hc, hm.trans hstored.length_le, hasked, hrows⟩
  | poll t0 i s hp hs =>
    obtain ⟨-, hstored, -⟩ := server_request hs
    obtain ⟨m, hc, hm, -, hrows⟩ := h (hstored ▸ hkeys)
    refine ⟨m, hc, hstored ▸ hm, fun j hj => by simp at hj, ?_⟩
    rw [hstored]
    exact hrows
  | gotStats t0 i j r s hp hr hs =>
    obtain ⟨-, hstored, -⟩ := server_request hs
    obtain ⟨m, hc, hm, -, hrows⟩ := h (hstored ▸ hkeys)
    refine ⟨m, hc, hstored ▸ hm, fun _ _ => hm, ?_⟩
    rw [hstored]
    exact hrows
  | gotAlerts i alerts hphase hans =>
    obtain ⟨m, -, hm, hasked, hrows⟩ := h hkeys
    have hpending := hp.pending
    simp only [Pending, hphase, hans] at hpending
    obtain ⟨s₀, -, hs₀, limit, m', hroute, -, hlow, hm', rfl⟩ := hpending
    obtain rfl : some 2000 = limit := by simpa using hroute
    have hreach : x.asked ≤ m' := hs₀ ▸ hlow
    simp only [overlapping, hphase, hans, hp.seen, Bool.or_eq_true, decide_eq_true_eq,
      List.any_eq_true] at hok
    rw [keepAll_eq hp.seen]
    exact ⟨m', hreach, hm', fun _ hj => by simp at hj,
      Windows.perm_keepAll hkeys ((hasked i hphase).trans hreach) hm' hrows hok⟩
  | fail =>
    obtain ⟨m, hc, hm, -, hrows⟩ := h hkeys
    exact ⟨m, hc, hm, fun _ hj => by simp at hj, hrows⟩

end Rows

section Runs
variable {env : Environment} {auth : Option (List UInt8)} {D : Detectors δ} {k : Nat}
  {x : Watched ι τ n δ} {run : List (Action ι τ n)}

/-- In every run the script keeps no key twice and nothing that was not stored, and no column of its
statistics ever goes down. -/
theorem captured (h : (watched ι τ n D k env auth).exec (watched ι τ n D k env auth).init run = some x) :
    (x.client.alertRows.map alertKey).Nodup ∧
    (∀ a ∈ x.client.alertRows, a ∈ x.server.stored) ∧
    x.client.statsRows.Pairwise fun r r' => Precedes r.2 r'.2 := by
  have hp := polled_of_reachable ⟨run, h⟩
  exact ⟨hp.distinct, hp.stored, hp.ordered⟩

def pollOne (t0 : Nat) : List (Action (Fin 1) Nat 1) :=
  .poll t0 0 :: (List.replicate 4 (.server (.load 0)) ++ [.gotStats 0, .server (.load 0), .gotAlerts])

/-- A poll after the first of two alerts and one after the second. -/
def twoPolls : List (Action (Fin 1) Nat 1) :=
  (.nextBatch [probe, probe] :: (pushOne 1 ++ recordOne 0 ++ goOn 0)).map
      (fun a => .server (.engine a)) ++ pollOne 0 ++
    (pushOne 1 ++ recordOne 0 ++ goOn 0).map (fun a => .server (.engine a)) ++ pollOne 1

theorem captured_twoPolls :
    let S := watched (Fin 1) Nat 1 announcing 1 plainEnvironment statsRequest.authorization
    let x := (S.exec S.init twoPolls).get (by decide +kernel)
    (x.client.alertRows.map alertKey).Nodup ∧
      (∀ a ∈ x.client.alertRows, a ∈ x.server.stored) ∧
      x.client.statsRows.Pairwise fun r r' => Precedes r.2 r'.2 :=
  captured (Option.some_get _).symm

/-- Where keys tell alerts apart and every answer overlaps with what the script has, it has exactly
the first alerts stored, among them all that were stored when it last asked with success. -/
theorem capture_complete
    (h : (watched ι τ n D k env auth).exec (watched ι τ n D k env auth).init run = some x)
    (hrun : (watched ι τ n D k env auth).Throughout (fun x a => overlapping x a = true) run)
    (hkeys : (x.server.stored.map alertKey).Nodup) :
    ∃ m, x.covered ≤ m ∧ m ≤ x.server.stored.length ∧
      x.client.alertRows.Perm (x.server.stored.take m) := by
  have hrule := hrun.rule (P := fun x => (watched ι τ n D k env auth).Reachable x ∧
      ((x.server.stored.map alertKey).Nodup → Covers x))
    ⟨.start _, fun _ => ⟨0, le_rfl, le_rfl, fun _ hi => by simp [watched] at hi, .nil⟩⟩
    (fun x a y ⟨hr, hx⟩ hok hs => ⟨hr.next hs, fun hy =>
      Covers.turn (polled_of_reachable hr) (turn_of_step hs) hok hy hx⟩) h
  obtain ⟨m, hc, hm, -, hrows⟩ := hrule.2 hkeys
  exact ⟨m, hc, hm, hrows⟩

theorem capture_complete_twoPolls :
    let S := watched (Fin 1) Nat 1 announcing 1 plainEnvironment statsRequest.authorization
    let x := (S.exec S.init twoPolls).get (by decide +kernel)
    ∃ m, x.covered ≤ m ∧ m ≤ x.server.stored.length ∧
      x.client.alertRows.Perm (x.server.stored.take m) :=
  capture_complete (Option.some_get _).symm (Guarded.throughout_of_checks (by decide +kernel))
    (by decide +kernel)

end Runs

end ThreatEngine.Analysis
