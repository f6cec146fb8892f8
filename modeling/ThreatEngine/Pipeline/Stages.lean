import Mathlib.Data.Fintype.Basic
import ThreatEngine.Models
import ThreatEngine.Queue.Spsc

/-! The producer loop and the worker loops of `pipeline.rs`, one queue for each
worker, with one action for every atomic step. Loops that sleep take no step.
The lists `generated` and `outcomes` only observe the steps; no step reads them. -/
namespace ThreatEngine.Pipeline
open Queue
variable {n : Nat} {δ : Type}

def alertHistoryCap : Nat := 5000

/-- What all threads share, the counters of `Stats` included. These are the source's as long as
none of them has counted to `2 ^ 64`. -/
structure AppState (n : Nat) where
  queues : Fin n → Queue.State Role NetworkEvent
  alerts : List Alert
  eventsProcessed : Nat
  eventsDropped : Nat
  alertsFired : Nat

/-- The first half of `record_alert`. -/
def AppState.countAlert (app : AppState n) : AppState n :=
  { app with alertsFired := app.alertsFired + 1 }

/-- The second half, under the lock. -/
def AppState.storeAlert (app : AppState n) (alert : Alert) : AppState n :=
  let alerts := app.alerts ++ [alert]
  { app with alerts := if alertHistoryCap < alerts.length then alerts.tail else alerts }

/-- The detectors that a worker owns, made when it starts. -/
structure Detectors (δ : Type) where
  fresh : δ
  detect : DetectorKind → Nat → NetworkEvent → δ → δ × List Alert

/-- The producer before the next iteration over its batch, inside `push`, and
with an event that `push` has given back. -/
inductive Producer where
  | batch (rest : List NetworkEvent)
  | pushing (event : NetworkEvent) (rest : List NetworkEvent)
  | dropping (event : NetworkEvent) (rest : List NetworkEvent)
  deriving DecidableEq

/-- A worker before `pop`, inside it, with an event that `pop` has returned, with
alerts to record before it asks the other detectors, and inside `record_alert`. -/
inductive Worker where
  | waiting
  | popping
  | counting (event : NetworkEvent)
  | detecting (event : NetworkEvent) (kinds : List DetectorKind) (alerts : List Alert)
  | storing (event : NetworkEvent) (kinds : List DetectorKind) (alert : Alert) (alerts : List Alert)
  deriving DecidableEq

structure State (n : Nat) (δ : Type) extends AppState n where
  producer : Producer
  worker : Fin n → Worker
  detectors : Fin n → δ
  /-- The events that the producer loop has gone through, in order. -/
  generated : List NetworkEvent
  /-- Those whose push has returned, and whether it returned `Ok`. -/
  outcomes : List (NetworkEvent × Bool)

inductive Action (n : Nat) where
  | nextBatch (events : List NetworkEvent)
  | nextEvent
  | push (spurious : Bool)
  | drop
  | pop (w : Fin n)
  | popStep (w : Fin n) (spurious : Bool)
  | count (w : Fin n)
  | detect (w : Fin n) (now : Nat)
  | fire (w : Fin n)
  | store (w : Fin n)
  | done (w : Fin n)

def State.init (n : Nat) (D : Detectors δ) (capacity : Nat) (h : 0 < capacity) : State n δ where
  queues := fun _ => .init capacity h
  alerts := []
  eventsProcessed := 0
  eventsDropped := 0
  alertsFired := 0
  producer := .batch []
  worker := fun _ => .waiting
  detectors := fun _ => D.fresh
  generated := []
  outcomes := []

def State.setQueue (s : State n δ) (w : Fin n) (q : Queue.State Role NetworkEvent) : State n δ :=
  { s with queues := Function.update s.queues w q }

def State.setWorker (s : State n δ) (w : Fin n) (c : Worker) : State n δ :=
  { s with worker := Function.update s.worker w c }

/-- `match state.queues[shard].push(event)`, once a step of the push has been made. -/
def State.afterPush (s : State n δ) (event : NetworkEvent) (rest : List NetworkEvent) :
    Option (Result NetworkEvent) → State n δ
  | some (.pushed (.ok ())) => { s with producer := .batch rest, outcomes := s.outcomes ++ [(event, true)] }
  | some (.pushed (.error dropped)) =>
    { s with producer := .dropping dropped rest, outcomes := s.outcomes ++ [(event, false)] }
  | _ => s

/-- `match queue.pop()`, once a step of the pop has been made. -/
def State.afterPop (s : State n δ) (w : Fin n) : Option (Result NetworkEvent) → State n δ
  | some (.popped (some event)) => s.setWorker w (.counting event)
  | some (.popped none) => s.setWorker w .waiting
  | _ => s

variable [NeZero n]

def step (D : Detectors δ) (s : State n δ) : Action n → Option (State n δ)
  | .nextBatch events =>
    match s.producer with
    | .batch [] => some { s with producer := .batch events }
    | _ => none
  | .nextEvent =>
    match s.producer with
    | .batch (event :: rest) =>
      ((s.queues (event.shard n)).step (.call .producer (.push event))).map fun q =>
        { s.setQueue (event.shard n) q with
          producer := .pushing event rest
          generated := s.generated ++ [event] }
    | _ => none
  | .push spurious =>
    match s.producer with
    | .pushing event rest =>
      ((s.queues (event.shard n)).step (.step .producer spurious)).map fun q =>
        (s.setQueue (event.shard n) q).afterPush event rest (q.call .producer).result
    | _ => none
  | .drop =>
    match s.producer with
    | .dropping _ rest => some { s with producer := .batch rest, eventsDropped := s.eventsDropped + 1 }
    | _ => none
  | .pop w =>
    match s.worker w with
    | .waiting =>
      ((s.queues w).step (.call .worker .pop)).map fun q => (s.setQueue w q).setWorker w .popping
    | _ => none
  | .popStep w spurious =>
    match s.worker w with
    | .popping =>
      ((s.queues w).step (.step .worker spurious)).map fun q =>
        (s.setQueue w q).afterPop w (q.call .worker).result
    | _ => none
  | .count w =>
    match s.worker w with
    | .counting event =>
      some { s.setWorker w (.detecting event [.signature, .anomaly, .cep] []) with
        eventsProcessed := s.eventsProcessed + 1 }
    | _ => none
  | .detect w now =>
    match s.worker w with
    | .detecting event (kind :: kinds) [] =>
      let r := D.detect kind now event (s.detectors w)
      some { s.setWorker w (.detecting event kinds r.2) with
        detectors := Function.update s.detectors w r.1 }
    | _ => none
  | .fire w =>
    match s.worker w with
    | .detecting event kinds (alert :: alerts) =>
      some { s.setWorker w (.storing event kinds alert alerts) with toAppState := s.countAlert }
    | _ => none
  | .store w =>
    match s.worker w with
    | .storing event kinds alert alerts =>
      some { s.setWorker w (.detecting event kinds alerts) with toAppState := s.storeAlert alert }
    | _ => none
  | .done w =>
    match s.worker w with
    | .detecting _ [] [] => some (s.setWorker w .waiting)
    | _ => none

/-- One producer and `n` workers around queues of capacity `2 ^ k`. -/
def pipeline (n : Nat) [NeZero n] (D : Detectors δ) (k : Nat) : Guarded.System (State n δ)
    (Action n) where
  init := .init n D (2 ^ k) (Nat.two_pow_pos k)
  step := step D

/-- The push of one event, without a failing compare-exchange. -/
def pushOne (n : Nat) : List (Action n) := .nextEvent :: List.replicate 5 (.push false)

/-- A worker takes one event and counts the first alert of its signature detector. -/
def recordOne {n : Nat} (w : Fin n) : List (Action n) :=
  .pop w :: (List.replicate 5 (.popStep w false) ++ [.count w, .detect w 0, .fire w])

/-- It stores the alert, and the other detectors find nothing. -/
def goOn {n : Nat} (w : Fin n) : List (Action n) := [.store w, .detect w 0, .detect w 0, .done w]

end ThreatEngine.Pipeline
