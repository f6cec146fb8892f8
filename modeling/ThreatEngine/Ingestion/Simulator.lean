import ThreatEngine.Lib.Utf8
import ThreatEngine.Models

/-! The packet-event simulator of `ingestion.rs`. The clock and the random
generator of the host are a parameter: every reading and every draw may depend
on all that came before it. -/
namespace ThreatEngine.Ingestion
variable {σ : Type}

/-- `now_ms` and `gen_range`, over the states of the host. -/
structure Host (σ : Type) where
  nowMs : σ → Int × σ
  genRange : (low high : Nat) → low < high → σ → {r : Nat // low ≤ r ∧ r < high} × σ

structure Simulator where
  tick : UInt64

def Simulator.new : Simulator := ⟨0⟩

/-- `gen_range(low..high)`. -/
def Host.draw (host : Host σ) (low high : Nat) (h : low < high) :
    StateM σ {r : Nat // low ≤ r ∧ r < high} :=
  host.genRange low high h

def normalPayload : List UInt8 := Utf8.ascii "GET /index.html HTTP/1.1"

def badPayload : List UInt8 := Utf8.ascii "GET /../../etc/passwd HTTP/1.1"

/-- 192.168.1.1. -/
def target : UInt32 := 0xC0A80101

def normalPorts : List UInt16 := [80, 443, 22, 53]

def Host.benignEvent (host : Host σ) : StateM σ NetworkEvent := do
  let timestampMs ← host.nowMs
  let srcIp ← host.draw 0 (2 ^ 32 - 1) (by decide)
  let srcPort ← host.draw 1024 65535 (by decide)
  let port ← host.draw 0 4 (by decide)
  return {
    timestampMs
    srcIp := srcIp.val.toUInt32
    dstIp := target
    srcPort := srcPort.val.toUInt16
    dstPort := normalPorts.get ⟨port, port.property.2⟩
    protocol := .tcp
    flags := 3
    payloadSample := normalPayload }

/-- An event of an injected attack: its source, its destination port, its flags and its payload. -/
def Host.attackEvent (host : Host σ) (srcIp : UInt32) (dstPort : UInt16) (flags : UInt8)
    (payload : List UInt8) : StateM σ NetworkEvent := do
  let timestampMs ← host.nowMs
  let srcPort ← host.draw 1024 65535 (by decide)
  return {
    timestampMs
    srcIp
    dstIp := target
    srcPort := srcPort.val.toUInt16
    dstPort
    protocol := .tcp
    flags
    payloadSample := payload }

/-- `gen_range(0..255) as u32 | 0x0A00_0000`. -/
def Host.attackerIp (host : Host σ) : StateM σ UInt32 := do
  let low ← host.draw 0 255 (by decide)
  return low.val.toUInt32 ||| 0x0A000000

/-- `for _ in 0..n`. -/
def repeated (n : Nat) (event : StateM σ NetworkEvent) : StateM σ (List NetworkEvent) :=
  (List.replicate n event).mapM id

def Host.floodBurst (host : Host σ) : StateM σ (List NetworkEvent) := do
  let attacker ← host.attackerIp
  repeated 80 (host.attackEvent attacker 80 1 [])

def Host.badRequest (host : Host σ) : StateM σ (List NetworkEvent) := do
  let event ← host.benignEvent
  return [{ event with payloadSample := badPayload }]

def Host.probeThenExploit (host : Host σ) : StateM σ (List NetworkEvent) := do
  let prober ← host.attackerIp
  let probe ← host.attackEvent prober 80 1 []
  let exploit ← host.attackEvent prober 80 3 badPayload
  return [probe, exploit]

/-- `(1..40).map(|i| 1000 + i * 7)`. -/
def scannedPorts : List UInt16 := (List.range' 1 39).map fun i => (1000 + i * 7).toUInt16

def Host.portScan (host : Host σ) : StateM σ (List NetworkEvent) := do
  let scanner ← host.attackerIp
  scannedPorts.mapM fun port => host.attackEvent scanner port 1 []

/-- What is injected on the ticks that `period` divides. -/
def every (period tick : UInt64) (burst : StateM σ (List NetworkEvent)) :
    StateM σ (List NetworkEvent) :=
  if tick % period = 0 then burst else pure []

def Host.nextBatch (host : Host σ) (sim : Simulator) : StateM σ (List NetworkEvent × Simulator) := do
  let tick := sim.tick + 1
  let normalCount ← host.draw 20 60 (by decide)
  let normal ← repeated normalCount.val host.benignEvent
  let flood ← every 500 tick host.floodBurst
  let bad ← every 733 tick host.badRequest
  let exploit ← every 900 tick host.probeThenExploit
  let scan ← every 611 tick host.portScan
  return (normal ++ flood ++ bad ++ exploit ++ scan, ⟨tick⟩)

/-- Normal handshake traffic to one of the four ports. -/
structure Benign (event : NetworkEvent) : Prop where
  port : event.dstPort ∈ normalPorts
  flags : event.flags = 3
  payload : event.payloadSample = normalPayload

/-- A SYN without ACK, or a request with a known-bad payload. -/
def Attack (event : NetworkEvent) : Prop :=
  event.flags = 1 ∧ event.payloadSample = [] ∨ event.payloadSample = badPayload

/-- What holds of every result of a computation on the host. -/
def Always {α : Type} (m : StateM σ α) (P : α → Prop) : Prop := ∀ w, P (m w).1

section Batches
variable {α β : Type} {host : Host σ}

theorem Always.bind {m : StateM σ α} {f : α → StateM σ β} {P : α → Prop} {Q : β → Prop}
    (hm : Always m P) (hf : ∀ a, P a → Always (f a) Q) : Always (m >>= f) Q :=
  fun w => hf _ (hm w) _

theorem Always.pure {P : α → Prop} {a : α} (h : P a) : Always (σ := σ) (Pure.pure a) P := fun _ => h

theorem always_mapM {f : α → StateM σ β} {Q : β → Prop} {as : List α}
    (h : ∀ a ∈ as, Always (f a) Q) : Always (as.mapM f) fun bs => ∀ b ∈ bs, Q b := by
  induction as with
  | nil => exact .pure (fun _ hb => absurd hb List.not_mem_nil)
  | cons a as ih =>
    rw [List.mapM_cons]
    refine (h a List.mem_cons_self).bind fun b hb =>
      (ih fun a' ha' => h a' (List.mem_cons_of_mem a ha')).bind fun bs hbs => .pure ?_
    exact List.forall_mem_cons.mpr ⟨hb, hbs⟩

theorem always_true (m : StateM σ α) : Always m fun _ => True := fun _ => trivial

theorem benign_benignEvent (host : Host σ) : Always host.benignEvent Benign := by
  refine (always_true _).bind fun _ _ => (always_true _).bind fun _ _ => (always_true _).bind fun _ _ =>
    (always_true _).bind fun port _ => .pure ⟨List.get_mem _ _, rfl, rfl⟩

theorem attack_attackEvent (host : Host σ) (srcIp : UInt32) (dstPort : UInt16) {flags : UInt8}
    {payload : List UInt8} (h : flags = 1 ∧ payload = [] ∨ payload = badPayload) :
    Always (host.attackEvent srcIp dstPort flags payload) Attack :=
  (always_true _).bind fun _ _ => (always_true _).bind fun _ _ => .pure h

theorem always_every {P : NetworkEvent → Prop} {burst : StateM σ (List NetworkEvent)}
    (h : Always burst fun events => ∀ event ∈ events, P event) (period tick : UInt64) :
    Always (every period tick burst) fun events => ∀ event ∈ events, P event := by
  unfold every
  split
  · exact h
  · exact .pure (by simp)

theorem always_repeated {P : NetworkEvent → Prop} {event : StateM σ NetworkEvent}
    (h : Always event P) (n : Nat) :
    Always (repeated n event) fun events => ∀ event ∈ events, P event :=
  always_mapM fun _ hm => (List.eq_of_mem_replicate hm) ▸ h

/-- Every event of a batch is benign or part of an attack. -/
theorem benign_or_attack (host : Host σ) (sim : Simulator) :
    Always (host.nextBatch sim) fun r => ∀ event ∈ r.1, Benign event ∨ Attack event := by
  have hflood : Always host.floodBurst fun events => ∀ event ∈ events, Attack event :=
    (always_true _).bind fun _ _ =>
      always_repeated (attack_attackEvent host _ _ (Or.inl ⟨rfl, rfl⟩)) 80
  have hbad : Always host.badRequest fun events => ∀ event ∈ events, Attack event :=
    (always_true _).bind fun event _ => .pure (List.forall_mem_singleton.mpr (Or.inr rfl))
  have hexploit : Always host.probeThenExploit fun events => ∀ event ∈ events, Attack event :=
    (always_true _).bind fun _ _ =>
      (attack_attackEvent host _ _ (Or.inl ⟨rfl, rfl⟩)).bind fun _ hprobe =>
        (attack_attackEvent host _ _ (Or.inr rfl)).bind fun _ hexploit =>
          .pure (List.forall_mem_cons.mpr ⟨hprobe, List.forall_mem_singleton.mpr hexploit⟩)
  have hscan : Always host.portScan fun events => ∀ event ∈ events, Attack event :=
    (always_true _).bind fun _ _ =>
      always_mapM fun _ _ => attack_attackEvent host _ _ (Or.inl ⟨rfl, rfl⟩)
  refine (always_true _).bind fun normalCount _ =>
    (always_repeated (benign_benignEvent host) normalCount.val).bind fun normal hnormal =>
    (always_every hflood _ _).bind fun flood hflood => (always_every hbad _ _).bind fun bad hbad =>
    (always_every hexploit _ _).bind fun exploit hexploit =>
    (always_every hscan _ _).bind fun scan hscan => .pure fun event hevent => ?_
  simp only [List.mem_append] at hevent
  obtain (((hevent | hevent) | hevent) | hevent) | hevent := hevent
  · exact Or.inl (hnormal event hevent)
  · exact Or.inr (hflood event hevent)
  · exact Or.inr (hbad event hevent)
  · exact Or.inr (hexploit event hevent)
  · exact Or.inr (hscan event hevent)

end Batches

end ThreatEngine.Ingestion
