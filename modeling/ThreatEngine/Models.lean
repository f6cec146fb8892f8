import Mathlib.Algebra.GroupWithZero.Nat
import Mathlib.Data.List.Basic

/-! The data types of `models.rs` that flow through the engine, the key by which
events are routed to workers, and the texts of addresses and durations. -/
namespace ThreatEngine

inductive Protocol where
  | tcp
  | udp
  | icmp
  deriving DecidableEq

structure NetworkEvent where
  timestampMs : Int
  srcIp : UInt32
  dstIp : UInt32
  srcPort : UInt16
  dstPort : UInt16
  protocol : Protocol
  /-- SYN=1, ACK=2, FIN=4, RST=8. -/
  flags : UInt8
  payloadSample : List UInt8
  deriving DecidableEq

def NetworkEvent.isSyn (event : NetworkEvent) : Bool :=
  event.flags &&& 1 != 0 && event.flags &&& 2 == 0

/-- The four octets of an address, highest first. -/
def octets (ip : UInt32) : List UInt8 :=
  [(ip >>> 24).toUInt8, (ip >>> 16).toUInt8, (ip >>> 8).toUInt8, ip.toUInt8]

/-- FNV-1a. -/
def fnv (bytes : List UInt8) : UInt64 :=
  bytes.foldl (fun h b => (h ^^^ b.toUInt64) * 1099511628211) 1469598103934665603

/-- Over the octets of the source address only. -/
def NetworkEvent.shardKey (event : NetworkEvent) : UInt64 := fnv (octets event.srcIp)

/-- Over the 5-tuple, as far as it has one: both addresses and both ports. -/
def NetworkEvent.flowKey (event : NetworkEvent) : UInt64 :=
  fnv (octets event.srcIp ++ octets event.dstIp ++ [(event.srcPort >>> 8).toUInt8,
    event.srcPort.toUInt8, (event.dstPort >>> 8).toUInt8, event.dstPort.toUInt8])

/-- `(event.shard_key() as usize) % worker_count`. -/
def NetworkEvent.shard (workerCount : Nat) [NeZero workerCount] (event : NetworkEvent) :
    Fin workerCount :=
  Fin.ofNat workerCount event.shardKey.toNat

/-- The decimal text of one octet. -/
def octetText (octet : UInt32) : List Char := Nat.toDigits 10 octet.toNat

def ipToString (ip : UInt32) : String :=
  String.ofList (octetText ((ip >>> 24) &&& 0xFF) ++ '.' :: (octetText ((ip >>> 16) &&& 0xFF) ++
    '.' :: (octetText ((ip >>> 8) &&& 0xFF) ++ '.' :: octetText (ip &&& 0xFF))))

/-- The digits of a fraction, without trailing zeros. -/
def fractionDigits : Nat → Nat → List Char
  | 0, _ => []
  | width + 1, n =>
    if n = 0 then [] else Nat.digitChar (n / 10 ^ width) :: fractionDigits width (n % 10 ^ width)

def decimalText (whole fraction width : Nat) (unit : String) : String :=
  toString whole ++ (if fraction = 0 then "" else "." ++ String.ofList (fractionDigits width fraction)) ++ unit

/-- The `Debug` text of a duration. -/
def durationText (ns : Nat) : String :=
  if 1000000000 ≤ ns then decimalText (ns / 1000000000) (ns % 1000000000) 9 "s"
  else if 1000000 ≤ ns then decimalText (ns / 1000000) (ns % 1000000) 6 "ms"
  else if 1000 ≤ ns then decimalText (ns / 1000) (ns % 1000) 3 "µs"
  else decimalText ns 0 0 "ns"

inductive Severity where
  | low
  | medium
  | high
  | critical
  deriving DecidableEq

inductive DetectorKind where
  | signature
  | anomaly
  | cep
  deriving DecidableEq

structure Alert where
  id : UInt64
  timestampMs : Int
  ruleName : String
  severity : Severity
  srcIp : String
  dstIp : String
  detail : String
  detector : DetectorKind
  deriving DecidableEq

/-- All fields except `id`. -/
def Alert.body (alert : Alert) : Alert := { alert with id := 0 }

/-- Events of one source all go to one worker. -/
theorem shard_of_srcIp (n : Nat) [NeZero n] {event : NetworkEvent} {s : UInt32}
    (h : event.srcIp = s) : event.shard n = Fin.ofNat n (fnv (octets s)).toNat := by
  rw [NetworkEvent.shard, NetworkEvent.shardKey, h]

/-- The number written by a list of digits. -/
def readDigits (ds : List Char) : Nat := ds.foldl (fun n c => n * 10 + (c.toNat - 48)) 0

theorem readDigits_octet : ∀ n : Fin 256, readDigits (Nat.toDigits 10 n) = n := by decide +kernel

theorem toNat_and_octet (x : UInt32) : (x &&& 0xFF).toNat = x.toNat % 256 := by
  rw [UInt32.toNat_and]
  exact Nat.and_two_pow_sub_one_eq_mod x.toNat 8

theorem octetText_inj {x y : UInt32} (h : octetText (x &&& 0xFF) = octetText (y &&& 0xFF)) :
    x.toNat % 256 = y.toNat % 256 := by
  unfold octetText at h
  rw [toNat_and_octet, toNat_and_octet] at h
  have hx := readDigits_octet ⟨x.toNat % 256, Nat.mod_lt _ (by decide)⟩
  have hy := readDigits_octet ⟨y.toNat % 256, Nat.mod_lt _ (by decide)⟩
  exact hx.symm.trans ((congrArg readDigits h).trans hy)

theorem takeWhile_octetText (x : UInt32) (l : List Char) :
    (octetText x ++ '.' :: l).takeWhile Char.isDigit = octetText x := by
  have hdigit : ∀ c ∈ octetText x, c.isDigit = true := fun c hc =>
    Nat.isDigit_of_mem_toDigits (by decide) (by decide) hc
  rw [List.takeWhile_append_of_pos hdigit]
  simp

/-- Digits up to a dot can be told from what follows. -/
theorem octetText_dot_inj {x y : UInt32} {l l' : List Char}
    (h : octetText (x &&& 0xFF) ++ '.' :: l = octetText (y &&& 0xFF) ++ '.' :: l') :
    x.toNat % 256 = y.toNat % 256 ∧ l = l' := by
  have hd := congrArg (List.takeWhile Char.isDigit) h
  rw [takeWhile_octetText, takeWhile_octetText] at hd
  rw [hd] at h
  exact ⟨octetText_inj hd, (List.cons.inj (List.append_cancel_left h)).2⟩

theorem ipToString_inj {ip ip' : UInt32} : ipToString ip = ipToString ip' ↔ ip = ip' := by
  refine ⟨fun h => ?_, fun h => congrArg _ h⟩
  have h := String.ofList_injective h
  obtain ⟨h₁, h⟩ := octetText_dot_inj h
  obtain ⟨h₂, h⟩ := octetText_dot_inj h
  obtain ⟨h₃, h⟩ := octetText_dot_inj h
  have h₄ := octetText_inj h
  apply UInt32.toNat_inj.mp
  simp only [UInt32.toNat_shiftRight, Nat.shiftRight_eq_div_pow] at h₁ h₂ h₃
  have := ip.toNat_lt
  have := ip'.toNat_lt
  simp at h₁ h₂ h₃
  omega

end ThreatEngine
