import Mathlib.Data.List.Basic
import Mathlib.Logic.Function.Basic

/-! The packet filter of `xdp_filter.c`. A frame is the bytes from `data` to
`data_end`, a pointer is an offset in it, and a read outside it has no result.
Sizes and offsets of the headers are those of the kernel's structures, and the
kernel's helpers are parameters. -/
namespace ThreatEngine.Capture

/-- `sizeof(struct ethhdr)`, `sizeof(struct iphdr)`. -/
def ethhdrSize : Nat := 14
def iphdrSize : Nat := 20

/-- The protocols whose headers the filter checks. -/
inductive Transport where
  | tcp
  | udp
  deriving DecidableEq

/-- `sizeof(struct tcphdr)`, `sizeof(struct udphdr)`. -/
def Transport.size : Transport → Nat
  | .tcp => 20
  | .udp => 8

/-- `IPPROTO_TCP`, `IPPROTO_UDP`. -/
def Transport.number : Transport → UInt8
  | .tcp => 6
  | .udp => 17

/-- `eth->h_proto == __constant_htons(ETH_P_IP)`, both bytes read. -/
def isIpv4 (frame : List UInt8) : Option Bool := do
  let high ← frame[12]?
  let low ← frame[13]?
  return high == 0x08 && low == 0x00

/-- `ip->ihl`, the low half of the first byte. -/
def ihl (frame : List UInt8) : Option Nat := do
  let first ← frame[ethhdrSize]?
  return (first &&& 0x0F).toNat

/-- `ip->protocol`. -/
def protocol (frame : List UInt8) : Option UInt8 := frame[ethhdrSize + 9]?

/-- The branch for one protocol: its header is looked for at `(void *)ip + (ip->ihl * 4)`. -/
def checkTransport (frame : List UInt8) (t : Transport) : Option Nat := do
  let words ← ihl frame
  if frame.length < ethhdrSize + words * 4 + t.size then return 0
  return 1

def shouldForwardToUserspace (frame : List UInt8) : Option Nat := do
  if frame.length < ethhdrSize then return 0
  if !(← isIpv4 frame) then return 0
  if frame.length < ethhdrSize + iphdrSize then return 0
  let proto ← protocol frame
  if proto = Transport.tcp.number then checkTransport frame .tcp
  else if proto = Transport.udp.number then checkTransport frame .udp
  else return 1

/-- The return codes of an XDP program. -/
inductive XdpAction where
  | aborted
  | drop
  | pass
  | tx
  | redirect
  deriving DecidableEq

/-- The kernel's helpers as the program calls them: `bpf_map_lookup_elem` on `counters`, with
pointers in `π`, and `bpf_redirect_map` on `xsks_map`, whose last argument is an action. -/
structure Helpers (π : Type) where
  bpfMapLookupElem : UInt32 → Option π
  bpfRedirectMap : UInt32 → XdpAction → XdpAction

section Program
variable {π : Type} [DecidableEq π]

def bumpCounter (kernel : Helpers π) (idx : UInt32) (memory : π → UInt64) : π → UInt64 :=
  match kernel.bpfMapLookupElem idx with
  | none => memory
  | some count => Function.update memory count (memory count + 1)

/-- The action, and the memory of the counters afterwards. -/
def xdpFilterProg (kernel : Helpers π) (queue : UInt32) (memory : π → UInt64)
    (frame : List UInt8) : Option (XdpAction × (π → UInt64)) := do
  if (← shouldForwardToUserspace frame) = 0 then
    return (.drop, bumpCounter kernel 0 memory)
  return (kernel.bpfRedirectMap queue .pass, bumpCounter kernel 1 memory)

end Program

/-- An IPv4 frame of a protocol, by its Ethernet type and its protocol field. -/
structure Carries (frame : List UInt8) (t : Transport) : Prop where
  etherType : frame[12]? = some 0x08 ∧ frame[13]? = some 0x00
  protocol : frame[ethhdrSize + 9]? = some t.number

/-- The length of the IP header in bytes, by its length field. -/
def headerLength (frame : List UInt8) : Nat := (frame.getD ethhdrSize 0 &&& 0x0F).toNat * 4

/-- The IP header has its full size, and the transport header after it is in the frame. -/
structure WellFormed (frame : List UInt8) (t : Transport) : Prop where
  header : iphdrSize ≤ headerLength frame
  fits : ethhdrSize + headerLength frame + t.size ≤ frame.length

/-- A TCP or UDP frame is forwarded only if it is well formed, and dropped if it
is not, whatever the kernel's helpers do. -/
def RejectsMalformed (frame : List UInt8) : Prop :=
  ∀ t, Carries frame t → (shouldForwardToUserspace frame = some 1 → WellFormed frame t) ∧
    (¬ WellFormed frame t → ∀ (π : Type) [DecidableEq π] (kernel : Helpers π) queue memory,
      ∃ memory', xdpFilterProg kernel queue memory frame = some (.drop, memory'))

/-- The transport header is in the frame, but it begins inside the IP header. -/
structure Overlapping (frame : List UInt8) (t : Transport) : Prop where
  carries : Carries frame t
  full : ethhdrSize + iphdrSize ≤ frame.length
  short : headerLength frame < iphdrSize
  fits : ethhdrSize + headerLength frame + t.size ≤ frame.length

section Frames
variable {π : Type} [DecidableEq π] {frame : List UInt8} {t : Transport}

theorem checkTransport_eq (frame : List UInt8) (h : ethhdrSize < frame.length) (t : Transport) :
    checkTransport frame t =
      some (if ethhdrSize + headerLength frame + t.size ≤ frame.length then 1 else 0) := by
  have hfirst : frame[ethhdrSize]? = some (frame.getD ethhdrSize 0) := by
    rw [List.getD_eq_getElem?_getD, List.getElem?_eq_getElem h, Option.getD_some]
  have hihl : ihl frame = some (frame.getD ethhdrSize 0 &&& 0x0F).toNat := by
    rw [ihl, hfirst]
    rfl
  rw [checkTransport, hihl, Option.bind_eq_bind, Option.bind_some, headerLength]
  split
  · next hlt => rw [if_neg (Nat.not_le.mpr hlt)]; rfl
  · next hge => rw [if_pos (Nat.not_lt.mp hge)]; rfl

/-- What the filter answers to a TCP or UDP frame. -/
theorem shouldForward_of_carries (h : Carries frame t) : shouldForwardToUserspace frame =
    some (if ethhdrSize + iphdrSize ≤ frame.length ∧
      ethhdrSize + headerLength frame + t.size ≤ frame.length then 1 else 0) := by
  obtain ⟨hlen, -⟩ := List.getElem?_eq_some_iff.mp h.protocol
  have heth : ¬ frame.length < ethhdrSize := by omega
  have hipv4 : isIpv4 frame = some true := by
    rw [isIpv4, h.etherType.1, h.etherType.2]
    rfl
  have hproto : protocol frame = some t.number := h.protocol
  have hcheck := checkTransport_eq frame (by omega)
  by_cases hfull : ethhdrSize + iphdrSize ≤ frame.length
  · have hlt : ¬ frame.length < ethhdrSize + iphdrSize := Nat.not_lt.mpr hfull
    have hbranch : shouldForwardToUserspace frame = checkTransport frame t := by
      cases t with
      | tcp => simp [shouldForwardToUserspace, heth, hipv4, hlt, hproto]
      | udp => simp [shouldForwardToUserspace, heth, hipv4, hlt, hproto, Transport.number]
    rw [hbranch, hcheck]
    simp [hfull]
  · have hlt : frame.length < ethhdrSize + iphdrSize := Nat.not_le.mp hfull
    simp [shouldForwardToUserspace, heth, hipv4, hlt, hfull]

/-- No frame makes the filter read outside it. -/
theorem shouldForward_in_bounds (frame : List UInt8) :
    ∃ verdict, shouldForwardToUserspace frame = some verdict ∧ (verdict = 0 ∨ verdict = 1) := by
  by_cases heth : frame.length < ethhdrSize
  · exact ⟨0, by simp [shouldForwardToUserspace, heth], .inl rfl⟩
  have hlen : 14 ≤ frame.length := Nat.not_lt.mp heth
  have hipv4 : isIpv4 frame = some (frame[12] == 0x08 && frame[13] == 0x00) := by
    rw [isIpv4, List.getElem?_eq_getElem (by omega), List.getElem?_eq_getElem (by omega)]
    rfl
  cases hip : frame[12] == 0x08 && frame[13] == 0x00 with
  | false => exact ⟨0, by simp [shouldForwardToUserspace, heth, hipv4, hip], .inl rfl⟩
  | true =>
    by_cases hfull : frame.length < ethhdrSize + iphdrSize
    · exact ⟨0, by simp [shouldForwardToUserspace, heth, hipv4, hip, hfull], .inl rfl⟩
    have hroom : ethhdrSize + iphdrSize ≤ frame.length := Nat.not_lt.mp hfull
    have hproto : protocol frame =
        some (frame.get ⟨ethhdrSize + 9, Nat.lt_of_lt_of_le (by decide) hroom⟩) :=
      List.getElem?_eq_getElem _
    generalize frame.get _ = proto at hproto
    have hcheck := checkTransport_eq frame (Nat.lt_of_lt_of_le (by decide) hroom)
    have hbit (p : Prop) [Decidable p] : (if p then 1 else 0) = 0 ∨ (if p then 1 else 0) = 1 :=
      (ite_eq_or_eq p 1 0).symm
    by_cases htcp : proto = Transport.tcp.number
    · refine ⟨_, ?_, hbit (ethhdrSize + headerLength frame + Transport.tcp.size ≤ frame.length)⟩
      simp [shouldForwardToUserspace, heth, hipv4, hip, hfull, hproto, htcp, hcheck]
    by_cases hudp : proto = Transport.udp.number
    · refine ⟨_, ?_, hbit (ethhdrSize + headerLength frame + Transport.udp.size ≤ frame.length)⟩
      have hne : Transport.udp.number ≠ Transport.tcp.number := by decide
      simp [shouldForwardToUserspace, heth, hipv4, hip, hfull, hproto, hudp, hne, hcheck]
    · refine ⟨1, ?_, .inr rfl⟩
      simp [shouldForwardToUserspace, heth, hipv4, hip, hfull, hproto, htcp, hudp]

/-- The filter forwards what is well formed. -/
theorem WellFormed.forwarded (h : WellFormed frame t) (hc : Carries frame t) :
    shouldForwardToUserspace frame = some 1 := by
  have hfull : ethhdrSize + iphdrSize ≤ frame.length := by
    have := h.header
    have := h.fits
    omega
  rw [shouldForward_of_carries hc, if_pos ⟨hfull, h.fits⟩]

theorem xdpFilterProg_drop (h : shouldForwardToUserspace frame = some 0) (kernel : Helpers π)
    (queue : UInt32) (memory : π → UInt64) : xdpFilterProg kernel queue memory frame =
      some (.drop, bumpCounter kernel 0 memory) := by
  simp [xdpFilterProg, h]

theorem xdpFilterProg_forward (h : shouldForwardToUserspace frame = some 1) (kernel : Helpers π)
    (queue : UInt32) (memory : π → UInt64) : xdpFilterProg kernel queue memory frame =
      some (kernel.bpfRedirectMap queue .pass, bumpCounter kernel 1 memory) := by
  simp [xdpFilterProg, h]

/-- What is forwarded without an overlap is well formed. -/
theorem wellFormed_of_forwarded (hc : Carries frame t)
    (hforward : shouldForwardToUserspace frame = some 1)
    (hclear : ¬ Overlapping frame t) : WellFormed frame t := by
  rw [shouldForward_of_carries hc] at hforward
  by_cases hfits : ethhdrSize + iphdrSize ≤ frame.length ∧
      ethhdrSize + headerLength frame + t.size ≤ frame.length
  · exact ⟨Nat.not_lt.mp fun hshort => hclear ⟨hc, hfits.1, hshort, hfits.2⟩, hfits.2⟩
  · rw [if_neg hfits] at hforward
    simp at hforward

/-- A TCP or UDP frame is treated as it should be if and only if its transport
header does not begin inside its IP header and lie in the frame. -/
theorem rejects_malformed_iff (frame : List UInt8) :
    RejectsMalformed frame ↔ ∀ t, ¬ Overlapping frame t := by
  constructor
  · intro h t hover
    have hforward : shouldForwardToUserspace frame = some 1 := by
      rw [shouldForward_of_carries hover.carries, if_pos ⟨hover.full, hover.fits⟩]
    exact absurd ((h t hover.carries).1 hforward).header (Nat.not_le.mpr hover.short)
  · intro h t hc
    refine ⟨fun hforward => wellFormed_of_forwarded hc hforward (h t), ?_⟩
    intro hnot π _ kernel queue memory
    obtain ⟨v, hv, rfl | rfl⟩ := shouldForward_in_bounds frame
    · exact ⟨_, xdpFilterProg_drop hv _ _ _⟩
    · exact absurd (wellFormed_of_forwarded hc hv (h t)) hnot

end Frames

/-- The answer to a frame, which is never missing. -/
def verdict (frame : List UInt8) : Nat := (shouldForwardToUserspace frame).getD 0

theorem verdict_eq (frame : List UInt8) : shouldForwardToUserspace frame = some (verdict frame) ∧
    (verdict frame = 0 ∨ verdict frame = 1) := by
  obtain ⟨v, hv, hbit⟩ := shouldForward_in_bounds frame
  rw [verdict, hv]
  exact ⟨rfl, hbit⟩

/-- A TCP segment header laid over an IP header whose length field is 0. -/
def overlappingFrame : List UInt8 :=
  [0, 0, 0, 0, 0, 0, 0, 0, 0, 0, 0, 0, 0x08, 0x00, 0x40, 0, 0, 0, 0, 0, 0, 0, 0, 6] ++
    List.replicate 10 0

theorem overlapping_forwarded : ¬ ∀ frame : List UInt8, RejectsMalformed frame := by
  intro h
  have hcarries : Carries overlappingFrame .tcp := ⟨by decide, by decide⟩
  have hheader := ((h overlappingFrame .tcp hcarries).1 (by decide)).header
  exact absurd hheader (by decide)

end ThreatEngine.Capture
