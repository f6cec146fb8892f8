import ThreatEngine.Lib.Mixing
import ThreatEngine.Models

/-! How `shard_key % worker_count` spreads the addresses of a network. The round
of FNV-1a is a permutation of the low byte, whatever the bytes before and after. -/
namespace ThreatEngine.Pipeline
open Function

/-- The address with the given octets, highest first. -/
def address (o : Fin 4 → UInt8) : UInt32 :=
  ((((o 0).toNat * 256 + (o 1).toNat) * 256 + (o 2).toNat) * 256 + (o 3).toNat).toUInt32

/-- What a round of `fnv` does to the low byte. -/
def lowRound (h b : UInt8) : UInt8 := (h ^^^ b) * 0xB3

theorem octets_address (o : Fin 4 → UInt8) : octets (address o) = [o 0, o 1, o 2, o 3] := by
  have h₀ := (o 0).toNat_lt
  have h₁ := (o 1).toNat_lt
  have h₂ := (o 2).toNat_lt
  have h₃ := (o 3).toNat_lt
  have hvalue : (address o).toNat =
      (((o 0).toNat * 256 + (o 1).toNat) * 256 + (o 2).toNat) * 256 + (o 3).toNat :=
    Nat.mod_eq_of_lt (by omega)
  simp only [octets, List.cons.injEq, ← UInt8.toNat_inj, UInt32.toNat_toUInt8,
    UInt32.toNat_shiftRight, Nat.shiftRight_eq_div_pow, hvalue, and_true]
  refine ⟨?_, ?_, ?_, ?_⟩ <;> simp <;> omega

theorem toUInt8_fnv (bytes : List UInt8) :
    (fnv bytes).toUInt8 = bytes.foldl lowRound (1469598103934665603 : UInt64).toUInt8 := by
  rw [fnv]
  refine (List.foldl_hom UInt64.toUInt8 fun h b => ?_).symm
  have hprime : (1099511628211 : UInt64).toUInt8 = 0xB3 := by decide
  rw [lowRound, UInt64.toUInt8_mul, UInt64.toUInt8_xor, UInt8.toUInt8_toUInt64, hprime]

/-- The prime is odd, so multiplying by it loses nothing. -/
theorem mul_prime_injective : Injective fun x : UInt8 => x * 0xB3 := by
  have hinverse (x : UInt8) : x * 0xB3 * 0x7B = x := by
    rw [UInt8.mul_assoc]
    exact UInt8.mul_one x
  exact LeftInverse.injective (g := fun x => x * 0x7B) hinverse

theorem lowRound_injective_input (h : UInt8) : Injective (lowRound h) := by
  have hself (b : UInt8) : h ^^^ (h ^^^ b) = b := by
    rw [← UInt8.xor_assoc, UInt8.xor_self, UInt8.zero_xor]
  have hxor : Involutive fun b => h ^^^ b := hself
  exact mul_prime_injective.comp hxor.injective

theorem lowRound_injective_state (b : UInt8) : Injective fun h => lowRound h b := by
  intro h h' he
  have hcomm (x : UInt8) : lowRound x b = lowRound b x := by
    rw [lowRound, lowRound, UInt8.xor_comm]
  exact lowRound_injective_input b ((hcomm h).symm.trans (he.trans (hcomm h')))

/-- Varying one octet varies one byte of what is hashed. -/
theorem octets_update (o : Fin 4 → UInt8) (position : Fin 4) : ∃ before after : List UInt8,
    ∀ v, octets (address (update o position v)) = before ++ v :: after := by
  match position with
  | 0 => exact ⟨[], [o 1, o 2, o 3], fun v => octets_address _⟩
  | 1 => exact ⟨[o 0], [o 2, o 3], fun v => octets_address _⟩
  | 2 => exact ⟨[o 0, o 1], [o 3], fun v => octets_address _⟩
  | 3 => exact ⟨[o 0, o 1, o 2], [], fun v => octets_address _⟩

/-- A divisor of 256 sees the low byte only. -/
theorem toNat_mod_of_dvd {n : Nat} (hn : n ∣ 256) (x : UInt64) :
    x.toNat % n = x.toUInt8.toNat % n := by
  rw [UInt64.toNat_toUInt8]
  exact (Nat.mod_mod_of_dvd x.toNat hn).symm

/-- With a number of workers that divides 256, the 256 addresses that differ in
one octet are spread evenly over the workers. -/
theorem shards_balanced {n : Nat} [NeZero n] (hn : n ∣ 256) (event : NetworkEvent)
    (o : Fin 4 → UInt8) (position : Fin 4) (w : Fin n) :
    ((Finset.range 256).filter fun v =>
      ({ event with srcIp := address (update o position v.toUInt8) } :
        NetworkEvent).shard n = w).card =
        256 / n := by
  obtain ⟨before, after, hoctets⟩ := octets_update o position
  have hshard (v : Nat) : ({ event with srcIp := address (update o position v.toUInt8) } :
      NetworkEvent).shard n = w ↔ (fnv (before ++ v.toUInt8 :: after)).toUInt8.toNat % n = w := by
    rw [shard_of_srcIp n rfl, hoctets, ← toNat_mod_of_dvd hn, Fin.ext_iff]
    rfl
  have hinj := Mixing.foldl_injective_at lowRound_injective_state lowRound_injective_input
    (1469598103934665603 : UInt64).toUInt8 before after
  simp only [hshard]
  refine Mixing.card_residue_of_injOn (fun v _ => UInt8.toNat_lt _)
    (fun v hv v' hv' he => ?_) hn w.isLt
  have hbyte : v.toUInt8 = v'.toUInt8 := by
    rw [UInt8.toNat_inj, toUInt8_fnv, toUInt8_fnv] at he
    exact hinj he
  have hmod : v % 256 = v' % 256 := congrArg UInt8.toNat hbyte
  rwa [Nat.mod_eq_of_lt hv, Nat.mod_eq_of_lt hv'] at hmod

/-- 10.10.10.0/24 and four workers. -/
theorem shards_balanced_four :
    ((Finset.range 256).filter fun v =>
      ({ timestampMs := 0, srcIp := address (update (fun _ => 10) 3 v.toUInt8), dstIp := 1,
         srcPort := 1234, dstPort := 80, protocol := .tcp, flags := 1, payloadSample := [] } :
        NetworkEvent).shard 4 = 2).card =
        256 / 4 :=
  shards_balanced (by decide)
    { timestampMs := 0, srcIp := 0, dstIp := 1, srcPort := 1234, dstPort := 80, protocol := .tcp,
      flags := 1, payloadSample := [] } (fun _ => 10) 3 2

end ThreatEngine.Pipeline
