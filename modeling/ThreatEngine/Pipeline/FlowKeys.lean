import Mathlib.Data.List.Induction
import Mathlib.Tactic.LinearCombination
import ThreatEngine.Lib.Mixing
import ThreatEngine.Models

/-! What the keys of `models.rs` tell apart. Up to four bytes in a row FNV-1a loses
nothing, whatever was hashed before them: two states that differ by little are
taken far from one another by the prime, whose residue modulo 2^40 is 435. -/
namespace ThreatEngine.Pipeline

def fnvRound (h : UInt64) (b : UInt8) : UInt64 := (h ^^^ b.toUInt64) * 1099511628211

/-- The difference of two states is, modulo 2^40, a multiple of 435 that is not large. -/
def Spread (bound : Int) (h h' : UInt64) : Prop :=
  ∃ m : Int, -bound ≤ m ∧ m ≤ bound ∧ 1099511627776 ∣ (h.toNat : Int) - h'.toNat - 435 * m

/-- How large after some rounds. -/
def spreadBound : Nat → Int
  | 0 => 0
  | n + 1 => 435 * spreadBound n + 510

section Rounds
variable {h h' : UInt64} {b b' : UInt8}

/-- A byte changes the low byte only. -/
theorem toNat_xor_byte (h : UInt64) (b : UInt8) :
    (h ^^^ b.toUInt64).toNat / 256 = h.toNat / 256 := by
  have hb : b.toUInt64.toNat / 2 ^ 8 = 0 := by
    rw [UInt8.toNat_toUInt64]
    exact Nat.div_eq_of_lt b.toNat_lt
  have hdiv := Nat.xor_div_two_pow (a := h.toNat) (b := b.toUInt64.toNat) (n := 8)
  rw [UInt64.toNat_xor]
  rwa [hb, Nat.xor_zero] at hdiv

/-- A round modulo 2^40. -/
theorem toNat_fnvRound (h : UInt64) (b : UInt8) :
    (1099511627776 : Int) ∣ (fnvRound h b).toNat - 435 * (h ^^^ b.toUInt64).toNat := by
  have hmul : (fnvRound h b).toNat = (h ^^^ b.toUInt64).toNat * 1099511628211 % 2 ^ 64 := by
    rw [fnvRound, UInt64.toNat_mul]
    rfl
  rw [hmul]
  generalize (h ^^^ b.toUInt64).toNat = x
  have hmod := Nat.mod_add_div (x * 1099511628211) (2 ^ 64)
  refine ⟨x - 16777216 * ((x * 1099511628211 / 2 ^ 64 : Nat) : Int), ?_⟩
  omega

/-- The step lemma. -/
theorem Spread.round {bound : Int} (hs : Spread bound h h') (b b' : UInt8) :
    Spread (435 * bound + 510) (fnvRound h b) (fnvRound h' b') := by
  obtain ⟨m, hlow, hhigh, k, hk⟩ := hs
  have hx := toNat_xor_byte h b
  have hx' := toNat_xor_byte h' b'
  obtain ⟨i, hi⟩ := toNat_fnvRound h b
  obtain ⟨j, hj⟩ := toNat_fnvRound h' b'
  refine ⟨435 * m + ((h ^^^ b.toUInt64).toNat - h.toNat - ((h' ^^^ b'.toUInt64).toNat - h'.toNat)),
    by omega, by omega, i - j + 435 * k, ?_⟩
  linear_combination hi - hj + 435 * hk

/-- States that differ in the low byte only are not spread. -/
theorem Spread.eq_of_div {bound : Int} (hs : Spread bound h h')
    (hbound : 435 * bound + 255 < 1099511627776) (hdiv : h.toNat / 256 = h'.toNat / 256) : h = h' := by
  obtain ⟨m, hlow, hhigh, k, hk⟩ := hs
  have hzero : k = 0 := by omega
  apply UInt64.toNat_inj.mp
  omega

/-- The prime is odd, so multiplying by it loses nothing. -/
theorem xor_eq_of_fnvRound (he : fnvRound h b = fnvRound h' b') :
    h ^^^ b.toUInt64 = h' ^^^ b'.toUInt64 := by
  have hinverse (x : UInt64) : x * 1099511628211 * 14886173955864302971 = x := by
    rw [UInt64.mul_assoc]
    exact UInt64.mul_one x
  rw [← hinverse (h ^^^ b.toUInt64), ← hinverse (h' ^^^ b'.toUInt64)]
  exact congrArg (· * 14886173955864302971) he

theorem eq_of_fnvRound (he : fnvRound h b = fnvRound h b') : b = b' := by
  have hxor := congrArg (h ^^^ ·) (xor_eq_of_fnvRound he)
  simp only [← UInt64.xor_assoc, UInt64.xor_self, UInt64.zero_xor] at hxor
  exact UInt8.toUInt64_inj.mp hxor

/-- Different states stay different. -/
theorem fnvRound_injective (b : UInt8) : Function.Injective fun h => fnvRound h b := by
  intro h h' he
  have hxor := congrArg (· ^^^ b.toUInt64) (xor_eq_of_fnvRound he)
  simpa only [UInt64.xor_assoc, UInt64.xor_self, UInt64.xor_zero] using hxor

end Rounds

section Blocks
variable {bs bs' : List UInt8}

theorem exists_concat {b : UInt8} (hlen : (bs ++ [b]).length = bs'.length) :
    ∃ cs c, bs' = cs ++ [c] ∧ bs.length = cs.length := by
  obtain rfl | ⟨cs, c, rfl⟩ := List.eq_nil_or_concat bs'
  · simp at hlen
  · exact ⟨cs, c, List.concat_eq_append, by simpa using hlen⟩

/-- The run lemma: what the same number of bytes makes of one state. -/
theorem spread_foldl (h : UInt64) (hlen : bs.length = bs'.length) :
    Spread (spreadBound bs.length) (bs.foldl fnvRound h) (bs'.foldl fnvRound h) := by
  induction bs using List.reverseRecOn generalizing bs' with
  | nil =>
    obtain rfl := List.length_eq_zero_iff.mp hlen.symm
    exact ⟨0, by decide, by decide, by simp⟩
  | append_singleton bs b ih =>
    obtain ⟨cs, c, rfl, hcs⟩ := exists_concat hlen
    rw [List.foldl_concat, List.foldl_concat, List.length_append, List.length_singleton]
    exact (ih hcs).round b c

theorem spreadBound_small : ∀ n ≤ 3, 435 * spreadBound n + 255 < 1099511627776 := by decide

/-- Four bytes lose nothing of what was hashed before them, and nothing of them is lost. -/
theorem foldl_fnvRound_inj {h : UInt64} (hlen : bs.length = bs'.length) (hfew : bs.length ≤ 4)
    (he : bs.foldl fnvRound h = bs'.foldl fnvRound h) : bs = bs' := by
  induction bs using List.reverseRecOn generalizing bs' with
  | nil => exact (List.length_eq_zero_iff.mp hlen.symm).symm
  | append_singleton bs b ih =>
    obtain ⟨cs, c, rfl, hcs⟩ := exists_concat hlen
    rw [List.length_append, List.length_singleton] at hfew
    rw [List.foldl_concat, List.foldl_concat] at he
    have hdiv : (bs.foldl fnvRound h).toNat / 256 = (cs.foldl fnvRound h).toNat / 256 := by
      have hxor := toNat_xor_byte (bs.foldl fnvRound h) b
      rwa [xor_eq_of_fnvRound he, toNat_xor_byte, eq_comm] at hxor
    have hstate : bs.foldl fnvRound h = cs.foldl fnvRound h :=
      (spread_foldl h hcs).eq_of_div (spreadBound_small _ (by omega)) hdiv
    rw [hstate] at he
    rw [ih hcs (by omega) hstate, eq_of_fnvRound he]

/-- Four bytes anywhere in what is hashed. -/
theorem fnv_block_inj (before bs bs' after : List UInt8) (hlen : bs.length = bs'.length)
    (hfew : bs.length ≤ 4) :
    fnv (before ++ bs ++ after) = fnv (before ++ bs' ++ after) ↔ bs = bs' := by
  refine ⟨fun he => ?_, fun h => by rw [h]⟩
  change (before ++ bs ++ after).foldl fnvRound _ = (before ++ bs' ++ after).foldl fnvRound _ at he
  simp only [List.foldl_append] at he
  exact foldl_fnvRound_inj hlen hfew (Mixing.foldl_injective fnvRound_injective after he)

end Blocks

section Keys

theorem octets_inj {ip ip' : UInt32} : octets ip = octets ip' ↔ ip = ip' := by
  refine ⟨fun h => UInt32.toNat_inj.mp ?_, fun h => congrArg _ h⟩
  simp only [octets, List.cons.injEq, ← UInt8.toNat_inj, UInt32.toNat_toUInt8,
    UInt32.toNat_shiftRight, Nat.shiftRight_eq_div_pow, and_true] at h
  have := ip.toNat_lt
  have := ip'.toNat_lt
  simp at h
  omega

/-- The bytes of two ports. -/
def portOctets (p q : UInt16) : List UInt8 :=
  [(p >>> 8).toUInt8, p.toUInt8, (q >>> 8).toUInt8, q.toUInt8]

theorem portOctets_inj {p p' q q' : UInt16} : portOctets p q = portOctets p' q' ↔ p = p' ∧ q = q' := by
  refine ⟨fun h => ?_, fun ⟨hp, hq⟩ => by rw [hp, hq]⟩
  simp only [portOctets, List.cons.injEq, ← UInt8.toNat_inj, UInt16.toNat_toUInt8, UInt16.toNat_shiftRight,
    Nat.shiftRight_eq_div_pow, and_true] at h
  have := p.toNat_lt
  have := p'.toNat_lt
  have := q.toNat_lt
  have := q'.toNat_lt
  simp at h
  exact ⟨UInt16.toNat_inj.mp (by omega), UInt16.toNat_inj.mp (by omega)⟩

/-- Events have the same shard key only if they have the same source, and the flow key changes
with the source address alone, with the destination address alone, and with the ports alone. -/
theorem keys_distinguish (event event' : NetworkEvent) (s d : UInt32) (p q : UInt16) :
    (event.shardKey = event'.shardKey ↔ event.srcIp = event'.srcIp) ∧
    ({ event with srcIp := s }.flowKey = event.flowKey ↔ s = event.srcIp) ∧
    ({ event with dstIp := d }.flowKey = event.flowKey ↔ d = event.dstIp) ∧
    ({ event with srcPort := p, dstPort := q }.flowKey = event.flowKey ↔
      p = event.srcPort ∧ q = event.dstPort) := by
  refine ⟨?_, ?_, ?_, ?_⟩
  · have hblock := fnv_block_inj [] (octets event.srcIp) (octets event'.srcIp) [] rfl (Nat.le_refl 4)
    rw [List.append_nil, List.append_nil] at hblock
    exact hblock.trans octets_inj
  · have hblock := fnv_block_inj [] (octets s) (octets event.srcIp)
      (octets event.dstIp ++ portOctets event.srcPort event.dstPort) rfl (Nat.le_refl 4)
    exact hblock.trans octets_inj
  · have hblock := fnv_block_inj (octets event.srcIp) (octets d) (octets event.dstIp)
      (portOctets event.srcPort event.dstPort) rfl (Nat.le_refl 4)
    exact hblock.trans octets_inj
  · have hblock := fnv_block_inj (octets event.srcIp ++ octets event.dstIp) (portOctets p q)
      (portOctets event.srcPort event.dstPort) [] rfl (Nat.le_refl 4)
    rw [List.append_nil, List.append_nil] at hblock
    exact hblock.trans portOctets_inj

end Keys

end ThreatEngine.Pipeline
