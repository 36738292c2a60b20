import Mathlib

/-! Choosing a GID by address range (`net_ib.cc`). An address is its bytes in memory, which are in
network order; a 32-bit word of it is read on a little-endian host. -/
namespace Vccl.Ib.Gid

inductive SaFamily
  | afInet
  | afInet6

abbrev Bytes := Nat → BitVec 8

/-- `s_addr` is word 0 of an IPv4 address, `s6_addr32[i]` word `i` of an IPv6 one. -/
def addr32 (a : Bytes) (i : Nat) : BitVec 32 :=
  a (4 * i + 3) ++ a (4 * i + 2) ++ a (4 * i + 1) ++ a (4 * i)

def htonl (x : BitVec 32) : BitVec 32 :=
  x.extractLsb' 0 8 ++ x.extractLsb' 8 8 ++ x.extractLsb' 16 8 ++ x.extractLsb' 24 8

/-- The shifted one and its predecessor are `int`s; for one bit they pass through the sign and wrap
around. -/
def netmask (bits : Nat) : BitVec 32 := htonl (0xffffffff ^^^ ((1 <<< (32 - bits)) - 1))

/-- The loop from word `i` on. The result is what is left of the length. -/
def matchFrom (af : SaFamily) (base addr6 : Bytes) (i prefixlen : Nat) : Nat :=
  if 0 < prefixlen ∧ i < 4 then
    match af with
    | .afInet =>
      let mask := netmask prefixlen
      if (addr32 base 0 &&& mask) ^^^ (addr32 addr6 3 &&& mask) ≠ 0 then prefixlen else 0
    | .afInet6 =>
      if 32 ≤ prefixlen then
        if addr32 base i ^^^ addr32 addr6 i ≠ 0 then prefixlen
        else matchFrom af base addr6 (i + 1) (prefixlen - 32)
      else
        let mask := netmask prefixlen
        -- with nothing left the loop ends
        if (addr32 base i &&& mask) ^^^ (addr32 addr6 i &&& mask) ≠ 0 then prefixlen else 0
  else prefixlen
termination_by 4 - i

def matchGidAddrPrefix (af : SaFamily) (base : Bytes) (prefixlen : Nat) (gid : Bytes) : Bool :=
  matchFrom af base gid 0 prefixlen == 0

/-- Bit `k` of an address, counted from its first byte and from the high end of each byte. -/
def bit (a : Bytes) (k : Nat) : Bool := (a (k / 8)).getLsbD (7 - k % 8)

def SaFamily.bits : SaFamily → Nat
  | .afInet => 32
  | .afInet6 => 128

/-- The first bit of a GID that is compared: an IPv4 address is its last word. -/
def SaFamily.first : SaFamily → Nat
  | .afInet => 96
  | .afInet6 => 0

/-- Where bit `p` of a loaded word stands in the network order of its four bytes. -/
def position (p : Nat) : Nat := p / 8 * 8 + (7 - p % 8)

theorem netmask_bit :
    ∀ n < 33, 0 < n → ∀ p < 32, (netmask n).getLsbD p = decide (position p < n) := by
  decide +kernel

theorem addr32_bit (a : Bytes) (i : Nat) {p : Nat} (hp : p < 32) :
    (addr32 a i).getLsbD p = bit a (32 * i + position p) := by
  have byte : (32 * i + position p) / 8 = 4 * i + p / 8 := by unfold position; omega
  have place : 7 - (32 * i + position p) % 8 = p % 8 := by unfold position; omega
  simp only [addr32, BitVec.getLsbD_append, bit, byte, place]
  have cases : p / 8 = 0 ∨ p / 8 = 1 ∨ p / 8 = 2 ∨ p / 8 = 3 := by omega
  rcases cases with h | h | h | h
  · rw [if_pos (by omega), h, Nat.mod_eq_of_lt (by omega), Nat.add_zero]
  · rw [if_neg (by omega), if_pos (by omega), h, show p - 8 = p % 8 by omega]
  · rw [if_neg (by omega), if_neg (by omega), if_pos (by omega), h, show p - 8 - 8 = p % 8 by omega]
  · rw [if_neg (by omega), if_neg (by omega), if_neg (by omega), h,
      show p - 8 - 8 - 8 = p % 8 by omega]

theorem masked_iff (a b : Bytes) (i j : Nat) {n : Nat} (pos : 0 < n) (fits : n ≤ 32) :
    (addr32 a i &&& netmask n) ^^^ (addr32 b j &&& netmask n) = 0#32 ↔
      ∀ k < n, bit a (32 * i + k) = bit b (32 * j + k) := by
  have mask := netmask_bit n (by omega) pos
  rw [BitVec.xor_eq_zero_iff, BitVec.eq_of_getLsbD_eq_iff]
  simp only [BitVec.getLsbD_and]
  constructor
  · intro same k hk
    have back : position (position k) = k := by unfold position; omega
    have inside : position k < 32 := by unfold position; omega
    simpa only [addr32_bit _ _ inside, mask _ inside, back, hk, decide_true, Bool.and_true] using
      same (position k) inside
  · intro same p hp
    rw [addr32_bit a i hp, addr32_bit b j hp, mask p hp]
    by_cases h : position p < n
    · rw [same _ h]
    · simp only [h, decide_false, Bool.and_false]

theorem words_iff (a b : Bytes) (i j : Nat) : addr32 a i ^^^ addr32 b j = 0#32 ↔
      ∀ k < 32, bit a (32 * i + k) = bit b (32 * j + k) := by
  have whole : netmask 32 = BitVec.allOnes 32 := by decide
  rw [← masked_iff a b i j (by decide) le_rfl, whole, BitVec.and_allOnes, BitVec.and_allOnes]

theorem left_zero_iff {d : BitVec 32} {left rest : Nat} (some : 0 < left) :
    (if d ≠ 0 then left else rest) = 0 ↔ d = 0#32 ∧ rest = 0 := by
  split
  case isTrue differ => exact ⟨fun h => absurd h some.ne', fun h => absurd h.1 differ⟩
  case isFalse same => exact (and_iff_right (not_not.mp same)).symm

theorem matchFrom_iff (af : SaFamily) (base gid : Bytes) (i prefixlen : Nat)
    (valid : 32 * i + prefixlen ≤ af.bits) : matchFrom af base gid i prefixlen = 0 ↔
      ∀ k < prefixlen, bit base (32 * i + k) = bit gid (af.first + (32 * i + k)) := by
  rw [matchFrom.eq_def]
  split
  case isFalse ended =>
    have : af.bits ≤ 128 := by cases af <;> decide
    obtain rfl : prefixlen = 0 := by omega
    simp
  case isTrue running =>
    cases af with
    | afInet =>
      have : 32 * i + prefixlen ≤ 32 := valid
      obtain rfl : i = 0 := by omega
      rw [left_zero_iff running.1, masked_iff _ _ _ _ running.1 (by omega), and_iff_left rfl]
      simp [SaFamily.first]
    | afInet6 =>
      have : 32 * i + prefixlen ≤ 128 := valid
      simp only [SaFamily.first, Nat.zero_add]
      split
      case isTrue whole =>
        obtain ⟨rest, rfl⟩ := Nat.exists_eq_add_of_le whole
        have later := matchFrom_iff .afInet6 base gid (i + 1) rest (by rw [SaFamily.bits]; omega)
        -- the later words are compared in the same positions, a word further
        simp only [SaFamily.first, Nat.zero_add, Nat.mul_succ, Nat.add_assoc] at later
        rw [left_zero_iff running.1, words_iff, Nat.add_sub_cancel_left, later]
        constructor
        · rintro ⟨first, others⟩ k hk
          by_cases near : k < 32
          · exact first k near
          · have := others (k - 32) (by omega)
            rwa [Nat.add_sub_of_le (by omega)] at this
        · intro all
          exact ⟨fun k hk => all k (by omega), fun k hk => all (32 + k) (by omega)⟩
      case isFalse part =>
        rw [left_zero_iff running.1, masked_iff _ _ _ _ running.1 (by omega), and_iff_left rfl]
termination_by 4 - i

/-- An address matches exactly when its first bits are those of the GID. -/
theorem matchGidAddrPrefix_iff (af : SaFamily) (base gid : Bytes) (prefixlen : Nat)
    (valid : prefixlen ≤ af.bits) : matchGidAddrPrefix af base prefixlen gid = true ↔
      ∀ k < prefixlen, bit base k = bit gid (af.first + k) := by
  have loop := matchFrom_iff af base gid 0 prefixlen (by omega)
  simpa only [matchGidAddrPrefix, beq_iff_eq, Nat.mul_zero, Nat.zero_add] using loop

/-- 192.168.5.9, mapped into IPv6, is in 192.168.4.0/23 and not in 192.168.4.0/24. -/
theorem matchGidAddrPrefix_mapped :
    let base : Bytes := fun n => [192, 168, 4, 0].getD n 0
    let gid : Bytes := fun n => [0, 0, 0, 0, 0, 0, 0, 0, 0, 0, 255, 255, 192, 168, 5, 9].getD n 0
    matchGidAddrPrefix .afInet base 23 gid = true ∧ matchGidAddrPrefix .afInet base 24 gid ≠ true := by
  intro base gid
  exact ⟨(matchGidAddrPrefix_iff .afInet base gid 23 (by decide)).mpr (by decide),
    fun h => absurd ((matchGidAddrPrefix_iff .afInet base gid 24 (by decide)).mp h) (by decide)⟩

end Vccl.Ib.Gid
