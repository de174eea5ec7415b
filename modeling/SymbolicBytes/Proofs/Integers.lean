import Mathlib.Algebra.Group.Int.Defs
import Mathlib.Algebra.Group.Nat.Defs
import SymbolicBytes.FixedInt
/-!
# Readings of integers

What the low bits of an integer read as, and what its bytes spell.

The main fact is `natOfBytes_map_byteOfNat`: the first bytes of a number spell the number modulo a
power of 256, so that as many bytes as the number needs spell the number itself
(`natOfBytes_of_lt`).
-/

namespace SymbolicBytes

theorem FixedInt.bits_of_ofNat? {width n : Nat} {i : FixedInt} (h : ofNat? width n = some i) :
    i.width.bits = width := by
  obtain ⟨w, hw, rfl⟩ := Option.map_eq_some_iff.1 h
  exact IntWidth.bits_of_ofNat? hw

theorem FixedInt.bits_of_ofInt? {width : Nat} {int : Int} {i : FixedInt}
    (h : ofInt? width int = some i) : i.width.bits = width := by
  obtain ⟨w, hw, rfl⟩ := Option.map_eq_some_iff.1 h
  exact IntWidth.bits_of_ofNat? hw

/-- Wrapping to the unsigned range is taking the remainder, of negative numbers too. -/
theorem wrapUnsigned_eq_emod (bits : Nat) (int : Int) : wrapUnsigned bits int = int % 2 ^ bits := by
  have h : (0 : Int) ≤ int % 2 ^ bits := Int.emod_nonneg _ (Int.pow_ne_zero (by decide))
  simpa [wrapUnsigned, BitVec.toNat_ofInt] using Int.max_eq_left h

theorem toNat_ofInt_eq (bits : Nat) (int : Int) :
    (BitVec.ofInt bits int).toNat = (int % 2 ^ bits).toNat := by
  rw [BitVec.toNat_ofInt]
  norm_cast

/-- Integers with the same low bits are the same word, so what is computed on words of pointer-sized
integers depends on nothing else of them. -/
theorem ofInt_eq_of_emod_eq {bits : Nat} {int int' : Int} (h : int' % 2 ^ bits = int % 2 ^ bits) :
    BitVec.ofInt bits int' = BitVec.ofInt bits int := by
  rw [← BitVec.toNat_inj, toNat_ofInt_eq, toNat_ofInt_eq, h]

theorem IntWidth.two_pow_bits_le (w : IntWidth) : 2 ^ w.bits ≤ 256 ^ w.bytes := by
  cases w <;> decide

/-! ## Bytes -/

theorem toNat_byteOfNat (n index : Nat) : (byteOfNat n index).toNat = n / 256 ^ index % 256 := by
  have h : (256 : Nat) ^ index = 2 ^ (8 * index) := by rw [Nat.pow_mul]
  simp [byteOfNat, Nat.shiftRight_eq_div_pow, h]

theorem natOfBytes_lt (bs : List UInt8) : natOfBytes bs < 256 ^ bs.length := by
  induction bs with
  | nil => simp [natOfBytes]
  | cons b bs ih =>
    have hb : b.toNat < 256 := b.toNat_lt
    simp only [natOfBytes, List.length_cons, Nat.pow_succ]
    omega

/-- The bytes of two pieces spell the number of the first plus that of the second, moved up by the
length of the first. -/
theorem natOfBytes_append (bs cs : List UInt8) :
    natOfBytes (bs ++ cs) = natOfBytes bs + 256 ^ bs.length * natOfBytes cs := by
  induction bs with
  | nil => simp [natOfBytes]
  | cons b bs ih =>
    simp only [List.cons_append, natOfBytes, ih, List.length_cons, Nat.pow_succ, Nat.mul_add]
    rw [← Nat.mul_assoc, Nat.mul_comm 256 (256 ^ bs.length)]
    omega

/-- The first bytes of a number spell what is left of it modulo a power of 256: bytes that are not
taken are lost and nothing else is. -/
theorem natOfBytes_map_byteOfNat (n count : Nat) :
    natOfBytes ((List.range count).map (byteOfNat n)) = n % 256 ^ count := by
  induction count with
  | zero => simp [natOfBytes, Nat.mod_one]
  | succ count ih =>
    rw [List.range_succ, List.map_append, natOfBytes_append, ih, Nat.pow_succ, Nat.mod_mul]
    simp [natOfBytes, toNat_byteOfNat]

/-- On natural numbers there is only one way to read bytes, though integers shift in their sign and
natural numbers shift in zeros. -/
theorem byteOfInt_natCast (n index : Nat) : byteOfInt n index = byteOfNat n index := by
  have hshift : (n : Int) >>> (8 * index) = ((n >>> (8 * index) : Nat) : Int) := rfl
  have hmod : (((n >>> (8 * index) : Nat) : Int) % 2 ^ 8).toNat = n >>> (8 * index) % 2 ^ 8 := by
    norm_cast
  rw [byteOfInt, byteOfNat, hshift, UInt8.ofInt, hmod, UInt8.ofNat_mod_size]

theorem toNat_byteOfInt (int : Int) (index : Nat) :
    ((byteOfInt int index).toNat : Int) = int / 256 ^ index % 256 := by
  have hpow : ((2 ^ (8 * index) : Nat) : Int) = 256 ^ index := by
    rw [Nat.pow_mul, Int.natCast_pow]
    rfl
  have hnonneg : 0 ≤ int / 256 ^ index % 256 := Int.emod_nonneg _ (by decide)
  have hlt : int / 256 ^ index % 256 < 256 := Int.emod_lt_of_pos _ (by decide)
  rw [byteOfInt, UInt8.ofInt, Int.shiftRight_eq_div_pow, hpow, UInt8.toNat_ofNat']
  omega

/-- The lowest digit of a remainder is split off. Both divisions round down, so this holds of
negative numbers, whose digits are those of their two's complement. -/
theorem emod_pow_succ (int : Int) (count : Nat) :
    int % 256 ^ (count + 1) = int % 256 + 256 * (int / 256 % 256 ^ count) := by
  have hpow : (0 : Int) < 256 ^ count := Int.pow_pos (by decide)
  have hdigits := Int.mul_ediv_add_emod (int / 256) (256 ^ count)
  have hdigit := Int.mul_ediv_add_emod int 256
  have hlow := Int.emod_nonneg int (b := 256) (by decide)
  have hhigh := Int.emod_lt_of_pos int (b := 256) (by decide)
  have hlow' := Int.emod_nonneg (int / 256) (Int.ne_of_gt hpow)
  have hhigh' := Int.emod_lt_of_pos (int / 256) hpow
  refine ((Int.ediv_emod_unique (q := int / 256 / 256 ^ count)
    (by rw [Int.pow_succ]; omega)).2 ⟨?_, by omega, ?_⟩).2
  · rw [Int.pow_succ', Int.mul_assoc]
    omega
  · rw [Int.pow_succ]
    omega

/-- The first bytes of an integer spell its remainder modulo a power of 256. So a negative number
comes back as the unsigned number of the same bits. -/
theorem natOfBytes_map_byteOfInt (int : Int) (count : Nat) :
    (natOfBytes ((List.range count).map (byteOfInt int)) : Int) = int % 256 ^ count := by
  induction count generalizing int with
  | zero => simp [natOfBytes]
  | succ count ih =>
    have htail : byteOfInt int ∘ Nat.succ = byteOfInt (int / 256) := by
      funext index
      apply UInt8.toNat_inj.1
      have h := toNat_byteOfInt int (index + 1)
      rw [Int.pow_succ', ← Int.ediv_ediv_of_nonneg (by decide), ← toNat_byteOfInt] at h
      exact Int.ofNat_inj.1 h
    have hhead := toNat_byteOfInt int 0
    rw [Int.pow_zero, Int.ediv_one] at hhead
    rw [List.range_succ_eq_map, List.map_cons, List.map_map, htail, natOfBytes, Int.natCast_add,
      Int.natCast_mul, ih, hhead, emod_pow_succ]
    rfl

/-- As many bytes as a number needs spell the number itself, however the bytes were read. -/
theorem natOfBytes_of_lt {n count : Nat} {byte : Nat → UInt8} (hbyte : ∀ i, byte i = byteOfNat n i)
    (h : n < 256 ^ count) : natOfBytes ((List.range count).map byte) = n := by
  rw [funext hbyte, natOfBytes_map_byteOfNat, Nat.mod_eq_of_lt h]

end SymbolicBytes
