/-!
# Fixed-width integers

The four integer widths that have values, and the integers at those widths. A `FixedInt` keeps its
bits in a `BitVec`, so the unsigned reading is `BitVec.toNat`, the two's complement reading is
`BitVec.toInt`, and a machine word is never confused with a number.

`wrapUnsigned` and `wrapSigned` are the two readings of the low bits of an arbitrary integer; they
serve the pointer-sized integers, whose width belongs to the target and not to the value.

An integer has one byte for every position, least significant first: past its last digit a natural
number goes on with zeros (`byteOfNat`), and a negative one, in two's complement, with ones
(`byteOfInt`). `natOfBytes` is the number that a list of bytes spells.
-/

namespace SymbolicBytes

/-- The integer widths that values can have. -/
inductive IntWidth where
  | i1
  | i8
  | i32
  | i64
  deriving DecidableEq, Repr

namespace IntWidth

/-- The number of bits. -/
def bits : IntWidth → Nat
  | i1 => 1
  | i8 => 8
  | i32 => 32
  | i64 => 64

/-- The number of bytes in memory: a single bit takes a whole byte. -/
def bytes : IntWidth → Nat
  | i1 => 1
  | i8 => 1
  | i32 => 4
  | i64 => 8

/-- The width of `n` bits, if integers of that width have values. -/
def ofNat? : Nat → Option IntWidth
  | 1 => some i1
  | 8 => some i8
  | 32 => some i32
  | 64 => some i64
  | _ => none

@[simp] theorem ofNat?_bits (w : IntWidth) : ofNat? w.bits = some w := by cases w <;> rfl

theorem bits_of_ofNat? {n : Nat} {w : IntWidth} (h : ofNat? n = some w) : w.bits = n := by
  unfold ofNat? at h
  split at h <;> simp_all [bits] <;> subst h <;> rfl

theorem bits_pos (w : IntWidth) : 0 < w.bits := by cases w <;> decide

/-- The name of the type of integers of this width. -/
def name : IntWidth → String
  | i1 => "i1"
  | i8 => "i8"
  | i32 => "i32"
  | i64 => "i64"

end IntWidth

/-- An integer of one of the fixed widths. -/
structure FixedInt where
  /-- how many bits it has -/
  width : IntWidth
  /-- the bits -/
  bits : BitVec width.bits
  deriving DecidableEq

namespace FixedInt

/-- The truth value `b` as a single bit. -/
def ofBool (b : Bool) : FixedInt := ⟨.i1, BitVec.ofBool b⟩

/-- The low bits of `n` at a width of `width` bits, if that width has values. -/
def ofNat? (width n : Nat) : Option FixedInt :=
  (IntWidth.ofNat? width).map fun w => ⟨w, BitVec.ofNat w.bits n⟩

/-- The low bits of `int` at a width of `width` bits, if that width has values. -/
def ofInt? (width : Nat) (int : Int) : Option FixedInt :=
  (IntWidth.ofNat? width).map fun w => ⟨w, BitVec.ofInt w.bits int⟩

/-- Zero at a width of `width` bits, if that width has values. -/
def zero? (width : Nat) : Option FixedInt := ofNat? width 0

/-- The unsigned reading. -/
def toNat (i : FixedInt) : Nat := i.bits.toNat

/-- The two's complement reading. A single set bit reads as `-1`. -/
def toInt (i : FixedInt) : Int := i.bits.toInt

/-- The truth value that a single bit stands for; wider integers stand for none. -/
def toBool? : FixedInt → Option Bool
  | ⟨.i1, b⟩ => some (b == 1#1)
  | _ => none

/-- The width followed by the unsigned reading; a single bit is written as a truth value. -/
def display (i : FixedInt) : String :=
  let shown := match i.toBool? with
    | some b => toString b
    | none => toString i.toNat
  i.width.name ++ " " ++ shown

@[simp] theorem ofNat?_toNat (i : FixedInt) : ofNat? i.width.bits i.toNat = some i := by
  simp [ofNat?, toNat]

end FixedInt

/-- The unsigned reading of the low `bits` bits of `int`. -/
def wrapUnsigned (bits : Nat) (int : Int) : Int := (BitVec.ofInt bits int).toNat

/-- The two's complement reading of the low `bits` bits of `int`. -/
def wrapSigned (bits : Nat) (int : Int) : Int := (BitVec.ofInt bits int).toInt

/-! ## Bytes -/

/-- The byte at a position of a natural number. -/
def byteOfNat (n index : Nat) : UInt8 := UInt8.ofNat (n >>> (8 * index))

/-- The byte at a position of an integer in two's complement. -/
def byteOfInt (int : Int) (index : Nat) : UInt8 := UInt8.ofInt (int >>> (8 * index))

/-- The number that the bytes spell, least significant first. -/
def natOfBytes : List UInt8 → Nat
  | [] => 0
  | b :: bs => b.toNat + 256 * natOfBytes bs

end SymbolicBytes
