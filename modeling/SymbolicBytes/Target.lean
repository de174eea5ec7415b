import SymbolicBytes.AlignTable
import SymbolicBytes.Ty
/-!
# Targets

A `Target` is what every decision about sizes and byte order is made against: the byte order, the
size of a pointer and the alignment tables. `Target.byteSize` and `Target.alignment?`
give the size and the alignment of a type on it.

Sizes are 64-bit quantities which stop at `maxSize` instead of wrapping, at every product and at
every sum, so a size that is too large never comes out small. Structs are not padded.
-/

namespace SymbolicBytes

/-- The largest size there is. -/
def maxSize : Nat := UInt64.size - 1

/-- The size `n`, or the largest size where `n` is beyond it. -/
def saturate (n : Nat) : Nat := min n maxSize

theorem saturate_le (n : Nat) : saturate n ≤ maxSize := Nat.min_le_right ..

/-- The order of the bytes of a scalar in memory. -/
inductive Endian where
  | little
  | big
  deriving DecidableEq, Repr

/-- What values are laid out for. -/
structure Target where
  /-- the order of bytes in memory -/
  endian : Endian
  /-- the size of pointers and of pointer-sized integers, in bytes -/
  pointerSize : Nat
  /-- the alignments of integers -/
  intAligns : AlignTable
  /-- the alignments of floats -/
  floatAligns : AlignTable
  /-- the size of pointers is a size -/
  pointerSize_le : pointerSize ≤ maxSize

namespace Target

/-- The little-endian target with pointers of eight bytes on which scalars are naturally aligned. -/
def standard : Target where
  endian := .little
  pointerSize := 8
  intAligns := .ofList [(1, 1), (8, 1), (16, 2), (32, 4), (64, 8)]
  floatAligns := .ofList [(16, 2), (32, 4), (64, 8), (128, 16)]
  pointerSize_le := by decide

instance : Inhabited Target := ⟨standard⟩

/-- The width of pointers and of pointer-sized integers in bits, at most what 32 bits can count. -/
def pointerBits (target : Target) : Nat := min (8 * target.pointerSize) (UInt32.size - 1)

/-- The bytes of a scalar or of a whole value, given least significant first, as they lie in memory;
and also the other way, since turning a list round twice changes nothing. -/
def arrange {α : Type} (target : Target) (bytes : List α) : List α :=
  match target.endian with
  | .little => bytes
  | .big => bytes.reverse

@[simp] theorem arrange_arrange {α : Type} (target : Target) (bytes : List α) :
    target.arrange (target.arrange bytes) = bytes := by
  unfold arrange
  cases target.endian <;> simp

@[simp] theorem length_arrange {α : Type} (target : Target) (bytes : List α) :
    (target.arrange bytes).length = bytes.length := by
  unfold arrange
  cases target.endian <;> simp

/-! ## Sizes -/

mutual

/-- The number of bytes of a value of the type. Integers of a width without values have size 0. -/
def byteSize (target : Target) : Ty → Nat
  | .int width => ((IntWidth.ofNat? width).map IntWidth.bytes).getD 0
  | .pointer | .iptr => target.pointerSize
  | .float kind => kind.bytes
  | .void | .special _ => 0
  | .sequence _ count element => saturate (count * byteSize target element)
  | .record _ fields => byteSizes target fields

/-- The number of bytes of values of the listed types laid end to end. -/
def byteSizes (target : Target) : List Ty → Nat
  | [] => 0
  | t :: ts => saturate (byteSize target t + byteSizes target ts)

end

mutual

theorem byteSize_le (target : Target) : ∀ t : Ty, target.byteSize t ≤ maxSize
  | .int width => by
    simp only [byteSize]
    cases IntWidth.ofNat? width with
    | none => decide
    | some w => cases w <;> decide
  | .pointer | .iptr => by simpa only [byteSize] using target.pointerSize_le
  | .float kind => by cases kind <;> simp only [byteSize] <;> decide
  | .void | .special _ => by simp only [byteSize]; decide
  | .sequence _ _ _ => by simpa only [byteSize] using saturate_le _
  | .record _ fields => by simpa only [byteSize] using byteSizes_le target fields

theorem byteSizes_le (target : Target) : ∀ ts : List Ty, target.byteSizes ts ≤ maxSize
  | [] => by simp only [byteSizes]; decide
  | t :: ts => by simpa only [byteSizes] using saturate_le _

end

/-! ## Alignments -/

mutual

/-- The alignment of a value of the type in bytes, if the table it depends on has entries. -/
def alignment? (target : Target) : Ty → Option Nat
  | .int width => target.intAligns.alignFor? width
  | .pointer | .iptr => some target.pointerSize
  | .float kind => target.floatAligns.alignFor? kind.bits
  | .void | .special _ => some 1
  | .sequence _ _ element => alignment? target element
  | .record .struct fields => alignments? target fields
  | .record .packed _ => some 1

/-- The strictest alignment among the listed types, and 1 for none. -/
def alignments? (target : Target) : List Ty → Option Nat
  | [] => some 1
  | t :: ts => (alignment? target t).bind fun a => (alignments? target ts).map (max a)

end

end Target

end SymbolicBytes
