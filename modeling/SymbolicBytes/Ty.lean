import SymbolicBytes.FixedInt
/-!
# Types

A `Ty` says how the bytes of a value are laid out, not what the source program called it. Besides
the types that have values there are types which can only be named, sized and refused: the float
formats other than the two IEEE ones, odd integer widths, and the special types.

Arrays and vectors are *sequences* (a count and one element type), plain and packed structs are
*records* (a list of field types). `Ty.unsupported?` finds the first part of a type that has no
values, and `Ty.memberAt?` walks a path of member positions.
-/

namespace SymbolicBytes

/-- The aggregates whose members share one type. -/
inductive SequenceKind where
  | array
  | vector
  deriving DecidableEq, Repr

/-- The aggregates whose members have a type each. -/
inductive RecordKind where
  | struct
  | packed
  deriving DecidableEq, Repr

/-- What an aggregate is, of types and of values alike. -/
inductive AggregateKind where
  | sequence (kind : SequenceKind)
  | record (kind : RecordKind)
  deriving DecidableEq, Repr

namespace AggregateKind

/-- The name of the kind in messages. -/
def name : AggregateKind → String
  | sequence .array => "array"
  | sequence .vector => "vector"
  | record .struct => "struct"
  | record .packed => "packed struct"

/-- `inside` between the brackets of the kind. -/
def enclose : AggregateKind → String → String
  | sequence .array, inside => "[" ++ inside ++ "]"
  | sequence .vector, inside => "<" ++ inside ++ ">"
  | record .struct, inside => "\x7b " ++ inside ++ " \x7d"
  | record .packed, inside => "<\x7b " ++ inside ++ " \x7d>"

end AggregateKind

/-- Floating point formats, by name. Only `float` and `double` have values. -/
inductive FloatKind where
  | half
  | float
  | double
  | x86Fp80
  | fp128
  | ppcFp128
  deriving DecidableEq, Repr

namespace FloatKind

/-- The name of the type. -/
def name : FloatKind → String
  | half => "half"
  | float => "float"
  | double => "double"
  | x86Fp80 => "x86_fp80"
  | fp128 => "fp128"
  | ppcFp128 => "ppc_fp128"

/-- The width under which alignments are listed. -/
def bits : FloatKind → Nat
  | half => 16
  | float => 32
  | double => 64
  | x86Fp80 => 80
  | fp128 => 128
  | ppcFp128 => 128

/-- The number of bytes in memory. -/
def bytes (kind : FloatKind) : Nat := kind.bits / 8

end FloatKind

/-- Types of no size which no value has. -/
inductive SpecialKind where
  | opaqueStruct
  | metadata
  | x86Mmx
  deriving DecidableEq, Repr

/-- The name of the type. -/
def SpecialKind.name : SpecialKind → String
  | opaqueStruct => "opaque"
  | metadata => "metadata"
  | x86Mmx => "x86_mmx"

/-- The layout of a value. -/
inductive Ty where
  /-- integers of a fixed number of bits -/
  | int (width : Nat)
  /-- pointers -/
  | pointer
  /-- integers as wide as a pointer -/
  | iptr
  /-- floating point numbers -/
  | float (kind : FloatKind)
  /-- the type of a computation without result -/
  | void
  /-- a type that can only be named -/
  | special (kind : SpecialKind)
  /-- `count` members of one type -/
  | sequence (kind : SequenceKind) (count : Nat) (element : Ty)
  /-- members of the listed types -/
  | record (kind : RecordKind) (fields : List Ty)
  deriving Inhabited

namespace Ty

/-- Arrays of `count` elements. -/
@[match_pattern] abbrev array (count : Nat) (element : Ty) : Ty := sequence .array count element

/-- Vectors of `count` elements. -/
@[match_pattern] abbrev vector (count : Nat) (element : Ty) : Ty := sequence .vector count element

/-- Single bits, the results of comparisons. -/
abbrev bit : Ty := int 1

/-! ## Equality -/

mutual

/-- Whether two types are the same, decided by walking both. -/
def same : Ty → Ty → Bool
  | int v, int w => v == w
  | pointer, pointer => true
  | iptr, iptr => true
  | float k, float l => k == l
  | void, void => true
  | special k, special l => k == l
  | sequence k m s, sequence l n t => k == l && m == n && same s t
  | record k ss, record l ts => k == l && sameAll ss ts
  | _, _ => false

/-- Whether two lists hold the same types in the same order. -/
def sameAll : List Ty → List Ty → Bool
  | [], [] => true
  | s :: ss, t :: ts => same s t && sameAll ss ts
  | _, _ => false

end

mutual

theorem same_iff : ∀ s t : Ty, same s t = true ↔ s = t
  | int _, t | pointer, t | iptr, t | float _, t | void, t | special _, t => by
    cases t <;> simp [same]
  | sequence _ _ s, t => by
    cases t with
    | sequence _ _ t => simp [same, same_iff s t, and_assoc]
    | _ => simp [same]
  | record _ ss, t => by
    cases t with
    | record _ ts => simp [same, sameAll_iff ss ts]
    | _ => simp [same]

theorem sameAll_iff : ∀ ss ts : List Ty, sameAll ss ts = true ↔ ss = ts
  | [], ts => by cases ts <;> simp [sameAll]
  | s :: ss, ts => by
    cases ts with
    | nil => simp [sameAll]
    | cons t ts => simp [sameAll, same_iff s t, sameAll_iff ss ts]

end

instance : DecidableEq Ty := fun s t => decidable_of_iff _ (same_iff s t)

/-! ## Text -/

/-- The kind of the type in answers and messages. -/
def kindName : Ty → String
  | int _ => "integer"
  | pointer => "pointer"
  | iptr => "iptr"
  | float kind => kind.name
  | void => "void"
  | special kind => kind.name
  | sequence kind _ _ => (AggregateKind.sequence kind).name
  | record kind _ => (AggregateKind.record kind).name

mutual

/-- The type as it is written in messages. -/
def display : Ty → String
  | int width => "i" ++ toString width
  | pointer => "ptr"
  | iptr => "iptr"
  | float kind => kind.name
  | void => "void"
  | special kind => kind.name
  | sequence kind count element =>
    (AggregateKind.sequence kind).enclose (toString count ++ " x " ++ display element)
  | record kind fields => (AggregateKind.record kind).enclose (", ".intercalate (displayAll fields))

/-- The listed types as they are written in messages. -/
def displayAll : List Ty → List String
  | [] => []
  | t :: ts => display t :: displayAll ts

end

instance : ToString Ty := ⟨display⟩

/-! ## Types that have values -/

mutual

/-- The first part of the type that has no values, fields and elements searched in order. The
element type counts even where there are no elements. -/
def unsupported? : Ty → Option Ty
  | int width => if (IntWidth.ofNat? width).isSome then none else some (int width)
  | pointer | iptr | void | float .float | float .double => none
  | float kind => some (float kind)
  | special kind => some (special kind)
  | sequence _ _ element => unsupported? element
  | record _ fields => unsupportedIn? fields

/-- The first part without values in a list of types. -/
def unsupportedIn? : List Ty → Option Ty
  | [] => none
  | t :: ts => (unsupported? t).or (unsupportedIn? ts)

end

/-- Whether every part of the type has values. -/
def Supported (t : Ty) : Prop := t.unsupported? = none

instance (t : Ty) : Decidable t.Supported := inferInstanceAs (Decidable (_ = _))

/-! ## Members -/

/-- What aggregate the type is, if it is one. -/
def aggregateKind? : Ty → Option AggregateKind
  | sequence kind _ _ => some (.sequence kind)
  | record kind _ => some (.record kind)
  | _ => none

/-- The number of members of an aggregate type. -/
def memberCount? : Ty → Option Nat
  | sequence _ count _ => some count
  | record _ fields => some fields.length
  | _ => none

/-- The type of the member at position `index` of an aggregate. -/
def member? : Ty → Nat → Option Ty
  | sequence _ count element, index => if index < count then some element else none
  | record _ fields, index => fields[index]?
  | _, _ => none

/-- The type of the part at the end of a path of member positions. -/
def memberAt? : Ty → List Nat → Option Ty
  | t, [] => some t
  | t, index :: path => (t.member? index).bind (memberAt? · path)

end Ty

end SymbolicBytes
