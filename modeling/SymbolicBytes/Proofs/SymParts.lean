import SymbolicBytes.SymValue
/-!
# Parts of symbolic values

`SymValue.parts` lists everything inside a symbolic value, the parents and the positions of its
bytes included. What is asked of all parts (`AllParts`) is asked of the value itself and of all
parts of the values directly inside it, which is what the lemmas here say for each way of building
one.

`SymValue.inside` lists the values directly inside, which are those that a walk goes to next.
-/

namespace SymbolicBytes

mutual

/-- The value and everything inside it, from the outside in. -/
def SymValue.parts : SymValue → List SymValue
  | .scalar s => [.scalar s]
  | .undef ty => [.undef ty]
  | .poison ty => [.poison ty]
  | .void => [.void]
  | .aggregate kind members => .aggregate kind members :: SymValue.partsAll members
  | .binary op left right => .binary op left right :: (left.parts ++ right.parts)
  | .cast op source value target => .cast op source value target :: value.parts
  | .select cond ifTrue ifFalse =>
    .select cond ifTrue ifFalse :: (cond.parts ++ (ifTrue.parts ++ ifFalse.parts))
  | .extract whole path => .extract whole path :: whole.parts
  | .insert whole element path => .insert whole element path :: (whole.parts ++ element.parts)
  | .byte b => b.parts
  | .concat bytes ty => .concat bytes ty :: SymByte.partsAll bytes

/-- The listed values and everything inside them. -/
def SymValue.partsAll : List SymValue → List SymValue
  | [] => []
  | v :: vs => v.parts ++ SymValue.partsAll vs

/-- The byte and everything inside its parent and its position. -/
def SymByte.parts : SymByte → List SymValue
  | ⟨parent, ref, ty, index, storeId⟩ =>
    .byte ⟨parent, ref, ty, index, storeId⟩ :: (parent.parts ++ index.parts)

/-- The listed bytes and everything inside them. -/
def SymByte.partsAll : List SymByte → List SymValue
  | [] => []
  | b :: bs => b.parts ++ SymByte.partsAll bs

end

/-- The values directly inside a value: its members or operands, or the parents and the positions of
its bytes. -/
def SymValue.inside : SymValue → List SymValue
  | .scalar _ | .undef _ | .poison _ | .void => []
  | .aggregate _ members => members
  | .binary _ left right => [left, right]
  | .cast _ _ value _ => [value]
  | .select cond ifTrue ifFalse => [cond, ifTrue, ifFalse]
  | .extract whole _ => [whole]
  | .insert whole element _ => [whole, element]
  | .byte b => [b.parent, b.index]
  | .concat bytes _ => bytes.flatMap fun b => [b.parent, b.index]

/-- Inside loaded bytes are the parent and the position of each of them. -/
theorem SymValue.forall_mem_inside_concat {p : SymValue → Prop} {bytes : List SymByte} {ty : Ty} :
    (∀ w ∈ (concat bytes ty).inside, p w) ↔ ∀ b ∈ bytes, p b.parent ∧ p b.index := by
  simp only [inside, List.forall_mem_flatMap, List.forall_mem_cons, List.not_mem_nil,
    false_implies, implies_true, and_true]

variable {p : SymValue → Prop}

/-- Whether a predicate holds of the value and of everything inside it. -/
def SymValue.AllParts (p : SymValue → Prop) (v : SymValue) : Prop := ∀ w ∈ v.parts, p w

/-- Whether a predicate holds of the byte and of everything inside it. -/
def SymByte.AllParts (p : SymValue → Prop) (b : SymByte) : Prop := ∀ w ∈ b.parts, p w

/-- What is asked of everything in a byte is asked of the byte as a value, and of everything in its
parent and in its position. -/
theorem SymByte.allParts_iff {b : SymByte} :
    b.AllParts p ↔ p (.byte b) ∧ b.parent.AllParts p ∧ b.index.AllParts p := by
  obtain ⟨parent, ref, ty, index, storeId⟩ := b
  apply List.forall_mem_cons.trans
  rw [List.forall_mem_append]
  rfl

theorem SymValue.forall_mem_partsAll {vs : List SymValue} :
    (∀ w ∈ partsAll vs, p w) ↔ ∀ v ∈ vs, v.AllParts p := by
  induction vs with
  | nil =>
    constructor
    · intro _ v hv
      cases hv
    · intro _ w hw
      cases hw
  | cons v vs ih =>
    rw [List.forall_mem_cons, ← ih]
    exact List.forall_mem_append

theorem SymByte.forall_mem_partsAll {bs : List SymByte} :
    (∀ w ∈ partsAll bs, p w) ↔ ∀ b ∈ bs, b.AllParts p := by
  induction bs with
  | nil =>
    constructor
    · intro _ v hv
      cases hv
    · intro _ w hw
      cases hw
  | cons b bs ih =>
    rw [List.forall_mem_cons, ← ih]
    exact List.forall_mem_append

namespace SymValue

@[simp] theorem allParts_scalar {s : Scalar} : (scalar s).AllParts p ↔ p (scalar s) :=
  List.forall_mem_singleton

@[simp] theorem allParts_undef {ty : Ty} : (undef ty).AllParts p ↔ p (undef ty) :=
  List.forall_mem_singleton

@[simp] theorem allParts_poison {ty : Ty} : (poison ty).AllParts p ↔ p (poison ty) :=
  List.forall_mem_singleton

@[simp] theorem allParts_void : void.AllParts p ↔ p void := List.forall_mem_singleton

@[simp] theorem allParts_aggregate {kind : AggregateKind} {members : List SymValue} :
    (aggregate kind members).AllParts p ↔
      p (aggregate kind members) ∧ ∀ v ∈ members, v.AllParts p := by
  apply List.forall_mem_cons.trans
  rw [forall_mem_partsAll]

@[simp] theorem allParts_binary {op : BinaryOp} {left right : SymValue} :
    (binary op left right).AllParts p ↔
      p (binary op left right) ∧ left.AllParts p ∧ right.AllParts p := by
  apply List.forall_mem_cons.trans
  rw [List.forall_mem_append]
  rfl

@[simp] theorem allParts_cast {op : Cast} {source target : Ty} {value : SymValue} :
    (cast op source value target).AllParts p ↔
      p (cast op source value target) ∧ value.AllParts p :=
  List.forall_mem_cons

@[simp] theorem allParts_select {cond ifTrue ifFalse : SymValue} :
    (select cond ifTrue ifFalse).AllParts p ↔
      p (select cond ifTrue ifFalse) ∧
        cond.AllParts p ∧ ifTrue.AllParts p ∧ ifFalse.AllParts p := by
  apply List.forall_mem_cons.trans
  rw [List.forall_mem_append, List.forall_mem_append]
  rfl

@[simp] theorem allParts_extract {whole : SymValue} {path : List Nat} :
    (extract whole path).AllParts p ↔ p (extract whole path) ∧ whole.AllParts p :=
  List.forall_mem_cons

@[simp] theorem allParts_insert {whole element : SymValue} {path : List Nat} :
    (insert whole element path).AllParts p ↔
      p (insert whole element path) ∧ whole.AllParts p ∧ element.AllParts p := by
  apply List.forall_mem_cons.trans
  rw [List.forall_mem_append]
  rfl

@[simp] theorem allParts_byte {b : SymByte} : (byte b).AllParts p ↔ b.AllParts p := Iff.rfl

@[simp] theorem allParts_concat {bytes : List SymByte} {ty : Ty} :
    (concat bytes ty).AllParts p ↔ p (concat bytes ty) ∧ ∀ b ∈ bytes, b.AllParts p := by
  apply List.forall_mem_cons.trans
  rw [SymByte.forall_mem_partsAll]

end SymValue

end SymbolicBytes
