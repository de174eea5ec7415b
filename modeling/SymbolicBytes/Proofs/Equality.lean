import Mathlib.Data.List.Forall2
import SymbolicBytes.SymValue.Equality
/-!
# Equality of symbolic values as a relation

`SymValue.equalBy` is a walk over two values at once. `SymValue.AlikeBy` says in one rule for each
way of building a value what it amounts to (`equalBy_iff`); case analysis on it replaces the
unfolding of the walk. From the rules, equality is symmetric (`equalWithin_symm`) and what is equal
to some levels is equal to more (`equalWithin_mono`).
-/

namespace SymbolicBytes

theorem allMatch_iff {α : Type} {same : α → α → Bool} {as bs : List α} :
    allMatch same as bs = true ↔ List.Forall₂ (fun a b => same a b = true) as bs := by
  induction as generalizing bs with
  | nil => cases bs <;> simp [allMatch]
  | cons a as ih => cases bs <;> simp [allMatch, ih]

/-- Two bytes of one store at one type whose positions are related, and whose parents are too where
they are not known to be one. -/
structure SymByte.AlikeBy (R : SymValue → SymValue → Prop) (a b : SymByte) : Prop where
  /-- they come from one store -/
  storeId : a.storeId = b.storeId
  /-- they were stored at one type -/
  ty : a.ty = b.ty
  /-- they have one parent or related ones -/
  parent : a.ref = b.ref ∨ R a.parent b.parent
  /-- they have related positions -/
  index : R a.index b.index

/-- Two values that are built alike of related ones. -/
inductive SymValue.AlikeBy (R : SymValue → SymValue → Prop) : SymValue → SymValue → Prop where
  | scalar (s : Scalar) : AlikeBy R (.scalar s) (.scalar s)
  | undef (ty : Ty) : AlikeBy R (.undef ty) (.undef ty)
  | poison (ty : Ty) : AlikeBy R (.poison ty) (.poison ty)
  | void : AlikeBy R .void .void
  | aggregate (kind : AggregateKind) {vs ws : List SymValue} (members : List.Forall₂ R vs ws) :
      AlikeBy R (.aggregate kind vs) (.aggregate kind ws)
  | binary (op : BinaryOp) {a b c d : SymValue} (left : R a c) (right : R b d) :
      AlikeBy R (.binary op a b) (.binary op c d)
  | cast (op : Cast) (source target : Ty) {v w : SymValue} (value : R v w) :
      AlikeBy R (.cast op source v target) (.cast op source w target)
  | select {a b c d e f : SymValue} (cond : R a d) (ifTrue : R b e) (ifFalse : R c f) :
      AlikeBy R (.select a b c) (.select d e f)
  | extract (path : List Nat) {v w : SymValue} (whole : R v w) :
      AlikeBy R (.extract v path) (.extract w path)
  | insert (path : List Nat) {v w e f : SymValue} (whole : R v w) (element : R e f) :
      AlikeBy R (.insert v e path) (.insert w f path)
  | byte {a b : SymByte} (alike : a.AlikeBy R b) : AlikeBy R (.byte a) (.byte b)
  | concat (ty : Ty) {as bs : List SymByte} (bytes : List.Forall₂ (SymByte.AlikeBy R) as bs) :
      AlikeBy R (.concat as ty) (.concat bs ty)

namespace SymByte

theorem equalBy_iff {same : SymValue → SymValue → Bool} {a b : SymByte} :
    a.equalBy same b = true ↔ a.AlikeBy (fun v w => same v w = true) b := by
  simp only [equalBy, Bool.and_eq_true, Bool.or_eq_true, beq_iff_eq]
  constructor
  · rintro ⟨⟨⟨hid, hty⟩, hparent⟩, hindex⟩
    exact ⟨hid, hty, hparent, hindex⟩
  · rintro ⟨hid, hty, hparent, hindex⟩
    exact ⟨⟨⟨hid, hty⟩, hparent⟩, hindex⟩

theorem AlikeBy.imp {R S : SymValue → SymValue → Prop} {a b : SymByte} (h : a.AlikeBy R b)
    (hRS : ∀ v w, R v w → S v w) : a.AlikeBy S b :=
  ⟨h.storeId, h.ty, h.parent.imp_right (hRS _ _), hRS _ _ h.index⟩

theorem AlikeBy.flip {R : SymValue → SymValue → Prop} {a b : SymByte} (h : a.AlikeBy R b) :
    b.AlikeBy (fun v w => R w v) a :=
  ⟨h.storeId.symm, h.ty.symm, h.parent.imp_left Eq.symm, h.index⟩

end SymByte

namespace SymValue

theorem equalBy_iff {same : SymValue → SymValue → Bool} {v w : SymValue} :
    v.equalBy same w = true ↔ v.AlikeBy (fun v w => same v w = true) w := by
  constructor
  · -- values that are built in two ways are not equal
    intro h
    cases v <;> cases w <;>
      simp only [equalBy, Bool.and_eq_true, beq_iff_eq, allMatch_iff, SymByte.equalBy_iff,
        Bool.false_eq_true] at h
    case scalar.scalar => exact h ▸ .scalar _
    case undef.undef => exact h ▸ .undef _
    case poison.poison => exact h ▸ .poison _
    case void.void => exact .void
    case aggregate.aggregate => exact h.1 ▸ .aggregate _ h.2
    case binary.binary => exact h.1.1 ▸ .binary _ h.1.2 h.2
    case cast.cast =>
      obtain ⟨⟨⟨rfl, rfl⟩, rfl⟩, hvalue⟩ := h
      exact .cast _ _ _ hvalue
    case select.select => exact .select h.1.1 h.1.2 h.2
    case extract.extract => exact h.1 ▸ .extract _ h.2
    case insert.insert => exact h.1.1 ▸ .insert _ h.1.2 h.2
    case byte.byte => exact .byte h
    case concat.concat => exact h.1 ▸ .concat _ h.2
  · intro h
    cases h <;> simp_all [equalBy, allMatch_iff, SymByte.equalBy_iff]

theorem AlikeBy.imp {R S : SymValue → SymValue → Prop} {v w : SymValue} (h : v.AlikeBy R w)
    (hRS : ∀ v w, R v w → S v w) : v.AlikeBy S w := by
  cases h with
  | scalar s => exact .scalar s
  | undef ty => exact .undef ty
  | poison ty => exact .poison ty
  | void => exact .void
  | aggregate kind members => exact .aggregate kind (members.imp hRS)
  | binary op left right => exact .binary op (hRS _ _ left) (hRS _ _ right)
  | cast op source target value => exact .cast op source target (hRS _ _ value)
  | select cond ifTrue ifFalse => exact .select (hRS _ _ cond) (hRS _ _ ifTrue) (hRS _ _ ifFalse)
  | extract path whole => exact .extract path (hRS _ _ whole)
  | insert path whole element => exact .insert path (hRS _ _ whole) (hRS _ _ element)
  | byte alike => exact .byte (alike.imp hRS)
  | concat ty bytes => exact .concat ty (bytes.imp fun _ _ h => h.imp hRS)

theorem AlikeBy.flip {R : SymValue → SymValue → Prop} {v w : SymValue} (h : v.AlikeBy R w) :
    w.AlikeBy (fun v w => R w v) v := by
  cases h with
  | scalar s => exact .scalar s
  | undef ty => exact .undef ty
  | poison ty => exact .poison ty
  | void => exact .void
  | aggregate kind members => exact .aggregate kind members.flip
  | binary op left right => exact .binary op left right
  | cast op source target value => exact .cast op source target value
  | select cond ifTrue ifFalse => exact .select cond ifTrue ifFalse
  | extract path whole => exact .extract path whole
  | insert path whole element => exact .insert path whole element
  | byte alike => exact .byte alike.flip
  | concat ty bytes => exact .concat ty (bytes.imp fun _ _ h => h.flip).flip

/-- Two values are equal to one more level if they are built alike of equal ones. This is the only
place where the walk over two values is unfolded; all else about it is case analysis on `AlikeBy`.
-/
theorem equalWithin_succ {levels : Nat} {v w : SymValue} :
    v.equalWithin (levels + 1) w = true ↔
      v.AlikeBy (fun v w => v.equalWithin levels w = true) w :=
  equalBy_iff

/-- Equality does not depend on which value is walked over first. -/
theorem equalWithin_symm {levels : Nat} {v w : SymValue} (h : v.equalWithin levels w = true) :
    w.equalWithin levels v = true := by
  induction levels generalizing v w with
  | zero => cases h
  | succ levels ih => exact equalWithin_succ.2 ((equalWithin_succ.1 h).flip.imp fun _ _ => ih)

/-- What is equal to some levels is equal to more: the limit only ever makes values unequal. -/
theorem equalWithin_mono {m n : Nat} (hmn : m ≤ n) {v w : SymValue}
    (h : v.equalWithin m w = true) : v.equalWithin n w = true := by
  induction m generalizing n v w with
  | zero => cases h
  | succ m ih =>
    cases n with
    | zero => cases hmn
    | succ n =>
      exact equalWithin_succ.2
        ((equalWithin_succ.1 h).imp fun _ _ => ih (Nat.le_of_succ_le_succ hmn))

end SymValue

namespace SymByte

/-- Bytes are entangled if they carry one id and have one parent, which they have without a look at
it under one reference, and otherwise if their parents are equal within the limit. -/
theorem entangled_iff {a b : SymByte} :
    a.entangled b = true ↔
      a.storeId = b.storeId ∧
        (a.ref = b.ref ∨ a.parent.equalWithin (depthLimit + 1) b.parent = true) := by
  simp [entangled, sameParentWithin]

theorem entangled_symm {a b : SymByte} (h : a.entangled b = true) : b.entangled a = true := by
  obtain ⟨hid, hparent⟩ := entangled_iff.1 h
  exact entangled_iff.2 ⟨hid.symm, hparent.imp Eq.symm SymValue.equalWithin_symm⟩

end SymByte

end SymbolicBytes
