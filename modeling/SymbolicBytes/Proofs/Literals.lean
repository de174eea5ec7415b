import SymbolicBytes.Proofs.Integers
import SymbolicBytes.Proofs.Paths
import SymbolicBytes.Proofs.Shapes
/-!
# Literals

A literal that passes the check of shapes is decided, as a value of the type that it was checked
against (`Machine.decidesLiteral`). The check and the walk that decides go equally deep, so what
the check lets through is never too deep for the walk. In the decided value every part of the
literal is where it was: undefined parts are the zero values of their types, pointer-sized integers
are cut to the width of pointers, and all other parts are kept.
-/

namespace SymbolicBytes

namespace SymValue

/-- The part at the end of a path of member positions, through aggregates. -/
def partAt? : SymValue → List Nat → Option SymValue
  | v, [] => some v
  | .aggregate _ members, index :: path => members[index]?.bind (partAt? · path)
  | _, _ => none

end SymValue

namespace Machine

variable {machine : Machine} {v : SymValue} {t : Ty} {levels : Nat}

/-- What a part of a literal is in the value that is decided of it. -/
def LiteralAs (machine : Machine) : SymValue → Value → Prop
  | .undef ty, d => machine.addresses.zeroValue ty = .ok d
  | .scalar (.iptr int), d => d = .iptr (int % 2 ^ machine.target.pointerBits)
  | .scalar s, d => d = .scalar s
  | .poison ty, d => d = .poison ty
  | .void, d => d = .void
  | .aggregate kind members, d => ∃ ds, d = .aggregate kind ds ∧ ds.length = members.length
  | _, _ => False

/-- A literal of a type is decided as a value of the type, if there are enough levels. Nothing in it
could be a fault but an undefined part without a zero value, and types with values have one. -/
theorem exists_concretizeWithin_literal (hflat : machine.addresses = .flat) (hv : v.Literal)
    (ht : t.Supported) (hty : v.HasTy t) (hlevels : v.nesting < levels) :
    ∃ d, machine.concretizeWithin levels v = .ok d ∧ d.HasTy t := by
  induction levels generalizing v t with
  | zero => cases hlevels
  | succ levels ih =>
    rw [concretizeWithin]
    cases hv with
    | scalar s =>
      cases hty
      cases s <;> exact ⟨_, rfl, .scalar _⟩
    | undef ty =>
      cases hty
      obtain ⟨d, hd⟩ := AddressSpace.exists_zeroValue_eq_ok t ht
      rw [← hflat] at hd
      exact ⟨d, hd, AddressSpace.hasTy_zeroValue hd⟩
    | poison ty =>
      cases hty
      exact ⟨_, rfl, .poison t⟩
    | void =>
      cases hty
      exact ⟨_, rfl, .void⟩
    | aggregate kind hliterals =>
      -- an aggregate leaves its members one level fewer, and they are nested less deep
      cases hty with
      | aggregate hkind hmembers =>
        rw [SymValue.nesting_aggregate_lt_iff] at hlevels
        obtain ⟨ds, hds, htys⟩ := Outcome.exists_mapM_of_forall₂ <|
          forall₂_of_mem hmembers fun m hm u hu hmu =>
            ih (hliterals m hm) (ht.of_mem hu) hmu (hlevels m hm)
        refine ⟨.aggregate kind ds, ?_, .aggregate hkind htys⟩
        rw [concretizeBy, hds, Outcome.map_ok]

theorem literalAs_concretizeWithin (hv : v.Literal) {d : Value}
    (h : machine.concretizeWithin levels v = .ok d) : machine.LiteralAs v d := by
  cases levels with
  | zero => cases h
  | succ levels =>
    rw [concretizeWithin] at h
    cases hv with
    | scalar s =>
      cases s with
      | iptr int =>
        obtain rfl := Except.ok.inj h
        exact congrArg Value.iptr (wrapUnsigned_eq_emod ..)
      | _ => exact (Except.ok.inj h).symm
    | undef ty => exact h
    | poison ty => exact (Except.ok.inj h).symm
    | void => exact (Except.ok.inj h).symm
    | aggregate kind hliterals =>
      obtain ⟨ds, hds, rfl⟩ := Outcome.map_eq_ok.1 h
      exact ⟨ds, rfl, (Outcome.mapM_eq_ok.1 hds).length_eq.symm⟩

/-- Every part of a literal is in the decided value, at the end of the same path. -/
theorem exists_extractPath_literal (hv : v.Literal) {d : Value}
    (h : machine.concretizeWithin levels v = .ok d) {path : List Nat} {w : SymValue}
    (hpath : v.partAt? path = some w) :
    ∃ part, d.extractPath path = .ok part ∧ machine.LiteralAs w part := by
  induction path generalizing v d levels with
  | nil =>
    obtain rfl : v = w := by
      rw [SymValue.partAt?] at hpath
      exact Option.some.inj hpath
    exact ⟨d, d.extractPath_nil, literalAs_concretizeWithin hv h⟩
  | cons index path ih =>
    cases hv with
    | aggregate kind hliterals =>
      cases levels with
      | zero => cases h
      | succ levels =>
        obtain ⟨ds, hds, rfl⟩ := Outcome.map_eq_ok.1 h
        obtain ⟨m, hm, hrest⟩ := Option.bind_eq_some_iff.1 hpath
        obtain ⟨e, he, hdecided⟩ :=
          exists_getElem?_of_forall₂ (Outcome.mapM_eq_ok.1 hds).flip hm
        obtain ⟨part, hpart, hliteral⟩ :=
          ih (hliterals m (List.mem_of_getElem? hm)) hdecided hrest
        exact ⟨part, (Value.extractPath_cons_of_spellOut rfl).2 ⟨e, he, hpart⟩, hliteral⟩
    | _ => cases hpath

/-- What holds of a literal and a type that it may be stored at. -/
structure DecidesLiteral (machine : Machine) (v : SymValue) (t : Ty) : Prop where
  /-- it passes the check if it has the type and is not nested too deep, and only then -/
  checked : v.checkShape t = .ok () ↔ v.HasTy t ∧ v.nesting ≤ depthLimit
  /-- if it passes the check, it is decided as a value of the type, part by part -/
  decided : v.checkShape t = .ok () →
    ∃ d, machine.concretize v = .ok d ∧ d.HasTy t ∧
      ∀ path w, v.partAt? path = some w →
        ∃ part, d.extractPath path = .ok part ∧ machine.LiteralAs w part

/-- On machines with flat addresses, every literal that passes the check of shapes against a type
with values is decided as a value of the type. So a literal that was stored is never a fault when it
is loaded as a whole and decided. -/
theorem decidesLiteral (hflat : machine.addresses = .flat) (ht : t.Supported) (hv : v.Literal) :
    machine.DecidesLiteral v t := by
  have hchecked : v.checkShape t = .ok () ↔ v.HasTy t ∧ v.nesting < depthLimit + 1 :=
    ⟨hv.of_shapeWithin_eq_ok, fun h => SymValue.shapeWithin_of_hasTy h.1 h.2⟩
  refine ⟨by rw [hchecked, Nat.lt_succ_iff], ?_⟩
  intro hshape
  obtain ⟨hty, hlevels⟩ := hchecked.1 hshape
  obtain ⟨d, hd, hdty⟩ := exists_concretizeWithin_literal hflat hv ht hty hlevels
  exact ⟨d, hd, hdty, fun path w hpath => exists_extractPath_literal hv hd hpath⟩

/-- A literal with undefined parts of an array type and in a vector, poison, a pointer-sized integer
that is out of range, and an array without elements. -/
def mixedLiteral : SymValue :=
  .aggregate (.record .struct)
    [.undef (.array 2 (.int 32)),
      .aggregate (.sequence .vector) [.scalar (.int ⟨.i8, 200⟩), .undef (.int 8)],
      .poison (.float .double), .iptr (-3), .aggregate (.sequence .array) []]

/-- The type of `mixedLiteral`. -/
def mixedTy : Ty :=
  .record .struct
    [.array 2 (.int 32), .vector 2 (.int 8), .float .double, .iptr, .array 0 .pointer]

/-- The literal has a part of each kind that is not kept as it is. -/
theorem decidesLiteral_mixedLiteral :
    mixedTy.Supported ∧ mixedLiteral.Literal ∧ mixedLiteral.checkShape mixedTy = .ok () ∧
      DecidesLiteral (standard .standard) mixedLiteral mixedTy := by
  have ht : mixedTy.Supported := by decide
  have hv : mixedLiteral.Literal := by
    have hlanes : ∀ m ∈ [.scalar (.int ⟨.i8, 200⟩), .undef (.int 8)], SymValue.Literal m :=
      List.forall_mem_cons.2 ⟨.scalar _, List.forall_mem_singleton.2 (.undef _)⟩
    refine .aggregate _ ?_
    simp only [List.forall_mem_cons, List.not_mem_nil, false_implies, implies_true, and_true]
    exact ⟨.undef _, .aggregate _ hlanes, .poison _, .scalar _, .aggregate _ nofun⟩
  exact ⟨ht, hv, rfl, decidesLiteral rfl ht hv⟩

end Machine

end SymbolicBytes
