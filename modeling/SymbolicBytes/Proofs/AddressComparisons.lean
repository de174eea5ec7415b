import SymbolicBytes.Proofs.Comparisons
import SymbolicBytes.Proofs.ConcreteValues
/-!
# Comparisons of addresses

Pointers against the integers they are converted to. Two addresses are compared as integers of 64
bits, and the integers they are converted to as integers of the width of pointers. Where an address
is in the range of pointers it reads the same without a sign, but with one it does not if pointers
are shorter than 64 bits and the address is in their upper half.

So the two comparisons are the same, in each lane of a vector, unless the comparison reads signs,
pointers are short and just one of the addresses is in the upper half (`comparesAddresses`).
-/

namespace SymbolicBytes

/-- Whether a comparison reads its operands with a sign. -/
def IntPred.isSigned : IntPred → Bool
  | .sgt | .sge | .slt | .sle => true
  | .eq | .ne | .ugt | .uge | .ult | .ule => false

/-- Whether a comparison holds between two addresses that are read as integers of `n` bits. -/
def IntPred.onAddresses (n : Nat) (pred : IntPred) (a b : Address) : Bool :=
  pred.Holds a.bits.toNat b.bits.toNat ((a.bits.toNat : Int).bmod (2 ^ n))
    ((b.bits.toNat : Int).bmod (2 ^ n))

/-- Whether an address is in the upper half of the integers of `n` bits. -/
def Address.IsUpper (n : Nat) (a : Address) : Prop := 2 ^ (n - 1) ≤ a.bits.toNat

/-! ## Readings -/

section Readings

variable {n : Nat} {a b : Address}

/-- An address in the range of `n` bits is read with a sign by the half it is in. In the upper half
it is negative, which it never is as an integer of 64 bits if pointers are shorter. -/
theorem Address.bmod_eq (hn : 1 ≤ n) (ha : a.bits.toNat < 2 ^ n) :
    (a.IsUpper n → (a.bits.toNat : Int).bmod (2 ^ n) = a.bits.toNat - 2 ^ n) ∧
      (¬ a.IsUpper n → (a.bits.toNat : Int).bmod (2 ^ n) = a.bits.toNat) := by
  have hpow := mul_pow_sub_one (Nat.ne_of_gt hn) 2
  have hcast : ((2 ^ n : Nat) : Int) = 2 ^ n := Int.natCast_pow 2 n
  rw [IsUpper]
  constructor
  · intro hupper
    rw [← Int.sub_bmod_right, hcast]
    exact Int.bmod_eq_of_le (by omega) (by omega)
  · intro hlower
    exact Int.bmod_eq_of_le (by omega) (by omega)

/-- Addresses compare as what they are, integers of 64 bits. -/
theorem IntPred.onWords_bits (pred : IntPred) (a b : Address) :
    pred.onWords a.bits b.bits = pred.onAddresses 64 a b := by
  rw [pred.onWords_eq, BitVec.toInt_eq_toNat_bmod, BitVec.toInt_eq_toNat_bmod]
  rfl

/-- The integers that addresses in the range of pointers are converted to compare as integers of the
width of pointers. -/
theorem IntPred.onWords_wrapUnsigned (pred : IntPred) (ha : a.bits.toNat < 2 ^ n)
    (hb : b.bits.toNat < 2 ^ n) :
    pred.onWords (BitVec.ofInt n (wrapUnsigned n a.bits.toNat))
        (BitVec.ofInt n (wrapUnsigned n b.bits.toNat)) = pred.onAddresses n a b := by
  have hnat : ∀ x : Nat, x < 2 ^ n → (BitVec.ofInt n x).toNat = x := by
    intro x hx
    rw [BitVec.ofInt_natCast, BitVec.toNat_ofNat, Nat.mod_eq_of_lt hx]
  rw [wrapUnsigned, wrapUnsigned, ofInt_toNat, ofInt_toNat, pred.onWords_eq, hnat _ ha, hnat _ hb,
    BitVec.toInt_ofInt, BitVec.toInt_ofInt]
  rfl

/-- Read with fewer bits, two addresses compare the other way by signs if only one of them is in the
upper half. Without signs nothing changes, and in one half their order does not. -/
theorem IntPred.onAddresses_eq_iff (hn : 1 ≤ n) (hn64 : n ≤ 64) (pred : IntPred)
    (ha : a.bits.toNat < 2 ^ n) (hb : b.bits.toNat < 2 ^ n) :
    pred.onAddresses 64 a b = pred.onAddresses n a b ↔
      pred.isSigned = false ∨ n = 64 ∨ (a.IsUpper n ↔ b.IsUpper n) := by
  rcases Nat.eq_or_lt_of_le hn64 with rfl | hlt
  · simp
  · have hwide : ∀ c : Address, c.bits.toNat < 2 ^ n →
        (c.bits.toNat : Int).bmod (2 ^ 64) = c.bits.toNat := by
      intro c hc
      refine (c.bmod_eq (by decide) c.bits.isLt).2 ?_
      exact Nat.not_le_of_lt (hc.trans_le (Nat.pow_le_pow_right (by decide) (by omega)))
    have hpow : ((2 ^ n : Nat) : Int) = 2 ^ n := Int.natCast_pow 2 n
    obtain ⟨haupper, halower⟩ := a.bmod_eq hn ha
    obtain ⟨hbupper, hblower⟩ := b.bmod_eq hn hb
    rw [Bool.eq_iff_iff, onAddresses, onAddresses, decide_eq_true_iff, decide_eq_true_iff,
      hwide a ha, hwide b hb]
    cases pred with
    | eq | ne | ugt | uge | ult | ule => exact iff_of_true Iff.rfl (.inl rfl)
    | sgt | sge | slt | sle =>
      simp only [Holds, isSigned, hlt.ne, Bool.true_eq_false, false_or]
      by_cases hau : a.IsUpper n <;> by_cases hbu : b.IsUpper n <;>
        simp only [hau, hbu, haupper, halower, hbupper, hblower, not_false_eq_true,
          not_true_eq_false, iff_true, iff_false] <;>
        rw [Address.IsUpper] at hau hbu <;> omega

end Readings

/-! ## Lanes -/

/-- A lane of a vector: a scalar, or poison. -/
def Value.lane (t : Ty) : Option Scalar → Value
  | some s => .scalar s
  | none => .poison t

/-- A vector of addresses, with poison in the lanes that have none. -/
def Value.pointers (lanes : List (Option Address)) : Value :=
  .vector (lanes.map fun x => .lane .pointer (x.map .address))

/-- The comparison of two lanes as integers of `n` bits, poison if one of them is. -/
def IntPred.onPointers (n : Nat) (pred : IntPred) : Option Address → Option Address → Value
  | some a, some b => .bit (pred.onAddresses n a b)
  | _, _ => .poison .bit

/-- A comparison of vectors whose lanes are made of addresses compares lane by lane, with poison
where either lane has none. -/
theorem InstructionSet.binary_lanes {iptrBits n : Nat} {pred : IntPred} {t : Ty}
    {s : Address → Scalar} {xs ys : List (Option Address)} (hlen : xs.length = ys.length)
    (hcompare : ∀ a b, some a ∈ xs → some b ∈ ys →
      pred.onScalars iptrBits (.scalar (s a)) (.scalar (s b)) =
        .ok (.bit (pred.onAddresses n a b))) :
    (standard iptrBits).binary (.intCmp pred) (.vector (xs.map fun x => .lane t (x.map s)))
        (.vector (ys.map fun y => .lane t (y.map s))) =
      .ok (.vector (List.zipWith (pred.onPointers n) xs ys)) := by
  simp only [standard, onLanes, List.length_map, if_pos hlen]
  rw [Outcome.map_eq_ok]
  refine ⟨_, ?_, rfl⟩
  rw [Outcome.mapM_eq_ok, List.zip_map, ← List.map_uncurry_zip_eq_zipWith,
    List.forall₂_map_left_iff, List.forall₂_map_right_iff, List.forall₂_same]
  rintro ⟨x, y⟩ hmem
  obtain ⟨hx, hy⟩ := List.of_mem_zip hmem
  cases x with
  | none => rfl
  | some a =>
    cases y with
    | none => rfl
    | some b => exact hcompare a b hx hy

namespace Machine

/-! ## Instructions -/

/-- A comparison of two values. -/
def compared (pred : IntPred) (v w : Value) : SymValue := .binary (.intCmp pred) v.toSym w.toSym

/-- A comparison of the integers that pointers are converted to, both of the given types. -/
def comparedAsIntegers (pred : IntPred) (pointers integers : Ty) (v w : Value) : SymValue :=
  .binary (.intCmp pred) (.cast .ptrtoint pointers v.toSym integers)
    (.cast .ptrtoint pointers w.toSym integers)

variable {target : Target} {pred : IntPred}

theorem concretizeWithin_pointers (lanes : List (Option Address)) {levels : Nat}
    (hlevels : 1 < levels) :
    (standard target).concretizeWithin levels (Value.pointers lanes).toSym =
      .ok (.pointers lanes) := by
  apply concretizeWithin_toSym
  · rw [Value.pointers, Value.scalarsIn_aggregate, List.forall_mem_map]
    rintro (_ | a) -
    · exact Value.scalarsIn_poison _
    · exact Value.scalarsIn_scalar.2 trivial
  · refine Nat.lt_of_lt_of_le ?_ hlevels
    rw [Value.pointers, Value.height_aggregate_lt_iff, List.forall_mem_map]
    rintro (_ | a) - <;> exact Nat.zero_lt_one

theorem concretize_compared_addresses (pred : IntPred) (a b : Address) :
    (standard target).concretize (compared pred (.address a) (.address b)) =
      .ok (.bit (pred.onAddresses 64 a b)) := by
  rw [← pred.onWords_bits]
  rfl

theorem concretize_comparedAsIntegers_addresses (pred : IntPred) {a b : Address}
    (ha : a.bits.toNat < 2 ^ target.pointerBits) (hb : b.bits.toNat < 2 ^ target.pointerBits) :
    (standard target).concretize
        (comparedAsIntegers pred .pointer .iptr (.address a) (.address b)) =
      .ok (.bit (pred.onAddresses target.pointerBits a b)) := by
  rw [← pred.onWords_wrapUnsigned ha hb]
  rfl

theorem concretize_compared_pointers (pred : IntPred) {xs ys : List (Option Address)}
    (hlen : xs.length = ys.length) :
    (standard target).concretize (compared pred (.pointers xs) (.pointers ys)) =
      .ok (.vector (List.zipWith (pred.onPointers 64) xs ys)) := by
  rw [concretize, compared, concretizeWithin, concretizeBy,
    concretizeWithin_pointers xs (by decide), concretizeWithin_pointers ys (by decide),
    Outcome.ok_bind, Outcome.ok_bind]
  refine InstructionSet.binary_lanes hlen fun a b _ _ => ?_
  rw [← pred.onWords_bits]
  rfl

/-- Pointers are converted to integers lane by lane, and lanes without an address stay poison. -/
theorem concretizeWithin_ptrtoint_pointers (lanes : List (Option Address)) {count : Nat}
    (hcount : lanes.length = count) {levels : Nat} (hlevels : 2 < levels) :
    (standard target).concretizeWithin levels
        (.cast .ptrtoint (.vector count .pointer) (Value.pointers lanes).toSym
          (.vector count .iptr)) =
      .ok (.vector (lanes.map fun x => .lane .iptr
        (x.map fun a => .iptr (wrapUnsigned target.pointerBits a.bits.toNat)))) := by
  obtain ⟨levels, rfl⟩ := Nat.exists_eq_add_of_lt hlevels
  rw [concretizeWithin, concretizeBy, concretizeWithin_pointers lanes (by omega), Outcome.ok_bind]
  change castPointers (standard target) .ptrtoint _ (.pointers lanes) _ = _
  rw [Value.pointers, castPointers, List.length_map, if_pos hcount, Outcome.map_eq_ok]
  refine ⟨_, ?_, rfl⟩
  rw [Outcome.mapM_eq_ok, List.forall₂_map_left_iff, List.forall₂_map_right_iff, List.forall₂_same]
  rintro (_ | a) - <;> rfl

theorem concretize_comparedAsIntegers_pointers (pred : IntPred) {xs ys : List (Option Address)}
    (hlen : xs.length = ys.length)
    (hrange : ∀ a, some a ∈ xs ∨ some a ∈ ys → a.bits.toNat < 2 ^ target.pointerBits) :
    (standard target).concretize (comparedAsIntegers pred (.vector xs.length .pointer)
        (.vector xs.length .iptr) (.pointers xs) (.pointers ys)) =
      .ok (.vector (List.zipWith (pred.onPointers target.pointerBits) xs ys)) := by
  rw [concretize, comparedAsIntegers, concretizeWithin, concretizeBy,
    concretizeWithin_ptrtoint_pointers xs rfl (by decide),
    concretizeWithin_ptrtoint_pointers ys hlen.symm (by decide), Outcome.ok_bind, Outcome.ok_bind]
  refine InstructionSet.binary_lanes hlen fun a b ha hb => ?_
  rw [← pred.onWords_wrapUnsigned (hrange a (.inl ha)) (hrange b (.inr hb))]
  rfl

/-- Two vectors of comparisons are the same if the comparisons in each lane are. Poison lanes agree
at any width. -/
theorem zipWith_onPointers_eq_iff {m n : Nat} {xs ys : List (Option Address)} :
    List.zipWith (pred.onPointers m) xs ys = List.zipWith (pred.onPointers n) xs ys ↔
      ∀ a b, (some a, some b) ∈ xs.zip ys → pred.onAddresses m a b = pred.onAddresses n a b := by
  rw [← List.map_uncurry_zip_eq_zipWith, ← List.map_uncurry_zip_eq_zipWith, List.map_inj_left]
  constructor
  · intro h a b hmem
    exact Value.bit_inj.1 (h _ hmem)
  · rintro h ⟨_ | a, _ | b⟩ hmem
    · rfl
    · rfl
    · rfl
    · exact congrArg Value.bit (h a b hmem)

/-- What is to be shown of comparing pointers and comparing the integers they are converted to. -/
structure ComparesAddresses (target : Target) (pred : IntPred) : Prop where
  /-- two addresses compare as integers of 64 bits, and their integers at the width of pointers -/
  addresses : ∀ a b : Address, a.bits.toNat < 2 ^ target.pointerBits →
    b.bits.toNat < 2 ^ target.pointerBits →
    (standard target).concretize (compared pred (.address a) (.address b)) =
        .ok (.bit (pred.onAddresses 64 a b)) ∧
      (standard target).concretize
          (comparedAsIntegers pred .pointer .iptr (.address a) (.address b)) =
        .ok (.bit (pred.onAddresses target.pointerBits a b))
  /-- the two are the same unless signs are read with fewer bits, and of different halves -/
  same_iff : ∀ a b : Address, a.bits.toNat < 2 ^ target.pointerBits →
    b.bits.toNat < 2 ^ target.pointerBits →
    ((standard target).concretize (compared pred (.address a) (.address b)) =
        (standard target).concretize
          (comparedAsIntegers pred .pointer .iptr (.address a) (.address b)) ↔
      pred.isSigned = false ∨ target.pointerSize = 8 ∨
        (a.IsUpper target.pointerBits ↔ b.IsUpper target.pointerBits))
  /-- in vectors, the same of each lane -/
  lanes : ∀ xs ys : List (Option Address), xs.length = ys.length →
    (∀ a, some a ∈ xs ∨ some a ∈ ys → a.bits.toNat < 2 ^ target.pointerBits) →
    (standard target).concretize (compared pred (.pointers xs) (.pointers ys)) =
        .ok (.vector (List.zipWith (pred.onPointers 64) xs ys)) ∧
      (standard target).concretize (comparedAsIntegers pred (.vector xs.length .pointer)
          (.vector xs.length .iptr) (.pointers xs) (.pointers ys)) =
        .ok (.vector (List.zipWith (pred.onPointers target.pointerBits) xs ys))
  /-- and two vectors are the same unless two lanes are not -/
  sameLanes_iff : ∀ xs ys : List (Option Address), xs.length = ys.length →
    (∀ a, some a ∈ xs ∨ some a ∈ ys → a.bits.toNat < 2 ^ target.pointerBits) →
    ((standard target).concretize (compared pred (.pointers xs) (.pointers ys)) =
        (standard target).concretize (comparedAsIntegers pred (.vector xs.length .pointer)
          (.vector xs.length .iptr) (.pointers xs) (.pointers ys)) ↔
      pred.isSigned = false ∨ target.pointerSize = 8 ∨ ∀ a b, (some a, some b) ∈ xs.zip ys →
        (a.IsUpper target.pointerBits ↔ b.IsUpper target.pointerBits))

/-- Comparing pointers of one to eight bytes is comparing the integers they are converted to, unless
the comparison reads signs, the pointers have fewer than eight bytes and their signs differ. This is
exact: where all three are so, the two results are opposite. -/
theorem comparesAddresses {target : Target} (hp : 1 ≤ target.pointerSize)
    (hp8 : target.pointerSize ≤ 8) (pred : IntPred) : ComparesAddresses target pred := by
  have hbits : target.pointerBits = 8 * target.pointerSize := by
    rw [Target.pointerBits, Nat.min_eq_left]
    exact (Nat.mul_le_mul_left 8 hp8).trans (by decide)
  have hwide : target.pointerBits = 64 ↔ target.pointerSize = 8 := by omega
  have hagree := fun a b => pred.onAddresses_eq_iff (n := target.pointerBits) (a := a) (b := b)
    (by omega) (by omega)
  constructor
  case addresses =>
    intro a b ha hb
    exact ⟨concretize_compared_addresses pred a b,
      concretize_comparedAsIntegers_addresses pred ha hb⟩
  case same_iff =>
    intro a b ha hb
    rw [concretize_compared_addresses, concretize_comparedAsIntegers_addresses pred ha hb,
      ← hwide, ← hagree a b ha hb, Except.ok.injEq, Value.bit_inj]
  case lanes =>
    intro xs ys hlen hrange
    exact ⟨concretize_compared_pointers pred hlen,
      concretize_comparedAsIntegers_pointers pred hlen hrange⟩
  case sameLanes_iff =>
    intro xs ys hlen hrange
    rw [concretize_compared_pointers pred hlen,
      concretize_comparedAsIntegers_pointers pred hlen hrange, ← hwide, Except.ok.injEq,
      Value.aggregate.injEq, zipWith_onPointers_eq_iff]
    -- the condition on signs and sizes is the same for all lanes, so it comes out of the quantifier
    have hlanes : ∀ a b, (some a, some b) ∈ xs.zip ys →
        (pred.onAddresses 64 a b = pred.onAddresses target.pointerBits a b ↔
          pred.isSigned = false ∨ target.pointerBits = 64 ∨
            (a.IsUpper target.pointerBits ↔ b.IsUpper target.pointerBits)) := by
      intro a b hmem
      obtain ⟨hx, hy⟩ := List.of_mem_zip hmem
      exact hagree a b (hrange a (.inl hx)) (hrange b (.inr hy))
    rw [forall₃_congr hlanes, eq_self, true_and]
    simp only [forall_or_left]

/-- The order by signs of pointers of two bytes, and of vectors of them in which one lane is poison
and the other holds two addresses in the upper half. -/
theorem comparesAddresses_shortPointers :
    1 ≤ shortPointers.pointerSize ∧ shortPointers.pointerSize ≤ 8 ∧
      ComparesAddresses shortPointers .slt ∧
      (standard shortPointers).concretize
          (compared .slt (.pointers [some ⟨0x8000, .nil⟩, none])
            (.pointers [some ⟨0xffff, .nil⟩, some ⟨1, .nil⟩])) =
        .ok (.vector [.bit true, .poison .bit]) :=
  ⟨by decide, by decide, comparesAddresses (by decide) (by decide) .slt, rfl⟩

/-- With pointers of two bytes, an address in the upper half is above the null address, but the
integer it is converted to is below. -/
theorem slt_addresses_upper :
    ∃ a b : Address, a.bits.toNat < 2 ^ shortPointers.pointerBits ∧
      b.bits.toNat < 2 ^ shortPointers.pointerBits ∧
      (standard shortPointers).concretize (compared .slt (.address a) (.address b)) =
        .ok (.bit false) ∧
      (standard shortPointers).concretize
          (comparedAsIntegers .slt .pointer .iptr (.address a) (.address b)) = .ok (.bit true) :=
  ⟨⟨0x8000, .wildcard⟩, ⟨0, .nil⟩, by decide, by decide, rfl, rfl⟩

end Machine

end SymbolicBytes
