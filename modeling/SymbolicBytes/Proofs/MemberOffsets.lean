import Mathlib.Logic.ExistsUnique
import SymbolicBytes.Proofs.Sizes
/-!
# Where members begin

Members lie end to end, so a member begins where the sizes of those before it add up to
(`Target.memberOffset`). Sizes stop at the largest one, at every product and at every sum. That this
never makes a size too small is `byteSize_eq_saturate`: it comes to the same as stopping once, at
the end. So as long as the exact size of a type is a size at all, nothing in it is cut short, the
members share out its bytes (`tiled`), and so do the parts without members at whatever level they
are (`existsUnique_leafAt`). `cutAtTop` is the whole account.
-/

namespace SymbolicBytes

/-- A position below the sum of sizes lies in the stretch of one of them, and of no other. A size of
zero has no positions, and is never the one. -/
theorem existsUnique_stretch {sizes : List Nat} {b : Nat} (h : b < sizes.sum) :
    ∃! index, ∃ size, sizes[index]? = some size ∧
      (sizes.take index).sum ≤ b ∧ b < (sizes.take index).sum + size := by
  induction sizes generalizing b with
  | nil => cases h
  | cons first sizes ih =>
    rw [List.sum_cons] at h
    by_cases hb : b < first
    · refine ⟨0, ⟨first, rfl, Nat.zero_le b, by simpa using hb⟩, ?_⟩
      rintro (_ | index) ⟨size, -, hlow, -⟩
      · rfl
      · rw [List.take_succ_cons, List.sum_cons] at hlow
        omega
    · obtain ⟨index, ⟨size, hsize, hlow, hhigh⟩, honly⟩ := ih (b := b - first) (by omega)
      refine ⟨index + 1, ⟨size, hsize, ?_⟩, ?_⟩
      · rw [List.take_succ_cons, List.sum_cons]
        omega
      · rintro (_ | other) ⟨size', hsize', hlow', hhigh'⟩
        · obtain rfl := Option.some.inj hsize'
          rw [List.take_zero, List.sum_nil, Nat.zero_add] at hhigh'
          exact absurd hhigh' hb
        · rw [List.take_succ_cons, List.sum_cons] at hlow' hhigh'
          rw [honly other ⟨size', hsize', by omega, by omega⟩]

namespace Target

variable (target : Target)

/-- The position at which a member begins: behind all members before it. -/
def memberOffset (t : Ty) (index : Nat) : Nat :=
  ((t.memberTys.take index).map target.byteSize).sum

/-- Where the parts of a type that have no members themselves lie: `LeafAt t path offset leaf` says
that there is one at the end of a path of member positions, with `offset` bytes before it. -/
inductive LeafAt : Ty → List Nat → Nat → Ty → Prop where
  /-- a type without members is its own only part -/
  | self {t : Ty} (h : t.aggregateKind? = none) : LeafAt t [] 0 t
  /-- a part of a member lies behind the beginning of the member -/
  | member {t m leaf : Ty} {index offset : Nat} {path : List Nat}
      (hm : t.memberTys[index]? = some m) (h : LeafAt m path offset leaf) :
    LeafAt t (index :: path) (target.memberOffset t index + offset) leaf

variable {target : Target} {t m leaf : Ty} {index offset b : Nat} {path : List Nat}

/-! ## Sums that stop at the top -/

/-- Adding one size after the other, and stopping at the largest one at each, is stopping at the
end. -/
theorem foldl_saturate_eq (ts : List Ty) {size : Nat} (h : size ≤ maxSize) :
    ts.foldl (fun size t => saturate (size + target.byteSize t)) size =
      saturate (size + target.exactSizes ts) := by
  induction ts generalizing size with
  | nil => rw [exactSizes, Nat.add_zero, saturate_eq_self h, List.foldl_nil]
  | cons t ts ih =>
    rw [List.foldl_cons, ih (saturate_le _), byteSize_eq_saturate, exactSizes]
    simp only [saturate]
    omega

/-- The fields of a record are sized from the first to the last. By the above this is the same as
sizing them from the last. -/
theorem byteSizes_eq_foldl (ts : List Ty) :
    target.byteSizes ts = ts.foldl (fun size t => saturate (size + target.byteSize t)) 0 := by
  rw [foldl_saturate_eq ts (Nat.zero_le _), Nat.zero_add, byteSizes_eq_saturate]

theorem byteSize_le_of_mem (h : m ∈ t.memberTys) : target.byteSize m ≤ target.byteSize t := by
  have hle := target.exactSize_le_of_mem h
  rw [byteSize_eq_saturate, byteSize_eq_saturate]
  simp only [saturate]
  omega

/-- No part is larger than the whole, even where the size of the whole is cut. -/
theorem byteSize_le_of_memberAt? (h : t.memberAt? path = some m) :
    target.byteSize m ≤ target.byteSize t := by
  induction path generalizing t with
  | nil =>
    obtain rfl := Option.some.inj h
    exact Nat.le_refl _
  | cons index path ih =>
    obtain ⟨s, hs, hm⟩ := Option.bind_eq_some_iff.1 h
    rw [Ty.member?_eq_memberTys] at hs
    exact Nat.le_trans (ih hm) (byteSize_le_of_mem (List.mem_of_getElem? hs))

/-! ## The bytes of members -/

theorem memberOffset_zero : target.memberOffset t 0 = 0 := by simp [memberOffset]

theorem memberOffset_succ (hm : t.memberTys[index]? = some m) :
    target.memberOffset t (index + 1) = target.memberOffset t index + target.byteSize m := by
  simp [memberOffset, List.take_add_one, hm]

/-- Members begin where those before them end that are sized together. -/
theorem byteSizes_take_eq_memberOffset (h : target.exactSize t ≤ maxSize) (index : Nat) :
    target.byteSizes (t.memberTys.take index) = target.memberOffset t index := by
  rw [target.byteSizes_take_memberTys h, memberOffset]
  congr 1
  refine List.map_congr_left fun m hm => ?_
  have hle := target.exactSize_le_of_mem (List.mem_of_mem_take hm)
  exact (target.byteSize_eq_exactSize (Nat.le_trans hle h)).symm

/-- Behind the last member is the end. -/
theorem memberOffset_length (h : target.exactSize t ≤ maxSize) {kind : AggregateKind}
    (hkind : t.aggregateKind? = some kind) :
    target.memberOffset t t.memberTys.length = target.byteSize t := by
  rw [← byteSizes_take_eq_memberOffset h, List.take_length, target.byteSize_eq_byteSizes hkind]

/-- A member ends before the end of the whole. Where the exact size is not a size, this may fail. -/
theorem memberOffset_add_le (h : target.exactSize t ≤ maxSize)
    (hm : t.memberTys[index]? = some m) :
    target.memberOffset t index + target.byteSize m ≤ target.byteSize t := by
  obtain ⟨kind, hkind⟩ := Ty.exists_aggregateKind?_of_mem (List.mem_of_getElem? hm)
  rw [← memberOffset_succ hm, ← memberOffset_length h hkind, memberOffset, memberOffset,
    List.take_length]
  conv_rhs => rw [← List.take_append_drop (index + 1) t.memberTys, List.map_append, List.sum_append]
  exact Nat.le_add_right ..

/-- Every byte of an aggregate is a byte of one of its members, and of no other. There are no bytes
between members and none behind them. -/
theorem existsUnique_member (h : target.exactSize t ≤ maxSize) {kind : AggregateKind}
    (hkind : t.aggregateKind? = some kind) (hb : b < target.byteSize t) :
    ∃! index, ∃ m, t.memberTys[index]? = some m ∧
      target.memberOffset t index ≤ b ∧ b < target.memberOffset t index + target.byteSize m := by
  rw [← memberOffset_length h hkind, memberOffset, List.take_length] at hb
  have hstretch := existsUnique_stretch hb
  simpa [memberOffset, List.map_take] using hstretch

/-! ## The bytes of parts without members -/

/-- A part ends before the end of the whole. -/
theorem LeafAt.add_le (h : target.LeafAt t path offset leaf)
    (hsize : target.exactSize t ≤ maxSize) :
    offset + target.byteSize leaf ≤ target.byteSize t := by
  induction h with
  | self => exact Nat.le_of_eq (Nat.zero_add _)
  | @member t m leaf index offset path hm _ ih =>
    have hle := target.exactSize_le_of_mem (List.mem_of_getElem? hm)
    have hin := ih (Nat.le_trans hle hsize)
    have hmember := memberOffset_add_le hsize hm
    omega

/-- Every byte is a byte of one part without members, and of no other. By induction on the type: the
byte is in one member, and in one part of that. -/
theorem existsUnique_leafAt (hsize : target.exactSize t ≤ maxSize) (hb : b < target.byteSize t) :
    ∃! path, ∃ offset leaf, target.LeafAt t path offset leaf ∧
      offset ≤ b ∧ b < offset + target.byteSize leaf := by
  induction t using Ty.byMembers generalizing b with
  | atom t hatom =>
    refine ⟨[], ⟨0, t, .self hatom, Nat.zero_le b, by rwa [Nat.zero_add]⟩, ?_⟩
    rintro path ⟨offset, leaf, hleaf, -, -⟩
    cases hleaf with
    | self => rfl
    | member hm _ => simp [Ty.memberTys_eq_nil hatom] at hm
  | aggregate t kind hkind ih =>
    obtain ⟨index, ⟨m, hm, hlow, hhigh⟩, honly⟩ := existsUnique_member hsize hkind hb
    have hsizes : ∀ {m}, m ∈ t.memberTys → target.exactSize m ≤ maxSize := fun hmem =>
      Nat.le_trans (target.exactSize_le_of_mem hmem) hsize
    have hmem := List.mem_of_getElem? hm
    obtain ⟨path, ⟨offset, leaf, hleaf, hlow', hhigh'⟩, honly'⟩ :=
      ih m hmem (hsizes hmem) (b := b - target.memberOffset t index) (by omega)
    refine ⟨index :: path, ⟨_, leaf, .member hm hleaf, by omega, by omega⟩, ?_⟩
    rintro other ⟨offset', leaf', hother, hlow'', hhigh''⟩
    cases hother with
    | self h => cases hkind.symm.trans h
    | @member _ m' _ index' offset' path' hm' hleaf' =>
      -- the other part is in the same member, since it ends in the member that it is in
      have hend := hleaf'.add_le (hsizes (List.mem_of_getElem? hm'))
      obtain rfl : index' = index := honly index' ⟨m', hm', by omega, by omega⟩
      obtain rfl : m' = m := Option.some.inj (hm'.symm.trans hm)
      rw [honly' path' ⟨offset', leaf', hleaf', by omega, by omega⟩]

/-! ## What there is to know -/

/-- Whether the members of an aggregate lie end to end in it and share out its bytes. -/
structure Tiled (target : Target) (t : Ty) : Prop where
  /-- the first member begins at the beginning -/
  first : target.memberOffset t 0 = 0
  /-- a member begins where the one before it ends -/
  next : ∀ index m, t.memberTys[index]? = some m →
    target.memberOffset t (index + 1) = target.memberOffset t index + target.byteSize m
  /-- the last member ends at the end -/
  last : target.memberOffset t t.memberTys.length = target.byteSize t
  /-- stopping at the largest size changes no beginning -/
  uncut : ∀ index, (t.memberTys.take index).foldl
    (fun size m => saturate (size + target.byteSize m)) 0 = target.memberOffset t index
  /-- a member is inside the whole -/
  within : ∀ index m, t.memberTys[index]? = some m →
    target.memberOffset t index + target.byteSize m ≤ target.byteSize t
  /-- every byte is a byte of one member -/
  one : ∀ b < target.byteSize t, ∃! index, ∃ m, t.memberTys[index]? = some m ∧
    target.memberOffset t index ≤ b ∧ b < target.memberOffset t index + target.byteSize m

/-- As long as its exact size is a size, the members of an aggregate lie end to end and share out
its bytes. -/
theorem tiled (h : target.exactSize t ≤ maxSize) {kind : AggregateKind}
    (hkind : t.aggregateKind? = some kind) : target.Tiled t where
  first := memberOffset_zero
  next _ _ hm := memberOffset_succ hm
  last := memberOffset_length h hkind
  uncut index := by rw [← byteSizes_eq_foldl, byteSizes_take_eq_memberOffset h]
  within _ _ hm := memberOffset_add_le h hm
  one _ hb := existsUnique_member h hkind hb

/-- What is to be shown of the size of a type. -/
structure CutAtTop (target : Target) (t : Ty) : Prop where
  /-- the size is the exact size, cut at the largest number of 64 bits -/
  size : target.byteSize t = min (target.exactSize t) (2 ^ 64 - 1)
  /-- a size that is not exact is the largest there is, and the exact size is none -/
  inexact : target.byteSize t ≠ target.exactSize t →
    target.byteSize t = 2 ^ 64 - 1 ∧ 2 ^ 64 ≤ target.exactSize t
  /-- no part is larger than the whole -/
  part : ∀ path part, t.memberAt? path = some part → target.byteSize part ≤ target.byteSize t
  /-- without elements there are no bytes, however large an element is -/
  empty : ∀ kind element, t = .sequence kind 0 element → target.byteSize t = 0
  /-- the sizes of fields are added one after the other, each sum stopping at the largest size -/
  fields : ∀ kind fields, t = .record kind fields →
    target.byteSize t = fields.foldl (fun size field => saturate (size + target.byteSize field)) 0
  /-- as long as the exact size is a size, the members of an aggregate share out its bytes -/
  members : target.exactSize t < 2 ^ 64 → ∀ kind, t.aggregateKind? = some kind → target.Tiled t
  /-- as long as it is, the parts without members do, at whatever level they are -/
  leaves : target.exactSize t < 2 ^ 64 → ∀ b < target.byteSize t,
    ∃! path, ∃ offset leaf, target.LeafAt t path offset leaf ∧
      offset ≤ b ∧ b < offset + target.byteSize leaf

/-- A size is the exact size cut at the top, for every type, so the two differ only where the exact
size is no number of 64 bits. Up to there members and parts share out the bytes; beyond it, what is
left is that no part is larger than the whole. -/
theorem cutAtTop (target : Target) (t : Ty) : target.CutAtTop t where
  size := target.byteSize_eq_saturate t
  inexact := by
    rw [byteSize_eq_saturate]
    simp only [saturate, maxSize, UInt64.size]
    omega
  part _ _ hpart := byteSize_le_of_memberAt? hpart
  empty kind element ht := by
    rw [ht, byteSize, Nat.zero_mul]
    rfl
  fields kind fields ht := by rw [ht, byteSize, byteSizes_eq_foldl]
  members hsize _ hkind := tiled (Nat.le_of_lt_succ hsize) hkind
  leaves hsize _ hb := existsUnique_leafAt (Nat.le_of_lt_succ hsize) hb

/-- An array without elements is empty also where the size of an element is cut, and behind a field
whose size is cut there is no room for another. -/
example :
    standard.byteSize (.sequence .array 0 (.sequence .array (2 ^ 63) (.int 64))) = 0 ∧
      standard.byteSize (.record .struct [.sequence .array (2 ^ 63) (.int 64), .int 8]) =
        2 ^ 64 - 1 := by
  decide

end Target

end SymbolicBytes
