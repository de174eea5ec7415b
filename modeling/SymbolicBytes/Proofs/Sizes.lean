import Mathlib.Algebra.GroupWithZero.Nat
import Mathlib.Data.List.Forall2
import SymbolicBytes.Target
/-!
# Sizes of types

Two views that the proofs share. `Ty.memberTys` lists the types of all members of an aggregate, so
that a sequence is a record of equal fields and one induction on lists serves both.
`Target.exactSize` is the size of a type in unbounded arithmetic.

The main facts are `byteSize_eq_saturate`, that a saturated size is the exact size cut at the top,
and `exactSize_eq_sum`, that members lie end to end. From them, inside a type whose exact size is a
size every part is sized exactly (`exactSize_le_of_mem`).
-/

namespace SymbolicBytes

namespace Ty

/-- The types of the members of an aggregate, in order. Other types have no members. -/
def memberTys : Ty → List Ty
  | sequence _ count element => List.replicate count element
  | record _ fields => fields
  | _ => []

theorem member?_eq_memberTys (t : Ty) (index : Nat) : t.member? index = t.memberTys[index]? := by
  cases t with
  | sequence kind count element => simp [member?, memberTys, List.getElem?_replicate]
  | _ => simp [member?, memberTys]

/-- The member types from some position on, taken apart at the first of them. -/
theorem member?_of_drop {t m : Ty} {ms : List Ty} {position : Nat}
    (h : t.memberTys.drop position = m :: ms) :
    t.member? position = some m ∧ t.memberTys.drop (position + 1) = ms := by
  constructor
  · rw [member?_eq_memberTys, ← List.head?_drop, h]
    rfl
  · rw [← List.tail_drop, h]
    rfl

theorem memberCount?_eq_length {t : Ty} {kind : AggregateKind} (h : t.aggregateKind? = some kind) :
    t.memberCount? = some t.memberTys.length := by
  cases t <;> simp_all [aggregateKind?, memberCount?, memberTys]

theorem memberTys_eq_nil {t : Ty} (h : t.aggregateKind? = none) : t.memberTys = [] := by
  cases t <;> first | rfl | cases h

/-- Only aggregates have members. -/
theorem exists_aggregateKind?_of_mem {t m : Ty} (h : m ∈ t.memberTys) :
    ∃ kind, t.aggregateKind? = some kind := by
  cases hkind : t.aggregateKind? with
  | none => simp [memberTys_eq_nil hkind] at h
  | some kind => exact ⟨kind, rfl⟩

/-- Induction over types, in which a sequence may use what holds of its element type even if it has
no elements. What is checked of types is checked of such element types too. -/
theorem byParts {motive : Ty → Prop} (atom : ∀ t, t.aggregateKind? = none → motive t)
    (sequence : ∀ kind count element, motive element → motive (.sequence kind count element))
    (record : ∀ kind fields, (∀ t ∈ fields, motive t) → motive (.record kind fields))
    (t : Ty) : motive t := by
  refine @Ty.rec motive (fun ts => ∀ t ∈ ts, motive t) (fun _ => atom _ rfl) (atom _ rfl)
    (atom _ rfl) (fun _ => atom _ rfl) (atom _ rfl) (fun _ => atom _ rfl) sequence record ?_ ?_ t
  · exact nofun
  · intro t ts ht hts
    exact List.forall_mem_cons.2 ⟨ht, hts⟩

/-- Induction over types, in which an aggregate may use what holds of each member type. A sequence
without elements has none, and nothing to use. -/
theorem byMembers {motive : Ty → Prop} (atom : ∀ t, t.aggregateKind? = none → motive t)
    (aggregate : ∀ t kind, t.aggregateKind? = some kind → (∀ m ∈ t.memberTys, motive m) → motive t)
    (t : Ty) : motive t := by
  refine byParts atom ?_ ?_ t
  · intro kind count element h
    exact aggregate _ (.sequence kind) rfl fun m hm => (List.mem_replicate.1 hm).2 ▸ h
  · intro kind fields h
    exact aggregate _ (.record kind) rfl h

/-! ## Types that have values -/

theorem unsupportedIn?_eq_none_iff (ts : List Ty) :
    unsupportedIn? ts = none ↔ ∀ t ∈ ts, t.Supported := by
  induction ts with
  | nil => simp [unsupportedIn?]
  | cons t ts ih => simp [unsupportedIn?, ih, Supported]

theorem supported_int_iff {width : Nat} :
    (int width).Supported ↔ ∃ w, IntWidth.ofNat? width = some w := by
  rw [Supported, unsupported?, ← Option.isSome_iff_exists]
  cases IntWidth.ofNat? width <;> simp

theorem supported_sequence_iff {kind : SequenceKind} {count : Nat} {element : Ty} :
    (sequence kind count element).Supported ↔ element.Supported := by
  rw [Supported, unsupported?, Supported]

theorem supported_record_iff {kind : RecordKind} {fields : List Ty} :
    (record kind fields).Supported ↔ ∀ t ∈ fields, t.Supported := by
  rw [Supported, unsupported?, unsupportedIn?_eq_none_iff]

/-- The parts of a type with values have values. -/
theorem Supported.of_mem {t m : Ty} (h : t.Supported) (hm : m ∈ t.memberTys) : m.Supported := by
  cases t with
  | sequence kind count element =>
    obtain ⟨-, rfl⟩ := List.mem_replicate.1 hm
    exact supported_sequence_iff.1 h
  | record kind fields => exact supported_record_iff.1 h m hm
  | _ => simp [memberTys] at hm

end Ty

namespace Target

variable (target : Target)

/-! ## Exact sizes -/

mutual

/-- The number of bytes of a value of the type, however large it is. -/
def exactSize : Ty → Nat
  | .int width => ((IntWidth.ofNat? width).map IntWidth.bytes).getD 0
  | .pointer | .iptr => target.pointerSize
  | .float kind => kind.bytes
  | .void | .special _ => 0
  | .sequence _ count element => count * exactSize element
  | .record _ fields => exactSizes fields

/-- The number of bytes of values of the listed types laid end to end, however large it is. -/
def exactSizes : List Ty → Nat
  | [] => 0
  | t :: ts => exactSize t + exactSizes ts

end

theorem exactSizes_eq_sum (ts : List Ty) :
    target.exactSizes ts = (ts.map target.exactSize).sum := by
  induction ts with
  | nil => simp [exactSizes]
  | cons t ts ih => simp [exactSizes, ih]

/-- The members of an aggregate lie end to end. -/
theorem exactSize_eq_sum {t : Ty} {kind : AggregateKind} (h : t.aggregateKind? = some kind) :
    target.exactSize t = (t.memberTys.map target.exactSize).sum := by
  cases t with
  | sequence kind count element => simp [exactSize, Ty.memberTys]
  | record kind fields => simp [exactSize, Ty.memberTys, exactSizes_eq_sum]
  | _ => simp [Ty.aggregateKind?] at h

theorem exactSize_le_of_mem {t m : Ty} (hm : m ∈ t.memberTys) :
    target.exactSize m ≤ target.exactSize t := by
  obtain ⟨kind, hkind⟩ := Ty.exists_aggregateKind?_of_mem hm
  obtain ⟨before, after, hsplit⟩ := List.append_of_mem hm
  rw [target.exactSize_eq_sum hkind, hsplit]
  simp only [List.map_append, List.map_cons, List.sum_append, List.sum_cons]
  omega

/-! ## Saturated sizes -/

/-- A size is a number of 64 bits. -/
theorem byteSize_lt (t : Ty) : target.byteSize t < UInt64.size :=
  Nat.lt_of_le_of_lt (target.byteSize_le t) (by decide)

theorem saturate_eq_self {n : Nat} (h : n ≤ maxSize) : saturate n = n := Nat.min_eq_left h

/-- Saturating a term first changes no saturated sum, so sizes may be cut as early as they are
computed. -/
theorem saturate_add (m n : Nat) : saturate (saturate m + saturate n) = saturate (m + n) := by
  simp only [saturate]
  omega

/-- Saturating a factor first changes no saturated product. -/
theorem saturate_mul (count n : Nat) : saturate (count * saturate n) = saturate (count * n) := by
  rcases Nat.le_total n maxSize with h | h
  · rw [saturate_eq_self h]
  · -- both products are zero or beyond the largest size
    rcases Nat.eq_zero_or_pos count with rfl | hcount
    · simp
    · have hn : saturate n = maxSize := Nat.min_eq_right h
      have hle : maxSize ≤ count * maxSize := Nat.le_mul_of_pos_left _ hcount
      have hle' : maxSize ≤ count * n := Nat.le_trans h (Nat.le_mul_of_pos_left _ hcount)
      rw [hn, saturate, saturate, Nat.min_eq_right hle, Nat.min_eq_right hle']

mutual

/-- A size is the exact size cut at the largest size there is. With this, whatever is shown of exact
sizes holds of sizes up to there. -/
theorem byteSize_eq_saturate : ∀ t : Ty, target.byteSize t = saturate (target.exactSize t)
  | .int width => by
    have h := target.byteSize_le (.int width)
    simp only [byteSize] at h
    simp only [byteSize, exactSize, saturate_eq_self h]
  | .pointer | .iptr => by simp only [byteSize, exactSize, saturate_eq_self target.pointerSize_le]
  | .float kind => by
    have h := target.byteSize_le (.float kind)
    simp only [byteSize] at h
    simp only [byteSize, exactSize, saturate_eq_self h]
  | .void | .special _ => by simp [byteSize, exactSize, saturate]
  | .sequence kind count element => by
    simp only [byteSize, exactSize, byteSize_eq_saturate element, saturate_mul]
  | .record kind fields => by
    simp only [byteSize, exactSize, byteSizes_eq_saturate fields]

theorem byteSizes_eq_saturate :
    ∀ ts : List Ty, target.byteSizes ts = saturate (target.exactSizes ts)
  | [] => by simp [byteSizes, exactSizes, saturate]
  | t :: ts => by
    simp only [byteSizes, exactSizes, byteSize_eq_saturate t, byteSizes_eq_saturate ts,
      saturate_add]

end

theorem byteSize_eq_byteSizes {t : Ty} {kind : AggregateKind} (h : t.aggregateKind? = some kind) :
    target.byteSize t = target.byteSizes t.memberTys := by
  rw [byteSize_eq_saturate, byteSizes_eq_saturate, exactSize_eq_sum target h, exactSizes_eq_sum]

/-- As long as it is a size at all, the exact size is the size. -/
theorem byteSize_eq_exactSize {t : Ty} (h : target.exactSize t ≤ maxSize) :
    target.byteSize t = target.exactSize t := by
  rw [byteSize_eq_saturate, saturate_eq_self h]

/-- A size below the largest one is exact. The largest one may have been cut. -/
theorem exactSize_le_of_byteSize_lt {t : Ty} (h : target.byteSize t < maxSize) :
    target.exactSize t ≤ maxSize := by
  rw [byteSize_eq_saturate] at h
  simp only [saturate] at h
  omega

/-- The members before one of a type that is sized exactly are sized exactly together. -/
theorem byteSizes_take_memberTys {t : Ty} (h : target.exactSize t ≤ maxSize) (index : Nat) :
    target.byteSizes (t.memberTys.take index) =
      ((t.memberTys.take index).map target.exactSize).sum := by
  cases hkind : t.aggregateKind? with
  | none => simp [Ty.memberTys_eq_nil hkind, byteSizes]
  | some kind =>
    have hsum := target.exactSize_eq_sum hkind
    rw [← List.take_append_drop index t.memberTys, List.map_append, List.sum_append] at hsum
    rw [byteSizes_eq_saturate, exactSizes_eq_sum, saturate_eq_self (by omega)]

theorem byteSize_le_exactSize (t : Ty) : target.byteSize t ≤ target.exactSize t := by
  rw [byteSize_eq_saturate]
  exact Nat.min_le_left ..

theorem byteSize_eq_zero_iff (t : Ty) : target.byteSize t = 0 ↔ target.exactSize t = 0 := by
  rw [byteSize_eq_saturate]
  simp only [saturate, maxSize, UInt64.size]
  omega

end Target

end SymbolicBytes
