import SymbolicBytes.Proofs.ByteImage
import SymbolicBytes.Proofs.Integers
/-!
# Bytes of parts

`Target.PartAt` says where the parts of a value lie when it is read as a type: members lie end to
end, so a part lies behind all members before the one that it is in, at every level. Reading inside
a part is reading the part from its offset on (`byteAt_part`), wherever members without bytes stand
in between. A byte is poison exactly if it lies in a part that is poison (`exists_poison_part`), and
past the last byte of an aggregate there is nothing to read (`byteAt_pastEnd`).

What the bytes of a value are is told by `Machine.image`. Of a scalar they spell its number in as
many bytes as the scalar has, the lowest first (`natOfBytes_scalar`); `addressesFields` puts all of
this together.
-/

namespace SymbolicBytes

/-- Where the parts of a value lie that is read as a type: `PartAt v t offset w u` says that there
is a part `w`, read as `u`, with `offset` bytes before it. -/
inductive Target.PartAt (target : Target) : Value → Ty → Nat → Value → Ty → Prop where
  /-- the whole value is a part of itself -/
  | whole (v : Value) (t : Ty) : PartAt target v t 0 v t
  /-- a part of a member lies behind the members before that one -/
  | member {kind : AggregateKind} {members : List Value} {t m u : Ty} {index offset : Nat}
      {v w : Value} (hmember : members[index]? = some v) (hty : t.memberTys[index]? = some m)
      (h : PartAt target v m offset w u) :
      PartAt target (.aggregate kind members) t
        (target.byteSizes (t.memberTys.take index) + offset) w u

/-- The parts of a value of a type have the types that they are read as. -/
theorem Target.PartAt.hasTy {target : Target} {v w : Value} {t u : Ty} {offset : Nat}
    (h : target.PartAt v t offset w u) (hv : v.HasTy t) : w.HasTy u := by
  induction h with
  | whole v t => exact hv
  | member hmember hty _ ih => exact ih (getElem?_of_forall₂ hv.members.2 hmember hty)

namespace Machine

variable {machine : Machine} {kind : AggregateKind} {v w : Value} {t u : Ty}
  {vs members : List Value} {index offset i : Nat}

/-! ## Scalars -/

variable (machine) in
/-- The number that a scalar is in memory. -/
def numberOf : Scalar → Int
  | .address a => machine.addresses.toInt a
  | .int i => i.toNat
  | .iptr int => int
  | .float x => x.toNat
  | .double x => x.toNat

theorem scalarByte_eq (s : Scalar) : machine.scalarByte s = byteOfInt (machine.numberOf s) := by
  funext index
  cases s <;> simp only [scalarByte, numberOf, byteOfInt_natCast]

/-- The bytes of a scalar spell its number, cut to as many bytes as there are. A negative number is
spelled in two's complement. -/
theorem natOfBytes_scalar (s : Scalar) (count : Nat) :
    (natOfBytes ((List.range count).map (machine.scalarByte s)) : Int) =
      machine.numberOf s % 256 ^ count := by
  rw [scalarByte_eq, natOfBytes_map_byteOfInt]

/-! ## Where members lie -/

/-- The image of a member stands between those of the members before it and after it. -/
theorem images_eq_append (h : vs[index]? = some v) :
    machine.images vs =
      machine.images (vs.take index) ++
        (machine.image v ++ machine.images (vs.drop (index + 1))) := by
  induction vs generalizing index with
  | nil => cases h
  | cons head vs ih =>
    cases index with
    | zero =>
      obtain rfl := Option.some.inj h
      rfl
    | succ index =>
      simp only [List.take_succ_cons, List.drop_succ_cons, images_cons, List.append_assoc]
      rw [ih h]

/-- Every byte of an aggregate is a byte of one of its members. Members without bytes are passed
over by this. -/
theorem exists_member_of_getElem?_images {b : Option UInt8} (h : (machine.images vs)[i]? = some b) :
    ∃ index v j, vs[index]? = some v ∧ i = (machine.images (vs.take index)).length + j ∧
      (machine.image v)[j]? = some b := by
  induction vs generalizing i with
  | nil => cases h
  | cons head vs ih =>
    rw [images_cons] at h
    by_cases hi : i < (machine.image head).length
    · rw [List.getElem?_append_left hi] at h
      exact ⟨0, head, i, rfl, (Nat.zero_add i).symm, h⟩
    · have hge := Nat.le_of_not_lt hi
      rw [List.getElem?_append_right hge] at h
      obtain ⟨index, v, j, hv, hij, hb⟩ := ih h
      refine ⟨index + 1, v, j, hv, ?_, hb⟩
      rw [List.take_succ_cons, images_cons, List.length_append]
      omega

/-- The members before a member take up as many bytes as their types say. -/
theorem length_images_take (h : (Value.aggregate kind members).HasTy t)
    (hsize : machine.target.exactSize t ≤ maxSize) (index : Nat) :
    (machine.images (members.take index)).length =
      machine.target.byteSizes (t.memberTys.take index) := by
  rw [machine.target.byteSizes_take_memberTys hsize]
  exact length_images (List.forall₂_take index (h.members.2.imp fun _ _ => length_image))

/-! ## Reading parts -/

/-- The image of a part stands in that of the whole at the offset of the part. The induction goes
down from the whole, one member at a time. -/
theorem getElem?_image_part (h : machine.target.PartAt v t offset w u) (hv : v.HasTy t)
    (hsize : machine.target.exactSize t ≤ maxSize) (hi : i < machine.target.exactSize u) :
    (machine.image v)[offset + i]? = (machine.image w)[i]? := by
  induction h with
  | whole v t => rw [Nat.zero_add]
  | @member kind members t m u index offset v w hmember hty hpart ih =>
    have hm := getElem?_of_forall₂ hv.members.2 hmember hty
    have hle := machine.target.exactSize_le_of_mem (List.mem_of_getElem? hty)
    have hvalue := ih hm (Nat.le_trans hle hsize) hi
    have hlt : offset + i < (machine.image v).length := by
      by_contra hge
      rw [List.getElem?_eq_none (Nat.le_of_not_lt hge), eq_comm, List.getElem?_eq_none_iff,
        length_image (hpart.hasTy hm)] at hvalue
      exact Nat.not_lt_of_le hvalue hi
    rw [image_aggregate, images_eq_append hmember, Nat.add_assoc,
      ← length_images_take hv hsize index, List.getElem?_append_right (Nat.le_add_right ..),
      Nat.add_sub_cancel_left, List.getElem?_append_left hlt, hvalue]

/-- Reading is looking up the image, which has the byte of every position at once. -/
theorem byteAt_eq_ok_iff (hv : v.HasTy t) (hi : i < machine.target.byteSize t)
    {b : Option UInt8} :
    machine.byteAt v t i = .ok b ↔ (machine.image v)[i]? = some b := by
  obtain ⟨c, himage, hbyte⟩ := byteAt_eq_image hv i hi
  rw [himage, hbyte, Except.ok.injEq, Option.some.injEq]

/-- Reading a byte inside a part is reading it from the part, so nothing around the part can be
noticed. -/
theorem byteAt_part (h : machine.target.PartAt v t offset w u) (hv : v.HasTy t)
    (hsize : machine.target.exactSize t ≤ maxSize) (hi : i < machine.target.byteSize u) :
    machine.byteAt v t (offset + i) = machine.byteAt w u i := by
  have hw := h.hasTy hv
  obtain ⟨b, himage, hbyte⟩ := byteAt_eq_image hw i hi
  have hexact := Nat.lt_of_lt_of_le hi (machine.target.byteSize_le_exactSize u)
  have hwhole := (getElem?_image_part h hv hsize hexact).trans himage
  have hlt : offset + i < machine.target.byteSize t := by
    rw [machine.target.byteSize_eq_exactSize hsize, ← length_image hv]
    exact (List.getElem?_eq_some_iff.1 hwhole).1
  rw [hbyte, (byteAt_eq_ok_iff hv hlt).2 hwhole]

/-- A poison byte of the image lies in a part that is poison, since no scalar has a poison byte. -/
theorem exists_poison_part (hv : v.HasTy t) (hsize : machine.target.exactSize t ≤ maxSize)
    (h : (machine.image v)[i]? = some none) :
    ∃ offset u, machine.target.PartAt v t offset (.poison u) u ∧ offset ≤ i ∧
      i < offset + machine.target.byteSize u := by
  induction v using Value.byMembers generalizing t i with
  | scalar s => simp at h
  | void => simp at h
  | poison ty =>
    rw [hv.poison_eq] at hsize ⊢
    rw [image_poison, List.getElem?_replicate] at h
    refine ⟨0, ty, .whole .., Nat.zero_le i, ?_⟩
    rw [machine.target.byteSize_eq_exactSize hsize, Nat.zero_add]
    by_contra hge
    rw [if_neg hge] at h
    cases h
  | aggregate kind members ih =>
    rw [image_aggregate] at h
    obtain ⟨index, v, j, hmember, rfl, hj⟩ := exists_member_of_getElem?_images h
    obtain ⟨-, hmembers⟩ := hv.members
    obtain ⟨m, hm, hty⟩ := exists_getElem?_of_forall₂ hmembers.flip hmember
    have hle := machine.target.exactSize_le_of_mem (List.mem_of_getElem? hm)
    obtain ⟨offset, u, hpart, hlow, hhigh⟩ :=
      ih v (List.mem_of_getElem? hmember) hty (Nat.le_trans hle hsize) hj
    -- the part lies in the member as far in as the byte, behind the members before it
    refine ⟨_, u, .member hmember hm hpart, ?_⟩
    rw [← length_images_take hv hsize index]
    omega

/-! ## Past the end -/

theorem byteAmong_pastEnd {ty : Ty} {ts : List Ty} (hlen : vs.length = ts.length) (index : Nat)
    {position : Nat} (hts : ty.memberTys.drop position = ts)
    (hoffset : machine.target.exactSizes ts ≤ offset) :
    machine.byteAmong vs ty position index offset = .error (.pastEnd index ty) := by
  induction vs generalizing ts position offset with
  | nil => rfl
  | cons v vs ih =>
    cases ts with
    | nil => cases hlen
    | cons t ts =>
      obtain ⟨hmember, hrest⟩ := Ty.member?_of_drop hts
      have hle := machine.target.byteSize_le_exactSize t
      rw [Target.exactSizes] at hoffset
      simp only [byteAmong, hmember, if_neg (show ¬ offset < machine.target.byteSize t by omega)]
      exact ih (Nat.succ.inj hlen) hrest (by omega)

/-- An aggregate has no byte past the last one of its type. A scalar has no such end, as its number
goes on above its bytes. -/
theorem byteAt_pastEnd (h : (Value.aggregate kind members).HasTy t)
    (hi : machine.target.exactSize t ≤ i) :
    machine.byteAt (.aggregate kind members) t i = .error (.pastEnd i t) := by
  obtain ⟨hkind, hmembers⟩ := h.members
  rw [machine.target.exactSize_eq_sum hkind, ← machine.target.exactSizes_eq_sum] at hi
  rw [byteAt, checkMembers_eq_ok h]
  exact byteAmong_pastEnd hmembers.length_eq i (List.drop_zero ..) hi

/-! ## What there is to know -/

/-- What is to be shown of reading the bytes of a value of a type. -/
structure AddressesFields (machine : Machine) (v : Value) (t : Ty) : Prop where
  /-- the image has as many bytes as the type -/
  length_image : (machine.image v).length = machine.target.byteSize t
  /-- every byte is the one at its place in the image -/
  byteAt_eq : ∀ i (hi : i < (machine.image v).length),
    machine.byteAt v t i = .ok (machine.image v)[i]
  /-- a byte inside a part is a byte of the part -/
  part : ∀ offset w u, machine.target.PartAt v t offset w u → ∀ i < machine.target.byteSize u,
    machine.byteAt v t (offset + i) = machine.byteAt w u i
  /-- the bytes of a scalar spell its number, the lowest byte first -/
  scalar : ∀ offset s, machine.target.PartAt v t offset (.scalar s) s.ty →
    ∃ bytes : List UInt8, bytes.length = machine.target.byteSize s.ty ∧
      (natOfBytes bytes : Int) = machine.numberOf s % 256 ^ bytes.length ∧
      ∀ i (hi : i < bytes.length), machine.byteAt v t (offset + i) = .ok (some bytes[i])
  /-- the poison bytes are those of the parts that are poison -/
  poison : ∀ i < machine.target.byteSize t, machine.byteAt v t i = .ok none ↔
    ∃ offset u, machine.target.PartAt v t offset (.poison u) u ∧ offset ≤ i ∧
      i < offset + machine.target.byteSize u
  /-- an aggregate has no further bytes -/
  pastEnd : ∀ kind members, v = .aggregate kind members → ∀ i, machine.target.byteSize t ≤ i →
    machine.byteAt v t i = .error (.pastEnd i t)

/-- Reading a value byte by byte is looking up its parts where their types lay them out: each byte
is that of the scalar or the poison there, and an aggregate ends where its last member does. -/
theorem addressesFields (hv : v.HasTy t) (hsize : machine.target.exactSize t ≤ maxSize) :
    machine.AddressesFields v t := by
  have hexact := machine.target.byteSize_eq_exactSize hsize
  have hlength : (machine.image v).length = machine.target.byteSize t :=
    (length_image hv).trans hexact.symm
  constructor
  case length_image => exact hlength
  case byteAt_eq =>
    intro i hi
    exact (byteAt_eq_ok_iff hv (hlength ▸ hi)).2 (List.getElem?_eq_getElem hi)
  case part =>
    intro offset w u hpart i hi
    exact byteAt_part hpart hv hsize hi
  case scalar =>
    intro offset s hpart
    refine ⟨(List.range (machine.target.byteSize s.ty)).map (machine.scalarByte s), by simp, ?_, ?_⟩
    · rw [natOfBytes_scalar, List.length_map, List.length_range]
    · intro i hi
      rw [List.length_map, List.length_range] at hi
      rw [byteAt_part hpart hv hsize hi, byteAt, List.getElem_map, List.getElem_range]
  case poison =>
    intro i hi
    rw [byteAt_eq_ok_iff hv hi]
    constructor
    · exact exists_poison_part hv hsize
    · rintro ⟨offset, u, hpart, hlow, hhigh⟩
      obtain ⟨j, rfl⟩ := Nat.exists_eq_add_of_le hlow
      have hj : j < machine.target.byteSize u := by omega
      rw [← byteAt_eq_ok_iff hv hi, byteAt_part hpart hv hsize hj, byteAt]
  case pastEnd =>
    rintro kind members rfl i hi
    exact byteAt_pastEnd hv (hexact ▸ hi)

/-- A value with members without bytes at every end, and poison among the others. -/
def sparseParts : Value :=
  .aggregate (.record .packed)
    [.aggregate (.sequence .array) [],
      .aggregate (.record .struct) [.void, .int ⟨.i8, 0x7f⟩, .poison (.int 32)],
      .poison (.record .struct []),
      .iptr (-2),
      .aggregate (.sequence .vector) [.poison .bit, .bit true],
      .poison .void]

/-- The type of `sparseParts`, of 15 bytes. -/
def sparsePartsTy : Ty :=
  .record .packed
    [.array 0 (.int 64), .record .struct [.void, .int 8, .int 32], .record .struct [], .iptr,
      .vector 2 .bit, .void]

/-- The record has parts without bytes at its front, at its end and between the others, and
positions are counted as if they were not there. -/
theorem addressesFields_sparseParts :
    sparseParts.HasTy sparsePartsTy ∧
      (standard .standard).target.exactSize sparsePartsTy ≤ maxSize ∧
      (standard .standard).AddressesFields sparseParts sparsePartsTy ∧
      (standard .standard).byteAt sparseParts sparsePartsTy 0 = .ok (some 0x7f) ∧
      (standard .standard).byteAt sparseParts sparsePartsTy 4 = .ok none ∧
      (standard .standard).byteAt sparseParts sparsePartsTy 5 = .ok (some 0xfe) ∧
      (standard .standard).byteAt sparseParts sparsePartsTy 12 = .ok (some 0xff) ∧
      (standard .standard).byteAt sparseParts sparsePartsTy 14 = .ok (some 1) := by
  have hty : sparseParts.HasTy sparsePartsTy := by
    refine .aggregate rfl (.cons (.aggregate rfl .nil) (.cons (.aggregate rfl ?_) (.cons (.poison _)
      (.cons (.scalar _) (.cons (.aggregate rfl ?_) (.cons (.poison _) .nil))))))
    · exact .cons .void (.cons (.scalar (.int _)) (.cons (.poison _) .nil))
    · exact .cons (.poison _) (.cons (.scalar (.int _)) .nil)
  have hsize : (standard .standard).target.exactSize sparsePartsTy ≤ maxSize := by decide
  exact ⟨hty, hsize, addressesFields hty hsize, rfl, rfl, rfl, rfl, rfl⟩

end Machine

end SymbolicBytes
