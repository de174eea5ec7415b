import SymbolicBytes.Proofs.ByteClasses
import SymbolicBytes.Proofs.Inversion
import SymbolicBytes.Proofs.Rebuilding
import SymbolicBytes.Proofs.ZeroValues
/-!
# Every byte is resolved

`Fault.unresolvedByte` is raised at one place, where the bytes of all classes are put into their
positions. It is never seen: the classes together have every position
(`exists_assemble_of_resolveClass`). So unless the address space or the instructions of a machine
raise that fault themselves, nothing that the machine does raises it
(`allResolved_concretizeWithin`).
-/

namespace SymbolicBytes

/-- Whether an outcome is not the fault of a byte without a value. -/
structure Outcome.AllResolved {α : Type} (x : Outcome α) : Prop where
  /-- it is not the fault of the byte at any position -/
  ne : ∀ i, x ≠ .error (.unresolvedByte i)

namespace Outcome.AllResolved

variable {α β : Type}

theorem ok (a : α) : Outcome.AllResolved (.ok a) := ⟨fun _ h => nomatch h⟩

theorem error {fault : Fault} (h : ∀ i, fault ≠ .unresolvedByte i) :
    Outcome.AllResolved (.error fault : Outcome α) :=
  ⟨fun i hi => h i (Except.error.inj hi)⟩

/-- An outcome that fails as another one does. -/
theorem of_eq_error {x : Outcome α} {fault : Fault} (hx : x.AllResolved) (h : x = .error fault) :
    Outcome.AllResolved (.error fault : Outcome β) :=
  error fun i hi => hx.ne i (h.trans (congrArg _ hi))

theorem ite {p : Prop} [Decidable p] {x y : Outcome α} (hx : x.AllResolved) (hy : y.AllResolved) :
    (if p then x else y).AllResolved := by
  split
  · exact hx
  · exact hy

theorem bind {x : Outcome α} {f : α → Outcome β} (hx : x.AllResolved)
    (hf : ∀ a, x = .ok a → (f a).AllResolved) : (x >>= f).AllResolved := by
  constructor
  intro i hi
  rcases Outcome.bind_eq_error.1 hi with hfault | ⟨a, ha, hfault⟩
  · exact hx.ne i hfault
  · exact (hf a ha).ne i hfault

theorem map {x : Outcome α} (f : α → β) (hx : x.AllResolved) : (f <$> x).AllResolved :=
  ⟨fun i hi => hx.ne i (Outcome.map_eq_error.1 hi)⟩

theorem mapM {f : α → Outcome β} {as : List α} (h : ∀ a ∈ as, (f a).AllResolved) :
    (as.mapM f).AllResolved := by
  constructor
  intro i hi
  obtain ⟨a, ha, hfault⟩ := Outcome.mapM_eq_error hi
  exact (h a ha).ne i hfault

theorem gather {read : α → Outcome (Option β)} {as : List α}
    (h : ∀ a ∈ as, (read a).AllResolved) : (gather read as).AllResolved := by
  induction as with
  | nil => exact ok _
  | cons a as ih =>
    have ha := h a (List.mem_cons_self ..)
    have has := ih fun a ha => h a (List.mem_cons_of_mem _ ha)
    rw [SymbolicBytes.gather]
    split
    · rename_i fault hread
      exact ha.of_eq_error hread
    · exact ok _
    · split
      · rename_i fault hgather
        exact has.of_eq_error hgather
      · exact ok _
      · exact ok _

end Outcome.AllResolved

open Outcome (AllResolved)

/-! ## Concrete values -/

theorem allResolved_checkSupported (t : Ty) : t.checkSupported.AllResolved := by
  rw [Ty.checkSupported]
  split
  · exact .ok _
  · exact .error (by simp)

theorem Value.allResolved_extractPath (v : Value) (path : List Nat) :
    (v.extractPath path).AllResolved := by
  fun_induction extractPath v path with
  | case1 => exact .ok _
  | case2 => exact .ok _
  | case3 => exact .error (by simp)
  | case4 => exact .error (by simp)
  | case5 => exact .error (by simp)
  | case6 _ _ _ _ _ _ _ _ ih => exact ih

theorem Value.allResolved_insertPath (v : Value) (path : List Nat) (element : Value) :
    (v.insertPath path element).AllResolved := by
  induction path generalizing v with
  | nil =>
    cases v <;> exact .ok _
  | cons index path ih =>
    have hspell : v.spellOut.AllResolved := by
      simp only [spellOut]
      split <;> first | exact .ok _ | exact .error (by simp)
    rw [insertPath]
    split
    · rename_i fault hfault
      exact hspell.of_eq_error hfault
    · split
      · exact .error (by simp)
      · rename_i part _
        split
        · rename_i fault hfault
          exact (ih part).of_eq_error hfault
        · exact .ok _
    · exact .error (by simp)

theorem allResolved_castLane {target : Ty} {f : Value → Outcome Value} {lane : Value}
    (h : (f lane).AllResolved) : (castLane target f lane).AllResolved := by
  simp only [castLane]
  split
  · exact .ok _
  · exact h

namespace Machine

/-- Whether the address space and the instructions of the machine never raise the fault of a byte
without a value. -/
structure ParametersResolved (machine : Machine) : Prop where
  /-- making an address never raises it -/
  ofInt : ∀ int provenance, (machine.addresses.ofInt int provenance).AllResolved
  /-- no operation on two operands raises it -/
  binary : ∀ op v w, (machine.instructions.binary op v w).AllResolved
  /-- no conversion raises it -/
  convert : ∀ cast source v target, (machine.instructions.convert cast source v target).AllResolved

variable {machine : Machine}

theorem allResolved_checkMembers (aggregate : Value) (count : Nat) (ty : Ty) :
    (checkMembers aggregate count ty).AllResolved := by
  rw [checkMembers]
  split
  · exact .ok _
  · exact .error (by simp)

mutual

theorem allResolved_byteAt : ∀ (v : Value) (ty : Ty) (index : Nat),
    (machine.byteAt v ty index).AllResolved
  | .scalar _, _, _ => .ok _
  | .aggregate _ members, ty, index =>
    .bind (allResolved_checkMembers ..) fun _ _ => allResolved_byteAmong members ty 0 index index
  | .void, _, _ => .error (by simp)
  | .poison _, _, _ => .ok _

theorem allResolved_byteAmong : ∀ (vs : List Value) (ty : Ty) (position index offset : Nat),
    (machine.byteAmong vs ty position index offset).AllResolved
  | [], _, _, _, _ => .error (by simp)
  | member :: rest, ty, position, index, offset => by
    simp only [byteAmong]
    split
    · exact .error (by simp)
    · split
      · exact allResolved_byteAt member _ _
      · exact allResolved_byteAmong rest ..

end

theorem allResolved_checkBytes (ty : Ty) (count : Nat) :
    (machine.checkBytes ty count).AllResolved := by
  apply (allResolved_checkSupported ty).bind
  intro _ _
  simp only
  split
  · exact .ok _
  · exact .error (by simp)

theorem allResolved_membersOfBytes {ts : List Ty}
    (h : ∀ t ∈ ts, ∀ bytes, (machine.ofBytes t bytes).AllResolved) (bytes : List UInt8) :
    (machine.membersOfBytes ts bytes).AllResolved := by
  induction ts generalizing bytes with
  | nil =>
    rw [membersOfBytes, cutEnd]
    split
    · exact .ok _
    · exact .error (by simp)
  | cons t ts ih =>
    have hcut : (cut t (machine.target.byteSize t) bytes).AllResolved := by
      rw [cut]
      split
      · exact .error (by simp)
      · exact .ok _
    rw [membersOfBytes]
    apply hcut.bind
    intro pieces _
    apply (h t (List.mem_cons_self ..) pieces.1).bind
    intro _ _
    exact (ih (fun t ht => h t (List.mem_cons_of_mem _ ht)) pieces.2).bind fun _ _ => .ok _

theorem ParametersResolved.ofBytes (h : machine.ParametersResolved) (ty : Ty) (bytes : List UInt8) :
    (machine.ofBytes ty bytes).AllResolved := by
  induction ty using Ty.byMembers generalizing bytes with
  | atom t hatom =>
    unfold Machine.ofBytes
    apply (allResolved_checkBytes ..).bind
    intro _ _
    cases t with
    | int width =>
      simp only
      split
      · exact .ok _
      · exact .error (by simp)
    | pointer => exact (h.ofInt ..).map _
    | float kind => cases kind <;> first | exact .ok _ | exact .error (by simp)
    | special kind => exact .error (by simp)
    | sequence k count element => cases hatom
    | record k fields => cases hatom
    | _ => exact .ok _
  | aggregate t kind hkind ih =>
    rw [ofBytes_aggregate hkind]
    exact (allResolved_checkBytes ..).bind fun _ _ => (allResolved_membersOfBytes ih bytes).map _

mutual

theorem ParametersResolved.zeroValue (h : machine.ParametersResolved) :
    ∀ ty : Ty, (machine.addresses.zeroValue ty).AllResolved
  | .int width => by
    rw [AddressSpace.zeroValue]
    split
    · exact .ok _
    · exact .error (by simp)
  | .pointer => (h.ofInt ..).map _
  | .iptr | .float .float | .float .double | .void => .ok _
  | .float .half | .float .x86Fp80 | .float .fp128 | .float .ppcFp128 | .special _ =>
    .error (by simp)
  | .sequence _ _ element => (zeroValue h element).map _
  | .record _ fields => (zeroValues h fields).map _

theorem ParametersResolved.zeroValues (h : machine.ParametersResolved) :
    ∀ ts : List Ty, (machine.addresses.zeroValues ts).AllResolved
  | [] => .ok _
  | t :: ts => (zeroValue h t).bind fun _ _ => (zeroValues h ts).bind fun _ _ => .ok _

end

/-! ## Operations -/

theorem ParametersResolved.castPointer (h : machine.ParametersResolved) (cast : Cast) (v : Value)
    (ty : Ty) : (machine.castPointer cast v ty).AllResolved := by
  unfold Machine.castPointer
  split
  · exact .ok _
  · simp only
    split
    · exact .ok _
    · exact .error (by simp)
  · exact (h.ofInt ..).map _
  · exact (h.ofInt ..).map _
  · exact (h.ofInt ..).map _
  · exact .error (by simp)

theorem ParametersResolved.castPointers (h : machine.ParametersResolved) (cast : Cast)
    (source : Ty) (v : Value) (target : Ty) :
    (machine.castPointers cast source v target).AllResolved := by
  fun_induction Machine.castPointers machine cast source v target with
  | case1 _ _ _ _ ih => exact .map _ (.mapM fun lane _ => allResolved_castLane (ih lane))
  | case2 => exact .error (by simp)
  | case3 => exact .error (by simp)
  | case4 => exact h.castPointer ..

theorem ParametersResolved.bitcast (h : machine.ParametersResolved) (source : Ty) (v : Value)
    (target : Ty) : (machine.bitcast source v target).AllResolved := by
  rw [Machine.bitcast]
  split
  · exact .ok _
  · apply (allResolved_checkSupported _).bind
    intro _ _
    apply (allResolved_checkSupported _).bind
    intro _ _
    split
    · exact .error (by simp)
    · apply AllResolved.bind (.gather fun i _ => allResolved_byteAt v source i)
      intro bytes _
      cases bytes with
      | none => exact .ok _
      | some bytes => exact h.ofBytes target bytes

theorem ParametersResolved.convertValue (h : machine.ParametersResolved) (cast : Cast) (source : Ty)
    (v : Value) (target : Ty) : (machine.convert cast source v target).AllResolved := by
  simp only [Machine.convert]
  split
  · exact h.bitcast ..
  · exact h.castPointers ..
  · exact h.castPointers ..
  · exact h.castPointers ..
  · exact h.convert ..

theorem allResolved_selectLane (ifTrue cond t e : Value) :
    (selectLane ifTrue cond t e).AllResolved := by
  simp only [selectLane]
  split
  · split
    · exact .ok _
    · exact .error (by simp)
  · split
    · exact .ok _
    · exact .error (by simp)
  · exact .error (by simp)

theorem allResolved_selectLanes (ifTrue : Value) (conds ts es : List Value) :
    (selectLanes ifTrue conds ts es).AllResolved := by
  fun_induction selectLanes ifTrue conds ts es with
  | case1 c cs t ts e es ih =>
    apply (allResolved_selectLane ..).bind
    intro lane _
    exact ih.bind fun _ _ => .ok _
  | case2 => exact .ok _

theorem allResolved_selectVector (conds : List Value) (ifTrue ifFalse : Value) :
    (selectVector conds ifTrue ifFalse).AllResolved := by
  rw [selectVector]
  split
  · split
    · exact (allResolved_selectLanes ..).map _
    · exact .error (by simp)
  · exact .error (by simp)

variable {decide : SymValue → Outcome Value}

theorem allResolved_selectBy (hd : ∀ v, (decide v).AllResolved) (cond ifTrue ifFalse : SymValue) :
    (selectBy decide cond ifTrue ifFalse).AllResolved := by
  apply (hd cond).bind
  intro c _
  split
  · split
    · exact hd _
    · exact .error (by simp)
  · apply (hd ifTrue).bind
    intro v _
    split
    · exact .ok _
    · exact .error (by simp)
  · apply (hd ifTrue).bind
    intro t _
    apply (hd ifFalse).bind
    intro e _
    exact allResolved_selectVector ..
  · exact .error (by simp)

/-! ## Symbolic bytes -/

theorem allResolved_indexBy (hd : ∀ v, (decide v).AllResolved) (index : SymValue) :
    (indexBy decide index).AllResolved := by
  apply (hd index).bind
  intro v _
  split
  · exact .ok _
  · exact .ok _
  · exact .ok _
  · exact .error (by simp)

theorem allResolved_resolveByte (hd : ∀ v, (decide v).AllResolved) (parent : Value) (b : SymByte) :
    (machine.resolveByte decide parent b).AllResolved := by
  apply (allResolved_indexBy hd b.index).bind
  intro index _
  cases index with
  | none => exact .ok _
  | some index => exact allResolved_byteAt ..

theorem allResolved_resolveClass (hd : ∀ v, (decide v).AllResolved) (c : ItemClass SymByte) :
    (machine.resolveClass decide c).AllResolved := by
  apply (hd c.seed.1.parent).bind
  intro parent _
  split
  · exact .ok _
  · exact .gather fun item _ => (allResolved_resolveByte hd parent item.1).map _

theorem ParametersResolved.valueOfBytesBy (h : machine.ParametersResolved)
    (hd : ∀ v, (decide v).AllResolved) (bytes : List SymByte) (ty : Ty) :
    (machine.valueOfBytesBy decide bytes ty).AllResolved := by
  rw [Machine.valueOfBytesBy]
  simp only
  split
  · exact .error (by simp)
  · apply (AllResolved.gather fun c _ => allResolved_resolveClass hd c).bind
    intro resolved hres
    cases resolved with
    | none => exact .ok _
    | some resolved =>
      -- every class was resolved, so the place where the fault is raised is not reached
      obtain ⟨values, hvalues⟩ := exists_assemble_of_resolveClass hres
      simp only [hvalues, Outcome.ok_bind]
      exact h.ofBytes ty values

/-! ## The walk -/

theorem ParametersResolved.concretizeBy (h : machine.ParametersResolved)
    (hd : ∀ v, (decide v).AllResolved) (v : SymValue) :
    (machine.concretizeBy decide v).AllResolved := by
  cases v with
  | scalar s => cases s <;> exact .ok _
  | undef ty => exact h.zeroValue ty
  | poison ty => exact .ok _
  | void => exact .ok _
  | aggregate kind members => exact .map _ (.mapM fun v _ => hd v)
  | binary op left right =>
    apply (hd left).bind
    intro l _
    apply (hd right).bind
    intro r _
    split
    · exact .ok _
    · exact h.binary op l r
  | cast op source value target =>
    apply (hd value).bind
    intro v _
    split
    · exact .ok _
    · exact h.convertValue op source v target
  | select cond ifTrue ifFalse => exact allResolved_selectBy hd cond ifTrue ifFalse
  | extract whole path => exact (hd whole).bind fun v _ => v.allResolved_extractPath path
  | insert whole element path =>
    apply (hd whole).bind
    intro v _
    apply (hd element).bind
    intro e _
    exact v.allResolved_insertPath path e
  | byte b => exact .error (by simp)
  | concat bytes ty =>
    apply (allResolved_checkSupported ty).bind
    intro _ _
    split
    · exact hd _
    · exact h.valueOfBytesBy hd bytes ty

/-- No walk ends in the fault of a byte without a value, however many levels it has. That fault is
for positions of a value that no class covers, and the classes of bytes leave none out. -/
theorem allResolved_concretizeWithin (h : machine.ParametersResolved) (levels : Nat)
    (v : SymValue) : (machine.concretizeWithin levels v).AllResolved := by
  induction levels generalizing v with
  | zero => exact .error (by simp)
  | succ levels ih => exact h.concretizeBy ih v

end Machine

/-! ## The standard instructions -/

theorem allResolved_fixedWidth (width : Nat) (int : Int) : (fixedWidth width int).AllResolved := by
  rw [fixedWidth]
  split
  · exact .ok _
  · exact .error (by simp)

theorem allResolved_floatToInteger (twosComplement : Bool) (x : FloatBits .double) (ty : Ty) :
    (floatToInteger twosComplement x ty).AllResolved := by
  cases ty with
  | int width => exact .ite (allResolved_fixedWidth ..) (.ok _)
  | _ => exact .error (by simp)

theorem Cast.allResolved_onScalar (bits : Nat) (cast : Cast) (v : Value) (ty : Ty) :
    (cast.onScalar bits v ty).AllResolved := by
  simp only [Cast.onScalar]
  split <;> first
    | exact .ok _
    | exact .error (by simp)
    | exact allResolved_fixedWidth ..
    | exact allResolved_floatToInteger ..

theorem Cast.allResolved_onLanes (bits : Nat) (cast : Cast) (source : Ty) (v : Value)
    (target : Ty) : (cast.onLanes bits source v target).AllResolved := by
  fun_induction Cast.onLanes bits cast source v target with
  | case1 _ _ _ _ ih => exact .map _ (.mapM fun lane _ => allResolved_castLane (ih lane))
  | case2 => exact .error (by simp)
  | case3 => exact cast.allResolved_onScalar ..

theorem IntOp.allResolved_onScalars (bits : Nat) (op : IntOp) (v w : Value) :
    (op.onScalars bits v w).AllResolved := by
  simp only [IntOp.onScalars]
  split
  · split
    · split <;> first | exact .ok _ | exact .error (by simp)
    · exact .error (by simp)
  · split <;> first | exact .ok _ | exact .error (by simp)
  · exact .error (by simp)

theorem BinaryOp.allResolved_onScalars (bits : Nat) (op : BinaryOp) (v w : Value) :
    (op.onScalars bits v w).AllResolved := by
  cases op with
  | int op => exact op.allResolved_onScalars bits v w
  | intCmp pred =>
    simp only [BinaryOp.onScalars, IntPred.onScalars]
    split
    · split
      · exact .ok _
      · exact .error (by simp)
    · exact .ok _
    · exact .ok _
    · exact .error (by simp)
  | float op =>
    simp only [BinaryOp.onScalars, FloatOp.onScalars]
    split <;> first | exact .ok _ | exact .error (by simp)
  | floatCmp pred =>
    simp only [BinaryOp.onScalars, FloatPred.onScalars]
    split <;> first | exact .ok _ | exact .error (by simp)

theorem allResolved_onLanes {poisonTy : Ty → Ty} {f : Value → Value → Outcome Value}
    (hf : ∀ v w, (f v w).AllResolved) (v w : Value) : (onLanes poisonTy f v w).AllResolved := by
  simp only [onLanes]
  split
  · split
    · refine .map _ (.mapM ?_)
      intro lanes _
      split
      · exact .ok _
      · exact .ok _
      · exact hf ..
    · exact .error (by simp)
  · exact hf ..

/-- The machines with flat addresses and the standard instructions never bring this fault about
themselves, so nothing has to be asked of them. -/
theorem Machine.parametersResolved_standard (target : Target) :
    (Machine.standard target).ParametersResolved where
  ofInt _ _ := .ok _
  binary op := allResolved_onLanes (op.allResolved_onScalars _)
  convert cast := cast.allResolved_onLanes _

end SymbolicBytes
