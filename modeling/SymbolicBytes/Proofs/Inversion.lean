import SymbolicBytes.Machine.Concretize
import SymbolicBytes.Proofs.Outcomes
import SymbolicBytes.Proofs.Sizes
/-!
# What the steps of the walk can give

One inversion lemma for each function that deciding a value goes through. Where the function gives a
value, its lemma says which of the branches it took, what held there and what the value is. What the
walk preserves is proved from these lemmas, without another look into the functions.
-/

namespace SymbolicBytes

/-! ## Parts of values -/

namespace Value

/-- Spelling out poison of an aggregate type gives poison of the types of its members. -/
theorem spellOut_poison {t : Ty} {kind : AggregateKind} (h : t.aggregateKind? = some kind) :
    (poison t).spellOut = .ok (.aggregate kind (t.memberTys.map .poison)) := by
  cases t with
  | sequence k count element =>
    cases h
    rw [spellOut, Ty.memberTys, List.map_replicate]
  | record k fields =>
    cases h
    rfl
  | _ => cases h

/-- Poison is spelled out if its type is that of an aggregate, and what is no poison is left as it
is. -/
theorem spellOut_inv {v d : Value} (h : v.spellOut = .ok d) :
    (∃ ty kind, v = .poison ty ∧ ty.aggregateKind? = some kind ∧
        d = .aggregate kind (ty.memberTys.map .poison)) ∨
      v.isPoison = false ∧ d = v := by
  cases v with
  | poison ty =>
    cases ty with
    | sequence kind count element =>
      cases h
      exact .inl ⟨_, _, rfl, rfl, by rw [Ty.memberTys, List.map_replicate]⟩
    | record kind fields =>
      cases h
      exact .inl ⟨_, _, rfl, rfl, rfl⟩
    | _ => cases h
  | _ =>
    cases h
    exact .inr ⟨rfl, rfl⟩

theorem extractPath_inv {v d : Value} {index : Nat} {path : List Nat}
    (h : v.extractPath (index :: path) = .ok d) :
    (∃ ty part, v = .poison ty ∧ ty.memberAt? (index :: path) = some part ∧ d = .poison part) ∨
      ∃ kind members part, v = .aggregate kind members ∧ members[index]? = some part ∧
        part.extractPath path = .ok d := by
  cases v with
  | scalar s => cases h
  | void => cases h
  | poison ty =>
    rw [extractPath] at h
    split at h
    · rename_i part hpart
      cases h
      exact .inl ⟨ty, part, rfl, hpart, rfl⟩
    · cases h
  | aggregate kind members =>
    simp only [extractPath, members?] at h
    split at h
    · cases h
    · rename_i part hpart
      exact .inr ⟨kind, members, part, rfl, hpart, h⟩

/-- Replacing below the top spells out poison, replaces in a member, and puts that back. -/
theorem insertPath_inv {v element d : Value} {index : Nat} {path : List Nat}
    (h : v.insertPath (index :: path) element = .ok d) :
    ∃ kind members part updated, v.spellOut = .ok (.aggregate kind members) ∧
      members[index]? = some part ∧ part.insertPath path element = .ok updated ∧
      d = .aggregate kind (members.set index updated) := by
  rw [insertPath] at h
  split at h
  · cases h
  · rename_i kind members hspell
    split at h
    · cases h
    · rename_i part hpart
      split at h
      · cases h
      · rename_i updated hupdated
        cases h
        exact ⟨kind, members, part, updated, hspell, hpart, hupdated, rfl⟩
  · cases h

end Value

/-! ## Operations of the standard instructions -/

/-- An integer operation has two integers of one type, and gives an integer of that type or its
poison. -/
theorem IntOp.onScalars_inv {bits : Nat} {op : IntOp} {v w d : Value}
    (h : op.onScalars bits v w = .ok d) :
    (∃ x y, v = .int x ∧ w = .int y ∧ y.width = x.width ∧
        ((∃ b, d = .int ⟨x.width, b⟩) ∨ d = .poison (.int x.width.bits))) ∨
      ∃ x y, v = .iptr x ∧ w = .iptr y ∧
        ((∃ b : BitVec bits, d = .iptr b.toNat) ∨ d = .poison .iptr) := by
  simp only [onScalars] at h
  split at h
  · rename_i x y
    split at h
    · rename_i hwidth
      refine .inl ⟨x, y, rfl, rfl, hwidth, ?_⟩
      split at h <;> cases h
      · exact .inl ⟨_, rfl⟩
      · exact .inr rfl
    · cases h
  · rename_i x y
    refine .inr ⟨x, y, rfl, rfl, ?_⟩
    split at h <;> cases h
    · exact .inl ⟨_, rfl⟩
    · exact .inr rfl
  · cases h

theorem IntPred.onScalars_inv {bits : Nat} {pred : IntPred} {v w d : Value}
    (h : pred.onScalars bits v w = .ok d) : ∃ b, d = .bit b := by
  simp only [onScalars] at h
  split at h
  · split at h
    · cases h
      exact ⟨_, rfl⟩
    · cases h
  · cases h
    exact ⟨_, rfl⟩
  · cases h
    exact ⟨_, rfl⟩
  · cases h

theorem FloatOp.onScalars_inv {op : FloatOp} {v w d : Value} (h : op.onScalars v w = .ok d) :
    (∃ x y, v = .float x ∧ w = .float y ∧ d = .float (op.onBits x y)) ∨
      ∃ x y, v = .double x ∧ w = .double y ∧ d = .double (op.onBits x y) := by
  simp only [onScalars] at h
  split at h
  · cases h
    exact .inl ⟨_, _, rfl, rfl, rfl⟩
  · cases h
    exact .inr ⟨_, _, rfl, rfl, rfl⟩
  · cases h

theorem FloatPred.onScalars_inv {pred : FloatPred} {v w d : Value}
    (h : pred.onScalars v w = .ok d) : ∃ b, d = .bit b := by
  simp only [onScalars] at h
  split at h
  · cases h
    exact ⟨_, rfl⟩
  · cases h
    exact ⟨_, rfl⟩
  · cases h

/-- Lanes are poison where one of the two operands has poison, and computed where none has. -/
theorem onLanes_inv {poisonTy : Ty → Ty} {f : Value → Value → Outcome Value} {v w d : Value}
    (h : onLanes poisonTy f v w = .ok d) :
    (∃ vs ws ds, v = .vector vs ∧ w = .vector ws ∧ vs.length = ws.length ∧ d = .vector ds ∧
        List.Forall₂ (fun lanes lane =>
          (∃ t, (lanes.1 = .poison t ∨ lanes.2 = .poison t) ∧ lane = .poison (poisonTy t)) ∨
            f lanes.1 lanes.2 = .ok lane) (vs.zip ws) ds) ∨
      (∀ vs ws, v = .vector vs → w ≠ .vector ws) ∧ f v w = .ok d := by
  simp only [onLanes] at h
  split at h
  · rename_i vs ws
    split at h
    · rename_i hlen
      obtain ⟨ds, hds, rfl⟩ := Outcome.map_eq_ok.1 h
      refine .inl ⟨vs, ws, ds, rfl, rfl, hlen, rfl, (Outcome.mapM_eq_ok.1 hds).imp ?_⟩
      rintro ⟨a, b⟩ lane hlane
      split at hlane
      · rename_i t _ heq
        cases heq
        cases hlane
        exact .inl ⟨t, .inl rfl, rfl⟩
      · rename_i t _ heq
        cases heq
        cases hlane
        exact .inl ⟨t, .inr rfl, rfl⟩
      · rename_i heq
        cases heq
        exact .inr hlane
    · cases h
  · rename_i hnot
    exact .inr ⟨fun vs ws hv hw => hnot vs ws hv hw, h⟩

theorem fixedWidth_inv {width : Nat} {int : Int} {d : Value} (h : fixedWidth width int = .ok d) :
    ∃ i, FixedInt.ofInt? width int = some i ∧ d = .int i := by
  rw [fixedWidth] at h
  split at h
  · rename_i i hi
    cases h
    exact ⟨i, hi, rfl⟩
  · cases h

theorem floatToInteger_inv {twosComplement : Bool} {x : FloatBits .double} {ty : Ty} {d : Value}
    (h : floatToInteger twosComplement x ty = .ok d) :
    ∃ width, ty = .int width ∧
      ((∃ int, fixedWidth width int = .ok d) ∨ d = .poison (.int width)) := by
  cases ty with
  | int width =>
    refine ⟨width, rfl, ?_⟩
    rw [floatToInteger] at h
    rcases Outcome.eq_or_eq_of_ite h with h | h
    · exact .inl ⟨_, h⟩
    · cases h
      exact .inr rfl
  | _ => cases h

theorem castLane_inv {target : Ty} {f : Value → Outcome Value} {lane d : Value}
    (h : castLane target f lane = .ok d) :
    lane.isPoison = true ∧ d = .poison target ∨ lane.isPoison = false ∧ f lane = .ok d := by
  cases lane with
  | poison ty =>
    cases h
    exact .inl ⟨rfl, rfl⟩
  | _ => exact .inr ⟨rfl, h⟩

theorem castLanes_inv {target : Ty} {f : Value → Outcome Value} {lanes : List Value} {d : Value}
    (h : Value.vector <$> lanes.mapM (castLane target f) = .ok d) :
    ∃ ds, d = .vector ds ∧
      List.Forall₂ (fun lane e => e = .poison target ∨ f lane = .ok e) lanes ds := by
  obtain ⟨ds, hds, rfl⟩ := Outcome.map_eq_ok.1 h
  refine ⟨ds, rfl, (Outcome.mapM_eq_ok.1 hds).imp ?_⟩
  intro lane e he
  rcases castLane_inv he with ⟨-, rfl⟩ | ⟨-, he⟩
  · exact .inl rfl
  · exact .inr he

/-- Induction over what is converted: a vector may use what holds of its lanes. -/
theorem Cast.onLanes_induction {bits : Nat} {cast : Cast}
    {motive : Ty → Value → Ty → Value → Prop}
    (scalar : ∀ source v target d, cast.onScalar bits v target = .ok d → motive source v target d)
    (vector : ∀ n source vs target ds,
      List.Forall₂ (fun v d => d = .poison target ∨ motive source v target d) vs ds →
      motive (.vector n source) (.vector vs) (.vector vs.length target) (.vector ds))
    {source : Ty} {v : Value} {target : Ty} {d : Value}
    (h : cast.onLanes bits source v target = .ok d) : motive source v target d := by
  fun_induction Cast.onLanes bits cast source v target generalizing d with
  | case1 n source vs target ih =>
    obtain ⟨ds, rfl, hds⟩ := castLanes_inv h
    refine vector n source vs target ds (hds.imp ?_)
    rintro v d (rfl | hd)
    · exact .inl rfl
    · exact .inr (ih v hd)
  | case2 => cases h
  | case3 source v target => exact scalar source v target d h

namespace Machine

variable {machine : Machine} {decide : SymValue → Outcome Value} {d : Value}

/-! ## Conversions -/

/-- An address is made of an integer or of an address, which is read as an integer. -/
theorem castPointer_inv {cast : Cast} {v : Value} {ty : Ty}
    (h : machine.castPointer cast v ty = .ok d) :
    (∃ a, v = .address a ∧ ty = .iptr ∧
        d = .iptr (wrapUnsigned machine.target.pointerBits (machine.addresses.toInt a))) ∨
      (∃ a width i, v = .address a ∧ ty = .int width ∧
        FixedInt.ofInt? width (machine.addresses.toInt a) = some i ∧ d = .int i) ∨
      ∃ (int : Int) (provenance : Provenance) (a : Address), ty = .pointer ∧
        ((∃ i, cast = .inttoptr ∧ v = .int i ∧ int = i.toNat) ∨ v = .iptr int ∨
          ∃ b, v = .address b ∧ int = machine.addresses.toInt b) ∧
        machine.addresses.ofInt int provenance = .ok a ∧ d = .address a := by
  unfold castPointer at h
  split at h
  · cases h
    exact .inl ⟨_, rfl, rfl, rfl⟩
  · simp only at h
    split at h
    · rename_i i hi
      cases h
      exact .inr (.inl ⟨_, _, i, rfl, rfl, hi, rfl⟩)
    · cases h
  · obtain ⟨a, ha, rfl⟩ := Outcome.map_eq_ok.1 h
    exact .inr (.inr ⟨_, _, a, rfl, .inl ⟨_, rfl, rfl, rfl⟩, ha, rfl⟩)
  · obtain ⟨a, ha, rfl⟩ := Outcome.map_eq_ok.1 h
    exact .inr (.inr ⟨_, _, a, rfl, .inr (.inl rfl), ha, rfl⟩)
  · obtain ⟨a, ha, rfl⟩ := Outcome.map_eq_ok.1 h
    exact .inr (.inr ⟨_, _, a, rfl, .inr (.inr ⟨_, rfl, rfl⟩), ha, rfl⟩)
  · cases h

/-- Induction over what is converted: a vector may use what holds of its lanes. -/
theorem castPointers_induction {cast : Cast} {motive : Ty → Value → Ty → Value → Prop}
    (pointer : ∀ source v target d, machine.castPointer cast v target = .ok d →
      motive source v target d)
    (vector : ∀ n source vs target ds,
      List.Forall₂ (fun v d => d = .poison target ∨ motive source v target d) vs ds →
      motive (.vector n source) (.vector vs) (.vector vs.length target) (.vector ds))
    {source : Ty} {v : Value} {target : Ty}
    (h : machine.castPointers cast source v target = .ok d) : motive source v target d := by
  fun_induction castPointers machine cast source v target generalizing d with
  | case1 n source vs target ih =>
    obtain ⟨ds, rfl, hds⟩ := castLanes_inv h
    refine vector n source vs target ds (hds.imp ?_)
    rintro v d (rfl | hd)
    · exact .inl rfl
    · exact .inr (ih v hd)
  | case2 => cases h
  | case3 => cases h
  | case4 source v target => exact pointer source v target d h

/-- A bitcast leaves a value of its own type as it is. Otherwise both types have values, of one
size, and the bytes are read as the other type, or are poison. -/
theorem bitcast_inv {source target : Ty} {v : Value} (h : machine.bitcast source v target = .ok d) :
    source = target ∧ d = v ∨
      source ≠ target ∧ source.Supported ∧ target.Supported ∧
        machine.target.byteSize source = machine.target.byteSize target ∧
        (machine.bytesOf v source = .ok none ∧ d = .poison target ∨
          ∃ bytes, machine.bytesOf v source = .ok (some bytes) ∧
            machine.ofBytes target bytes = .ok d) := by
  rw [bitcast] at h
  by_cases hsame : source = target
  · rw [if_pos hsame] at h
    cases h
    exact .inl ⟨hsame, rfl⟩
  · rw [if_neg hsame] at h
    simp only [Outcome.bind_eq_ok] at h
    obtain ⟨_, hsource, _, htarget, h⟩ := h
    refine .inr ⟨hsame, (Ty.checkSupported_eq_ok_iff source).1 hsource,
      (Ty.checkSupported_eq_ok_iff target).1 htarget, ?_⟩
    split at h
    · cases h
    · rename_i hsizes
      refine ⟨not_ne_iff.1 hsizes, ?_⟩
      obtain ⟨bytes, hbytes, h⟩ := Outcome.bind_eq_ok.1 h
      cases bytes with
      | none =>
        cases h
        exact .inl ⟨hbytes, rfl⟩
      | some bytes => exact .inr ⟨bytes, hbytes, h⟩

/-- A conversion is a bitcast, one of pointers, or one of the instruction set. -/
theorem convert_inv {cast : Cast} {source target : Ty} {v : Value}
    (h : machine.convert cast source v target = .ok d) :
    cast = .bitcast ∧ machine.bitcast source v target = .ok d ∨
      machine.castPointers cast source v target = .ok d ∨
      machine.instructions.convert cast source v target = .ok d := by
  simp only [convert] at h
  split at h
  · exact .inl ⟨rfl, h⟩
  · exact .inr (.inl h)
  · exact .inr (.inl h)
  · exact .inr (.inl h)
  · exact .inr (.inr h)

/-! ## Choices -/

theorem selectLane_inv {ifTrue cond t e : Value} (h : selectLane ifTrue cond t e = .ok d) :
    (∃ u ty, cond = .poison u ∧ t.ty? = some ty ∧ d = .poison ty) ∨
      ∃ i b, cond = .int i ∧ i.toBool? = some b ∧ d = if b then t else e := by
  simp only [selectLane] at h
  split at h
  · split at h
    · rename_i u _ ty hty
      cases h
      exact .inl ⟨u, ty, rfl, hty, rfl⟩
    · cases h
  · split at h
    · rename_i i _ b hb
      cases h
      exact .inr ⟨i, b, rfl, hb, rfl⟩
    · cases h
  · cases h

/-- There is a lane for each condition, and each is a choice between two lanes of the branches. -/
theorem selectLanes_inv {ifTrue : Value} {conds ts es ds : List Value}
    (hts : ts.length = conds.length) (hes : es.length = conds.length)
    (h : selectLanes ifTrue conds ts es = .ok ds) :
    ds.length = conds.length ∧
      ∀ d ∈ ds, ∃ c ∈ conds, ∃ t ∈ ts, ∃ e ∈ es, selectLane ifTrue c t e = .ok d := by
  induction conds generalizing ts es ds with
  | nil =>
    obtain rfl := List.eq_nil_of_length_eq_zero hts
    cases h
    refine ⟨rfl, ?_⟩
    intro d hd
    cases hd
  | cons c cs ih =>
    obtain ⟨t, ts, rfl⟩ := List.exists_cons_of_length_eq_add_one hts
    obtain ⟨e, es, rfl⟩ := List.exists_cons_of_length_eq_add_one hes
    simp only [selectLanes, Outcome.bind_eq_ok] at h
    obtain ⟨lane, hlane, lanes, hlanes, h⟩ := h
    cases h
    obtain ⟨hlen, hall⟩ := ih (Nat.succ.inj hts) (Nat.succ.inj hes) hlanes
    refine ⟨congrArg Nat.succ hlen, ?_⟩
    intro d hd
    rcases List.mem_cons.1 hd with rfl | hd
    · exact ⟨c, List.mem_cons_self .., t, List.mem_cons_self .., e, List.mem_cons_self .., hlane⟩
    · obtain ⟨c', hc, t', ht, e', he, hlane⟩ := hall d hd
      exact ⟨c', List.mem_cons_of_mem _ hc, t', List.mem_cons_of_mem _ ht, e',
        List.mem_cons_of_mem _ he, hlane⟩

theorem selectVector_inv {conds : List Value} {t e : Value} (h : selectVector conds t e = .ok d) :
    ∃ ts es lanes, t.members? = some ts ∧ e.members? = some es ∧ ts.length = conds.length ∧
      es.length = conds.length ∧ selectLanes t conds ts es = .ok lanes ∧ d = .vector lanes := by
  rw [selectVector] at h
  split at h
  · rename_i ts es hts hes
    by_cases hlens : ts.length = conds.length ∧ es.length = conds.length
    · rw [if_pos hlens] at h
      obtain ⟨lanes, hlanes, rfl⟩ := Outcome.map_eq_ok.1 h
      exact ⟨ts, es, lanes, hts, hes, hlens.1, hlens.2, hlanes, rfl⟩
    · rw [if_neg hlens] at h
      cases h
  · cases h

/-- A choice takes one branch, or makes poison of the type of the first, or chooses lane by lane. -/
theorem selectBy_inv {cond ifTrue ifFalse : SymValue}
    (h : selectBy decide cond ifTrue ifFalse = .ok d) :
    ∃ c, decide cond = .ok c ∧
      ((∃ i b, c = .int i ∧ i.toBool? = some b ∧
          decide (if b then ifTrue else ifFalse) = .ok d) ∨
        (∃ u v ty, c = .poison u ∧ decide ifTrue = .ok v ∧ v.ty? = some ty ∧ d = .poison ty) ∨
        ∃ conds t e, c = .vector conds ∧ decide ifTrue = .ok t ∧ decide ifFalse = .ok e ∧
          selectVector conds t e = .ok d) := by
  rw [selectBy, Outcome.bind_eq_ok] at h
  obtain ⟨c, hc, h⟩ := h
  refine ⟨c, hc, ?_⟩
  split at h
  · split at h
    · rename_i i _ b hb
      exact .inl ⟨i, b, rfl, hb, h⟩
    · cases h
  · rename_i u
    obtain ⟨v, hv, h⟩ := Outcome.bind_eq_ok.1 h
    split at h
    · rename_i ty hty
      cases h
      exact .inr (.inl ⟨u, v, ty, rfl, hv, hty, rfl⟩)
    · cases h
  · rename_i conds
    obtain ⟨t, ht, h⟩ := Outcome.bind_eq_ok.1 h
    obtain ⟨e, he, h⟩ := Outcome.bind_eq_ok.1 h
    exact .inr (.inr ⟨conds, t, e, rfl, ht, he, h⟩)
  · cases h

/-! ## Values -/

/-- Bytes are as many as the type has. What they spell is poison where one of them is, and is
otherwise rebuilt from the numbers in their places. -/
theorem valueOfBytesBy_inv {bytes : List SymByte} {ty : Ty}
    (h : machine.valueOfBytesBy decide bytes ty = .ok d) :
    bytes.length = machine.target.byteSize ty ∧
      (gather (machine.resolveClass decide) (itemClasses SymByte.entangled bytes) = .ok none ∧
          d = .poison ty ∨
        ∃ resolved values,
          gather (machine.resolveClass decide) (itemClasses SymByte.entangled bytes) =
            .ok (some resolved) ∧
          assemble bytes.length resolved.flatten = .ok values ∧
          machine.ofBytes ty values = .ok d) := by
  rw [valueOfBytesBy] at h
  simp only at h
  split at h
  · cases h
  · rename_i hlen
    refine ⟨not_ne_iff.1 hlen, ?_⟩
    obtain ⟨resolved, hresolved, h⟩ := Outcome.bind_eq_ok.1 h
    cases resolved with
    | none =>
      cases h
      exact .inl ⟨hresolved, rfl⟩
    | some resolved =>
      obtain ⟨values, hvalues, h⟩ := Outcome.bind_eq_ok.1 h
      exact .inr ⟨resolved, values, hresolved, hvalues, h⟩

/-- An operation makes poison of poison before the instruction set is asked. -/
theorem concretizeBy_binary_inv {op : BinaryOp} {left right : SymValue}
    (h : machine.concretizeBy decide (.binary op left right) = .ok d) :
    ∃ l r, decide left = .ok l ∧ decide right = .ok r ∧
      ((∃ ty, poisonOperand? l r = some ty ∧ d = .poison (op.poisonTy ty)) ∨
        poisonOperand? l r = none ∧ machine.instructions.binary op l r = .ok d) := by
  simp only [concretizeBy, Outcome.bind_eq_ok] at h
  obtain ⟨l, hl, r, hr, h⟩ := h
  refine ⟨l, r, hl, hr, ?_⟩
  split at h
  · rename_i ty hty
    cases h
    exact .inl ⟨ty, hty, rfl⟩
  · rename_i hnone
    exact .inr ⟨hnone, h⟩

/-- A conversion makes poison of poison, whatever it converts into. -/
theorem concretizeBy_cast_inv {op : Cast} {source target : Ty} {value : SymValue}
    (h : machine.concretizeBy decide (.cast op source value target) = .ok d) :
    ∃ v, decide value = .ok v ∧
      (v.isPoison = true ∧ d = .poison target ∨
        v.isPoison = false ∧ machine.convert op source v target = .ok d) := by
  simp only [concretizeBy, Outcome.bind_eq_ok] at h
  obtain ⟨v, hv, h⟩ := h
  refine ⟨v, hv, ?_⟩
  by_cases hpoison : v.isPoison = true
  · rw [if_pos hpoison] at h
    cases h
    exact .inl ⟨hpoison, rfl⟩
  · rw [if_neg hpoison] at h
    exact .inr ⟨Bool.eq_false_iff.2 hpoison, h⟩

theorem concretizeBy_insert_inv {whole element : SymValue} {path : List Nat}
    (h : machine.concretizeBy decide (.insert whole element path) = .ok d) :
    ∃ v e, decide whole = .ok v ∧ decide element = .ok e ∧ v.insertPath path e = .ok d := by
  simp only [concretizeBy, Outcome.bind_eq_ok] at h
  obtain ⟨v, hv, e, he, h⟩ := h
  exact ⟨v, e, hv, he, h⟩

/-- Loaded bytes are decided as their parent if they are one whole store, and byte by byte
otherwise. -/
theorem concretizeBy_concat_inv {bytes : List SymByte} {ty : Ty}
    (h : machine.concretizeBy decide (.concat bytes ty) = .ok d) :
    ty.Supported ∧
      ((∃ parent, machine.intactParent? bytes ty = some parent ∧ decide parent = .ok d) ∨
        machine.intactParent? bytes ty = none ∧
          machine.valueOfBytesBy decide bytes ty = .ok d) := by
  simp only [concretizeBy, Outcome.bind_eq_ok] at h
  obtain ⟨_, hty, h⟩ := h
  refine ⟨(Ty.checkSupported_eq_ok_iff ty).1 hty, ?_⟩
  split at h
  · rename_i parent hintact
    exact .inl ⟨parent, hintact, h⟩
  · rename_i hnone
    exact .inr ⟨hnone, h⟩

end Machine

end SymbolicBytes
