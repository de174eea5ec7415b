import SymbolicBytes.Proofs.Conversions
import SymbolicBytes.Proofs.InstructionTyping
/-!
# Vector instructions lane by lane

An instruction on vectors is the same instruction on each lane. `LaneWise` puts a vector instruction
beside the instructions on the parts of its operands, and `LaneByLane` says what there is to know of
their outcomes: the vector instruction has a result exactly if all the others have, the lanes of it
are theirs, and its fault is the first of theirs (`concretize_laneWise`).

Lanes are lifted in three places, `onLanes`, `Cast.onLanes` and `Machine.castPointers`, and poison
vectors are none of their business. All of it comes down to two functions on decided operands,
`Machine.operate` and `Machine.castTo`, which commute with taking a lane.
-/

namespace SymbolicBytes

/-! ## Outcomes of lanes -/

/-- Whether the outcome of a vector is put together from the outcomes of its lanes. -/
structure LaneByLane (count : Nat) (whole : Outcome Value) (lane : Nat → Outcome Value) :
    Prop where
  /-- there is a vector exactly if there are all its lanes -/
  ok_iff : (∃ d, whole = .ok d) ↔ ∀ i < count, ∃ e, lane i = .ok e
  /-- the lanes of the vector are those lanes, poison and its type included -/
  extractPath_eq : ∀ d, whole = .ok d → ∀ i < count, d.extractPath [i] = lane i
  /-- the fault is that of the first lane that has one -/
  error_iff : ∀ fault, whole = .error fault ↔
    ∃ i < count, lane i = .error fault ∧ ∀ j < i, ∃ e, lane j = .ok e

/-- Only the lanes that there are matter. -/
theorem LaneByLane.congr {count : Nat} {whole : Outcome Value} {lane lane' : Nat → Outcome Value}
    (h : LaneByLane count whole lane) (heq : ∀ i < count, lane' i = lane i) :
    LaneByLane count whole lane' where
  ok_iff := by
    rw [h.ok_iff]
    exact forall₂_congr fun i hi => by rw [heq i hi]
  extractPath_eq := by
    intro d hd i hi
    rw [heq i hi]
    exact h.extractPath_eq d hd i hi
  error_iff := by
    intro fault
    rw [h.error_iff]
    refine exists_congr fun i => and_congr_right fun hi => ?_
    rw [heq i hi]
    refine and_congr_right fun _ => forall₂_congr fun j hj => ?_
    rw [heq j (Nat.lt_trans hj hi)]

namespace Value

/-- A value of a vector type is poison or has its lanes. -/
theorem HasTy.vector_cases {v : Value} {count : Nat} {element : Ty}
    (h : v.HasTy (.vector count element)) :
    v = .poison (.vector count element) ∨
      ∃ vs, v = .vector vs ∧ vs.length = count ∧ ∀ m ∈ vs, m.HasTy element := by
  cases hpoison : v.isPoison with
  | true =>
    cases v with
    | poison t => exact .inl (by rw [h.poison_eq])
    | _ => cases hpoison
  | false => exact .inr (h.sequence_inv hpoison)

theorem extractPath_vector {vs : List Value} {i : Nat} {lane : Value} (h : vs[i]? = some lane) :
    (vector vs).extractPath [i] = .ok lane := by
  simp only [extractPath, members?, h]

theorem extractPath_poison {count i : Nat} (element : Ty) (hi : i < count) :
    (poison (.vector count element)).extractPath [i] = .ok (.poison element) := by
  rw [extractPath, Ty.memberAt?, Ty.member?, if_pos hi]
  rfl

/-- A value of a vector type has lanes of the element type, and poison has poison lanes. So a vector
instruction and the instructions on lanes see the same poison. -/
theorem HasTy.exists_lane {v : Value} {count : Nat} {element : Ty}
    (h : v.HasTy (.vector count element)) {i : Nat} (hi : i < count) :
    ∃ lane, v.extractPath [i] = .ok lane ∧ lane.HasTy element ∧
      (v.isPoison = true → lane.isPoison = true) := by
  rcases h.vector_cases with rfl | ⟨vs, rfl, rfl, hvs⟩
  · exact ⟨.poison element, extractPath_poison element hi, .poison element, fun _ => rfl⟩
  · exact ⟨vs[i], extractPath_vector (List.getElem?_eq_getElem hi), hvs _ (List.getElem_mem hi),
      nofun⟩

end Value

/-- Poison of a vector type is put together from poison of the type of its lanes. -/
theorem laneByLane_poison {count : Nat} {t : Ty} {lane : Nat → Outcome Value}
    (h : ∀ i < count, lane i = .ok (.poison t)) :
    LaneByLane count (.ok (.poison (.vector count t))) lane where
  ok_iff := iff_of_true ⟨_, rfl⟩ fun i hi => ⟨_, h i hi⟩
  extractPath_eq := by
    rintro d ⟨⟩ i hi
    rw [h i hi, Value.extractPath_poison t hi]
  error_iff := by
    intro fault
    constructor
    · rintro ⟨⟩
    · rintro ⟨i, hi, hfault, -⟩
      cases (h i hi).symm.trans hfault

/-- A vector whose lanes are computed one after the other is put together from them. The first lane
that is a fault makes the fault of the whole. -/
theorem laneByLane_mapM {α : Type} {count : Nat} {as : List α} {f : α → Outcome Value}
    {lane : Nat → Outcome Value} (hlen : as.length = count)
    (h : ∀ (i : Nat) (a : α), as[i]? = some a → lane i = f a) :
    LaneByLane count (Value.vector <$> as.mapM f) lane := by
  subst hlen
  have hget : ∀ i < as.length, ∃ a, as[i]? = some a := fun i hi =>
    ⟨as[i], List.getElem?_eq_getElem hi⟩
  have hlt : ∀ {i : Nat} {a : α}, as[i]? = some a → i < as.length := fun ha =>
    (List.getElem?_eq_some_iff.1 ha).1
  constructor
  case ok_iff =>
    simp only [Outcome.map_eq_ok]
    constructor
    · rintro ⟨d, ds, hds, -⟩ i hi
      obtain ⟨a, ha⟩ := hget i hi
      rw [h i a ha]
      exact Outcome.exists_mapM_eq_ok_iff.1 ⟨ds, hds⟩ i a ha
    · intro hall
      have hf : ∀ (i : Nat) (a : α), as[i]? = some a → ∃ d, f a = .ok d := by
        intro i a ha
        rw [← h i a ha]
        exact hall i (hlt ha)
      obtain ⟨ds, hds⟩ := Outcome.exists_mapM_eq_ok_iff.2 hf
      exact ⟨_, ds, hds, rfl⟩
  case extractPath_eq =>
    intro d hd i hi
    obtain ⟨ds, hds, rfl⟩ := Outcome.map_eq_ok.1 hd
    obtain ⟨a, ha⟩ := hget i hi
    obtain ⟨e, he, hlane⟩ := exists_getElem?_of_forall₂ (Outcome.mapM_eq_ok.1 hds).flip ha
    rw [h i a ha, hlane]
    exact Value.extractPath_vector he
  case error_iff =>
    -- both sides name the first lane that is a fault, by its position
    intro fault
    rw [Outcome.map_eq_error, Outcome.mapM_eq_error_iff]
    constructor
    · rintro ⟨i, a, ha, hfault, hbefore⟩
      refine ⟨i, hlt ha, (h i a ha).trans hfault, ?_⟩
      intro j hj
      obtain ⟨c, hc⟩ := hget j (Nat.lt_trans hj (hlt ha))
      rw [h j c hc]
      exact hbefore j hj c hc
    · rintro ⟨i, hi, hfault, hbefore⟩
      obtain ⟨a, ha⟩ := hget i hi
      refine ⟨i, a, ha, (h i a ha).symm.trans hfault, ?_⟩
      intro j hj c hc
      rw [← h j c hc]
      exact hbefore j hj

/-! ## Instructions on decided operands -/

/-- An operation where no operand is poison, and poison of its type where one is. -/
def onLane (poisonTy : Ty → Ty) (f : Value → Value → Outcome Value) (v w : Value) :
    Outcome Value :=
  match poisonOperand? v w with
  | some t => .ok (.poison (poisonTy t))
  | none => f v w

theorem onLanes_vector {poisonTy : Ty → Ty} {f : Value → Value → Outcome Value}
    {vs ws : List Value} (hlen : vs.length = ws.length) :
    onLanes poisonTy f (.vector vs) (.vector ws) =
      Value.vector <$> (vs.zip ws).mapM fun p => onLane poisonTy f p.1 p.2 := by
  rw [onLanes, if_pos hlen]
  congr 2
  funext p
  obtain ⟨v, w⟩ := p
  cases v <;> cases w <;> rfl

/-- What a conversion between two vector types does is done to every lane, poison lanes apart. -/
theorem Cast.onLanes_vector {bits : Nat} {cast : Cast} {count : Nat} {source target : Ty}
    {vs : List Value} (hlen : vs.length = count) :
    cast.onLanes bits (.vector count source) (.vector vs) (.vector count target) =
      Value.vector <$> vs.mapM
        (castLane target fun v => cast.onLanes bits source v target) := by
  rw [Cast.onLanes, if_pos hlen]

theorem onLanes_of_not_vector {poisonTy : Ty → Ty} {f : Value → Value → Outcome Value}
    {v w : Value} (h : ∀ vs, v ≠ .vector vs) : onLanes poisonTy f v w = f v w := by
  unfold onLanes
  split
  · exact absurd rfl (h _)
  · rfl

theorem onLane_eq {poisonTy : Ty → Ty} {f : Value → Value → Outcome Value} {v w : Value} {t : Ty}
    (hv : v.HasTy t) (hw : w.HasTy t) :
    onLane poisonTy f v w =
      if v.isPoison = true ∨ w.isPoison = true then .ok (.poison (poisonTy t)) else f v w := by
  unfold onLane
  split
  case h_1 u hu =>
    have hpoison : v.isPoison = true ∨ w.isPoison = true := by
      by_contra hnot
      simp only [not_or, Bool.not_eq_true] at hnot
      rw [poisonOperand?_eq_none_iff.2 hnot] at hu
      cases hu
    rw [if_pos hpoison, poisonOperand?_eq hv hw hu]
  case h_2 hu =>
    obtain ⟨hvp, hwp⟩ := poisonOperand?_eq_none_iff.1 hu
    rw [if_neg (by simp [hvp, hwp])]

namespace Machine

variable {machine : Machine}

/-- An operation on two operands, of which each may be poison. -/
def operate (machine : Machine) (op : BinaryOp) : Value → Value → Outcome Value :=
  onLane op.poisonTy (machine.instructions.binary op)

theorem concretizeBy_binary (decide : SymValue → Outcome Value) (op : BinaryOp)
    (left right : SymValue) :
    machine.concretizeBy decide (.binary op left right) =
      decide left >>= fun l => decide right >>= fun r => machine.operate op l r := rfl

theorem castLane_convert (op : Cast) (source target : Ty) (v : Value) :
    castLane target (fun v => machine.convert op source v target) v =
      machine.castTo op source v target := by
  cases v <;> rfl

/-- A conversion between two vector types converts each lane as a value by itself. A bitcast does
not: it may cut the bytes of the vector at other places. -/
theorem convert_vector {tgt : Target} {op : Cast} (hop : op ≠ .bitcast) {count : Nat}
    {source target : Ty} {vs : List Value} (hlen : vs.length = count) :
    (standard tgt).convert op (.vector count source) (.vector vs) (.vector count target) =
      Value.vector <$> vs.mapM fun v => (standard tgt).castTo op source v target := by
  simp only [← castLane_convert]
  cases op with
  | bitcast => exact absurd rfl hop
  | ptrtoint | inttoptr | addrspacecast => rw [convert, castPointers, if_pos hlen]; rfl
  | _ => exact Cast.onLanes_vector hlen

variable {tgt : Target}

/-- An operation on operands of which one is poison makes poison of the type of the result, and
looks at nothing else. -/
theorem operate_poison {op : BinaryOp} {l r : Value} {t : Ty} (hl : l.HasTy t) (hr : r.HasTy t)
    (hpoison : l.isPoison = true ∨ r.isPoison = true) :
    machine.operate op l r = .ok (.poison (op.resultTy t)) := by
  rw [operate, onLane_eq hl hr, if_pos hpoison, BinaryOp.poisonTy_eq_resultTy]

/-- An operation on two lanes is the scalar operation, and poison of its type. -/
theorem operate_lane {op : BinaryOp} {v w : Value} {element : Ty} (hv : v.HasTy element)
    (hw : w.HasTy element) (helement : element.aggregateKind? ≠ some (.sequence .vector)) :
    (standard tgt).operate op v w =
      onLane op.lanePoisonTy (op.onScalars tgt.pointerBits) v w := by
  have hvector : ∀ vs, v ≠ .vector vs := by
    rintro vs rfl
    obtain ⟨count, inner, rfl, -⟩ := hv.vector_inv
    exact helement rfl
  rw [operate, onLane_eq hv hw, onLane_eq hv hw, BinaryOp.poisonTy_eq_resultTy,
    BinaryOp.resultTy_of_not_vector helement]
  exact congrArg (ite _ _) (onLanes_of_not_vector hvector)

/-- An operation on two vectors is the operation on their lanes, where no lane is a vector itself.
-/
theorem laneByLane_operate {op : BinaryOp} {l r : Value} {count : Nat} {element : Ty}
    (hl : l.HasTy (.vector count element)) (hr : r.HasTy (.vector count element))
    (helement : element.aggregateKind? ≠ some (.sequence .vector)) :
    LaneByLane count ((standard tgt).operate op l r) fun i =>
      l.extractPath [i] >>= fun v => r.extractPath [i] >>= fun w =>
        (standard tgt).operate op v w := by
  by_cases hpoison : l.isPoison = true ∨ r.isPoison = true
  · rw [operate_poison hl hr hpoison, BinaryOp.resultTy_vector]
    apply laneByLane_poison
    intro i hi
    obtain ⟨v, hv, hvty, hvp⟩ := hl.exists_lane hi
    obtain ⟨w, hw, hwty, hwp⟩ := hr.exists_lane hi
    simp only [hv, hw, Outcome.ok_bind]
    rw [operate_poison hvty hwty (hpoison.imp hvp hwp), BinaryOp.resultTy_of_not_vector helement]
  · rw [operate, onLane_eq hl hr, if_neg hpoison]
    simp only [not_or, Bool.not_eq_true] at hpoison
    obtain ⟨vs, rfl, hvlen, hvs⟩ := hl.sequence_inv hpoison.1
    obtain ⟨ws, rfl, hwlen, hws⟩ := hr.sequence_inv hpoison.2
    rw [show (standard tgt).instructions.binary op (.vector vs) (.vector ws) = _ from
      onLanes_vector (hvlen.trans hwlen.symm)]
    apply laneByLane_mapM
    · rw [List.length_zip, hvlen, hwlen, Nat.min_self]
    · rintro i ⟨v, w⟩ hmem
      obtain ⟨hv, hw⟩ := List.getElem?_zip_eq_some.1 hmem
      simp only [Value.extractPath_vector hv, Value.extractPath_vector hw, Outcome.ok_bind]
      exact operate_lane (hvs v (List.mem_of_getElem? hv)) (hws w (List.mem_of_getElem? hw))
        helement

/-- A conversion between two vector types is the conversion of the lanes. -/
theorem laneByLane_castTo {op : Cast} (hop : op ≠ .bitcast) {v : Value} {count : Nat}
    {source target : Ty} (hv : v.HasTy (.vector count source)) :
    LaneByLane count ((standard tgt).castTo op (.vector count source) v (.vector count target))
      fun i => v.extractPath [i] >>= fun lane => (standard tgt).castTo op source lane target := by
  rcases hv.vector_cases with rfl | ⟨vs, rfl, hlen, -⟩
  · apply laneByLane_poison
    intro i hi
    rw [Value.extractPath_poison source hi]
    rfl
  · rw [castTo_eq_convert rfl, convert_vector hop hlen]
    apply laneByLane_mapM hlen
    intro i lane hlane
    rw [Value.extractPath_vector hlane, Outcome.ok_bind]

/-! ## Vector instructions -/

/-- An instruction on vectors, and for each lane the instruction on that lane of the operands. -/
inductive LaneWise (machine : Machine) (count : Nat) : SymValue → (Nat → SymValue) → Prop where
  /-- an operation on two vectors of one type, the lanes of which are no vectors -/
  | binary (op : BinaryOp) {left right : SymValue} {l r : Value} {element : Ty}
      (hleft : machine.concretize left = .ok l) (hright : machine.concretize right = .ok r)
      (hl : l.HasTy (.vector count element)) (hr : r.HasTy (.vector count element))
      (helement : element.aggregateKind? ≠ some (.sequence .vector)) :
      LaneWise machine count (.binary op left right)
        fun i => .binary op (.extract left [i]) (.extract right [i])
  /-- a conversion between two vector types that does not work on the bytes of the whole -/
  | cast {op : Cast} (hop : op ≠ .bitcast) {value : SymValue} {v : Value} {source : Ty}
      (hvalue : machine.concretize value = .ok v) (hv : v.HasTy (.vector count source))
      (target : Ty) :
      LaneWise machine count (.cast op (.vector count source) value (.vector count target))
        fun i => .cast op source (.extract value [i]) target

theorem concretizeWithin_extract {whole : SymValue} {d : Value}
    (h : machine.concretize whole = .ok d) (path : List Nat) :
    machine.concretizeWithin (depthLimit + 1 + 1) (.extract whole path) = d.extractPath path := by
  have hwhole : machine.concretizeWithin (depthLimit + 1) whole = .ok d := h
  rw [concretizeWithin, concretizeBy, hwhole, Outcome.ok_bind]

theorem concretize_binary {op : BinaryOp} {left right : SymValue} {l r : Value}
    (hl : machine.concretize left = .ok l) (hr : machine.concretize right = .ok r)
    (h : machine.concretize (.binary op left right) ≠ .error .tooDeep) :
    machine.concretize (.binary op left right) = machine.operate op l r := by
  have hleft : machine.concretizeWithin (depthLimit + 1) left = .ok l := hl
  have hright : machine.concretizeWithin (depthLimit + 1) right = .ok r := hr
  rw [concretize_eq_concretizeBy h 0, concretizeBy_binary, hleft, hright]
  rfl

theorem concretize_binary_lane {op : BinaryOp} {left right : SymValue} {l r : Value}
    (hl : machine.concretize left = .ok l) (hr : machine.concretize right = .ok r)
    {path : List Nat}
    (h : machine.concretize (.binary op (.extract left path) (.extract right path)) ≠
      .error .tooDeep) :
    machine.concretize (.binary op (.extract left path) (.extract right path)) =
      l.extractPath path >>= fun v => r.extractPath path >>= fun w => machine.operate op v w := by
  rw [concretize_eq_concretizeBy h 1, concretizeBy_binary, concretizeWithin_extract hl,
    concretizeWithin_extract hr]

theorem concretize_cast_lane {op : Cast} {source target : Ty} {value : SymValue} {v : Value}
    (hv : machine.concretize value = .ok v) {path : List Nat}
    (h : machine.concretize (.cast op source (.extract value path) target) ≠ .error .tooDeep) :
    machine.concretize (.cast op source (.extract value path) target) =
      v.extractPath path >>= fun lane => machine.castTo op source lane target := by
  rw [concretize_eq_concretizeBy h 1, concretizeBy_cast, concretizeWithin_extract hv]

/-- An instruction on vectors is the same instruction on each lane of them, in its values and in its
faults. That no side gives up for being too deep has to be asked, as the lanes are a level further
down than the vector. -/
theorem concretize_laneWise {count : Nat} {node : SymValue} {lane : Nat → SymValue}
    (h : LaneWise (standard tgt) count node lane)
    (hnode : (standard tgt).concretize node ≠ .error .tooDeep)
    (hlanes : ∀ i < count, (standard tgt).concretize (lane i) ≠ .error .tooDeep) :
    LaneByLane count ((standard tgt).concretize node)
      fun i => (standard tgt).concretize (lane i) := by
  cases h with
  | binary op hleft hright hl hr helement =>
    rw [concretize_binary hleft hright hnode]
    exact (laneByLane_operate hl hr helement).congr fun i hi =>
      concretize_binary_lane hleft hright (hlanes i hi)
  | cast hop hvalue hv target =>
    rw [concretize_cast hvalue hnode]
    exact (laneByLane_castTo hop hv).congr fun i hi => concretize_cast_lane hvalue (hlanes i hi)

/-- Three bytes, of which the middle one is poison. -/
def dividends : Value := .vector [.int ⟨.i8, 6⟩, .poison (.int 8), .int ⟨.i8, 9⟩]

/-- Three bytes, of which the middle one is zero. -/
def divisors : Value := .vector [.int ⟨.i8, 2⟩, .int ⟨.i8, 0⟩, .int ⟨.i8, 4⟩]

/-- Two vectors of three bytes are divided lane by lane. The middle quotient is poison like the
dividend, although the divisor is zero. -/
theorem concretize_laneWise_udiv :
    LaneWise (standard .standard) 3
        (.binary (.int (.udiv false)) dividends.toSym divisors.toSym)
        (fun i => .binary (.int (.udiv false)) (.extract dividends.toSym [i])
          (.extract divisors.toSym [i])) ∧
      (standard .standard).concretize
          (.binary (.int (.udiv false)) dividends.toSym divisors.toSym) =
        .ok (.vector [.int ⟨.i8, 3⟩, .poison (.int 8), .int ⟨.i8, 2⟩]) ∧
      LaneByLane 3
        ((standard .standard).concretize
          (.binary (.int (.udiv false)) dividends.toSym divisors.toSym))
        fun i => (standard .standard).concretize (.binary (.int (.udiv false))
          (.extract dividends.toSym [i]) (.extract divisors.toSym [i])) := by
  have hl : dividends.HasTy (.vector 3 (.int 8)) := by
    refine Value.hasTy_vector rfl ?_
    simp only [List.forall_mem_cons]
    exact ⟨.scalar _, .poison _, .scalar _, nofun⟩
  have hr : divisors.HasTy (.vector 3 (.int 8)) := by
    refine Value.hasTy_vector rfl ?_
    simp only [List.forall_mem_cons]
    exact ⟨.scalar _, .scalar _, .scalar _, nofun⟩
  have h : LaneWise (standard .standard) 3
      (.binary (.int (.udiv false)) dividends.toSym divisors.toSym)
      (fun i => .binary (.int (.udiv false)) (.extract dividends.toSym [i])
        (.extract divisors.toSym [i])) := .binary _ rfl rfl hl hr nofun
  have hnode : (standard .standard).concretize
      (.binary (.int (.udiv false)) dividends.toSym divisors.toSym) ≠ .error .tooDeep := nofun
  have hlanes : ∀ i < 3, (standard .standard).concretize (.binary (.int (.udiv false))
      (.extract dividends.toSym [i]) (.extract divisors.toSym [i])) ≠ .error .tooDeep := by
    intro i hi
    match i, hi with
    | 0, _ | 1, _ | 2, _ => exact nofun
  exact ⟨h, rfl, concretize_laneWise h hnode hlanes⟩

end Machine

end SymbolicBytes
