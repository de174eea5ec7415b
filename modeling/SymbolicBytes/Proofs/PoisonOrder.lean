import SymbolicBytes.Proofs.Typing
/-!
# Values that are less defined

A value is less defined than another (`Value.LessDefined`) if it is that value with poison in the
place of some of its parts, each poison of the type of the part. What reads a value reads poison
from a less defined one, or the same: its bytes (`byteAt_lessDefined`), the part at the end of a
path (`LessDefined.extractPath`), and the value with a part replaced (`LessDefined.insertPath`).

`SymValue.LessDefined` is the same for symbolic values, with subvalues in the place of parts.
-/

namespace SymbolicBytes

/-- Whether the first value is the second with poison in the place of some of its parts, each of the
type of the part. -/
inductive Value.LessDefined : Value → Value → Prop where
  /-- poison in the place of a value of its type -/
  | poison {v : Value} {ty : Ty} (hv : v.HasTy ty) : LessDefined (.poison ty) v
  /-- a scalar that is left as it is -/
  | scalar (s : Scalar) : LessDefined (.scalar s) (.scalar s)
  /-- the result of a computation without result -/
  | void : LessDefined .void .void
  /-- an aggregate whose members are less defined -/
  | aggregate (kind : AggregateKind) {members' members : List Value}
      (hmembers : List.Forall₂ LessDefined members' members) :
      LessDefined (.aggregate kind members') (.aggregate kind members)

namespace Value

variable {v v' d element element' : Value} {t m : Ty} {path : List Nat}

theorem LessDefined.refl (v : Value) : v.LessDefined v := by
  induction v using byMembers with
  | scalar s => exact .scalar s
  | void => exact .void
  | poison ty => exact .poison (.poison ty)
  | aggregate kind members ih => exact .aggregate kind (List.forall₂_same.2 ih)

/-- Only poison is less defined than poison. -/
theorem LessDefined.poison_inv {ty : Ty} (h : v'.LessDefined (.poison ty)) : v' = .poison ty := by
  cases h with
  | poison hv => rw [hv.poison_eq]

/-- Below an aggregate there are poison and aggregates of as many members. -/
theorem LessDefined.aggregate_inv {kind : AggregateKind} {members : List Value}
    (h : v'.LessDefined (.aggregate kind members)) (hpoison : v'.isPoison = false) :
    ∃ members', v' = .aggregate kind members' ∧ List.Forall₂ LessDefined members' members := by
  cases h with
  | poison hv => cases hpoison
  | aggregate _ hmembers => exact ⟨_, rfl, hmembers⟩

/-- Below a scalar there are poison and the scalar. -/
theorem LessDefined.scalar_inv {s : Scalar} (h : v'.LessDefined (.scalar s))
    (hpoison : v'.isPoison = false) : v' = .scalar s := by
  cases h with
  | poison hv => cases hpoison
  | scalar => rfl

/-- What is not poison is below nothing that is. -/
theorem LessDefined.isPoison_eq_false (h : v'.LessDefined v) (hpoison : v'.isPoison = false) :
    v.isPoison = false := by
  cases v with
  | poison ty =>
    rw [h.poison_inv] at hpoison
    cases hpoison
  | _ => rfl

/-- Members that are computed less defined make an aggregate that is. -/
theorem exists_lessDefined_of_mapM {α : Type} {f : α → Outcome Value} {items : List α}
    {kind : AggregateKind} {members : List Value}
    (h : List.Forall₂ (fun item member => ∃ d, f item = .ok d ∧ d.LessDefined member) items
      members) :
    ∃ d, Value.aggregate kind <$> items.mapM f = .ok d ∧
      d.LessDefined (.aggregate kind members) := by
  obtain ⟨ds, hds, hle⟩ := Outcome.exists_mapM_of_forall₂ h
  exact ⟨.aggregate kind ds, by rw [hds, Outcome.map_ok], .aggregate kind hle⟩

/-! ## Parts -/

/-- A part of a less defined value is less defined. Poison has parts only as far as its type tells
them, so both values have to be of the type. -/
theorem LessDefined.extractPath (h : v'.LessDefined v) (hv : v.HasTy t) (hv' : v'.HasTy t)
    (hpath : t.memberAt? path = some m) (hd : v.extractPath path = .ok d) :
    ∃ d', v'.extractPath path = .ok d' ∧ d'.LessDefined d := by
  induction path generalizing v v' t with
  | nil =>
    rw [extractPath_nil] at hd
    obtain rfl := Except.ok.inj hd
    exact ⟨v', extractPath_nil v', h⟩
  | cons index path ih =>
    cases hpoison : v'.isPoison with
    | true =>
      -- the part of poison is poison of the type that the part has
      cases v' with
      | poison ty =>
        rw [hv'.poison_eq] at hpath hv
        have hdty := hv.extractPath hpath hd
        exact ⟨.poison m, by rw [Value.extractPath, hpath], .poison hdty⟩
      | _ => cases hpoison
    | false =>
      rcases Value.extractPath_inv hd with
        ⟨ty, part, rfl, -, -⟩ | ⟨kind, members, part, rfl, hpart, hd⟩
      · cases h.isPoison_eq_false hpoison
      · obtain ⟨members', rfl, hmembers⟩ := h.aggregate_inv hpoison
        obtain ⟨u, hu, hrest⟩ := Option.bind_eq_some_iff.1 hpath
        rw [Ty.member?_eq_memberTys] at hu
        obtain ⟨part', hpart', hle⟩ := exists_getElem?_of_forall₂ hmembers hpart
        obtain ⟨d', hd', hle⟩ := ih hle (getElem?_of_forall₂ hv.members.2 hpart hu)
          (getElem?_of_forall₂ hv'.members.2 hpart' hu) hrest hd
        exact ⟨d', by simp only [Value.extractPath, members?, hpart', hd'], hle⟩

/-- Poison that is spelled out is less defined than an aggregate of its type. -/
theorem LessDefined.spellOut (h : v'.LessDefined v) (hv : v.HasTy t) (hv' : v'.HasTy t)
    {kind : AggregateKind} {members : List Value}
    (hd : v.spellOut = .ok (.aggregate kind members)) :
    ∃ members', v'.spellOut = .ok (.aggregate kind members') ∧
      List.Forall₂ LessDefined members' members := by
  have hty := hv.spellOut hd
  obtain ⟨hkind, hmembers⟩ := hty.members
  cases hpoison : v'.isPoison with
  | true =>
    cases v' with
    | poison ty =>
      rw [hv'.poison_eq] at hkind hmembers
      exact ⟨ty.memberTys.map .poison, spellOut_poison hkind,
        List.forall₂_map_left_iff.2 (hmembers.flip.imp fun _ _ => .poison)⟩
    | _ => cases hpoison
  | false =>
    rcases Value.spellOut_inv hd with ⟨ty, k, rfl, -, -⟩ | ⟨-, rfl⟩
    · cases h.isPoison_eq_false hpoison
    · obtain ⟨members', rfl, hle⟩ := h.aggregate_inv hpoison
      exact ⟨members', rfl, hle⟩

/-- Replacing a part of a less defined value by a less defined one gives a less defined value. It
may spell out poison that the other value does not have. -/
theorem LessDefined.insertPath (h : v'.LessDefined v) (hv : v.HasTy t) (hv' : v'.HasTy t)
    (hpath : t.memberAt? path = some m) (he : element'.LessDefined element)
    (hd : v.insertPath path element = .ok d) :
    ∃ d', v'.insertPath path element' = .ok d' ∧ d'.LessDefined d := by
  induction path generalizing v v' t d with
  | nil =>
    rw [insertPath_nil] at hd
    obtain rfl := Except.ok.inj hd
    exact ⟨element', insertPath_nil v' element', he⟩
  | cons index path ih =>
    obtain ⟨u, hu, hrest⟩ := Option.bind_eq_some_iff.1 hpath
    rw [Ty.member?_eq_memberTys] at hu
    obtain ⟨kind, members, part, updated, hspell, hpart, hupdated, rfl⟩ := Value.insertPath_inv hd
    obtain ⟨members', hspell', hle⟩ := h.spellOut hv hv' hspell
    have hmembers := (hv.spellOut hspell).members.2
    have hmembers' := (hv'.spellOut hspell').members.2
    obtain ⟨part', hpart', hpartle⟩ := exists_getElem?_of_forall₂ hle hpart
    obtain ⟨updated', hupdated', hupdatedle⟩ := ih hpartle
      (getElem?_of_forall₂ hmembers hpart hu) (getElem?_of_forall₂ hmembers' hpart' hu) hrest
      hupdated
    refine ⟨.aggregate kind (members'.set index updated'), ?_, .aggregate kind ?_⟩
    · simp only [Value.insertPath, hspell', hpart', hupdated']
    · exact forall₂_set_set hle hupdatedle index

end Value

/-! ## Bytes -/

/-- Reading that turns to poison more often turns what is gathered to poison, if it changes it. A
byte that is poison hides the faults of those behind it, but there were none. -/
theorem gather_eq_none_or_eq {α β : Type} {read read' : α → Outcome (Option β)} {as : List α}
    {r : Option (List β)}
    (hread : ∀ a ∈ as, ∀ b, read a = .ok b → read' a = .ok none ∨ read' a = .ok b)
    (h : gather read as = .ok r) : gather read' as = .ok none ∨ gather read' as = .ok r := by
  induction as generalizing r with
  | nil => exact .inr h
  | cons a as ih =>
    rw [List.forall_mem_cons] at hread
    rw [gather_cons, Outcome.bind_eq_ok] at h
    obtain ⟨b, hb, h⟩ := h
    rcases hread.1 b hb with hnone | hsame
    · left
      rw [gather_cons, hnone, Outcome.ok_bind]
    · cases b with
      | none =>
        left
        rw [gather_cons, hsame, Outcome.ok_bind]
      | some b =>
        obtain ⟨rest, hrest, rfl⟩ := Outcome.map_eq_ok.1 h
        rcases ih hread.2 hrest with hnone | hrest'
        · left
          rw [gather_cons_some hsame, hnone, Outcome.map_ok, Option.map_none]
        · right
          rw [gather_cons_some hsame, hrest', Outcome.map_ok]

namespace Machine

variable {machine : Machine}

/-- A byte of members that are less defined is poison or the same. -/
theorem byteAmong_lessDefined {vs' vs : List Value}
    (h : List.Forall₂ (fun v' v => ∀ t i b, machine.byteAt v t i = .ok b →
      machine.byteAt v' t i = .ok none ∨ machine.byteAt v' t i = .ok b) vs' vs)
    {t : Ty} {position index offset : Nat} {b : Option UInt8}
    (hb : machine.byteAmong vs t position index offset = .ok b) :
    machine.byteAmong vs' t position index offset = .ok none ∨
      machine.byteAmong vs' t position index offset = .ok b := by
  induction h generalizing position offset with
  | nil => exact .inr hb
  | cons hv _ ih =>
    rw [byteAmong] at hb ⊢
    split at hb
    · cases hb
    · simp only at hb ⊢
      split at hb
      · rename_i hlt
        simp only [hlt, if_true]
        exact hv _ _ _ hb
      · rename_i hge
        simp only [hge, if_false]
        exact ih hb

/-- A byte of a less defined value is poison or the same. There is nothing between the two, unlike
where single bits can be poison. -/
theorem byteAt_lessDefined {v' v : Value} (h : v'.LessDefined v) {t : Ty} {i : Nat}
    {b : Option UInt8} (hb : machine.byteAt v t i = .ok b) :
    machine.byteAt v' t i = .ok none ∨ machine.byteAt v' t i = .ok b := by
  induction v using Value.byMembers generalizing v' t i b with
  | aggregate kind members ih =>
    cases h with
    | poison hv => exact .inl rfl
    | @aggregate _ members' _ hmembers =>
      rw [byteAt, Outcome.bind_eq_ok] at hb
      obtain ⟨_, hcheck, hb⟩ := hb
      have hcheck' : checkMembers (.aggregate kind members') members'.length t = .ok () := by
        rw [hmembers.length_eq]
        exact hcheck
      rw [byteAt, hcheck', Outcome.ok_bind]
      apply byteAmong_lessDefined (forall₂_of_mem hmembers ?_) hb
      intro v' _ v hv hle t i b hb
      exact ih v hv hle hb
  | _ =>
    cases h with
    | poison hv => exact .inl rfl
    | _ => exact .inr hb

/-- The bytes of a less defined value are poison as a whole or the same, so a bitcast reads the same
number or poison. -/
theorem bytesOf_lessDefined {v' v : Value} (h : v'.LessDefined v) {t : Ty}
    {bytes : Option (List UInt8)} (hbytes : machine.bytesOf v t = .ok bytes) :
    machine.bytesOf v' t = .ok none ∨ machine.bytesOf v' t = .ok bytes :=
  gather_eq_none_or_eq (fun _ _ _ => byteAt_lessDefined h) hbytes

end Machine

/-! ## Symbolic values -/

mutual

/-- Whether the first value is the second, which is of the type, with poison in the place of some of
its subvalues, each of the type of the subvalue. -/
inductive SymValue.LessDefined : SymValue → SymValue → Ty → Prop where
  /-- poison in the place of a value of its type -/
  | poison {v : SymValue} {ty : Ty} (hv : v.HasTy ty) : LessDefined (.poison ty) v ty
  /-- a scalar that is left as it is -/
  | scalar (s : Scalar) : LessDefined (.scalar s) (.scalar s) s.ty
  /-- an undefined value that is left as it is -/
  | undef (ty : Ty) : LessDefined (.undef ty) (.undef ty) ty
  /-- the result of a computation without result -/
  | void : LessDefined .void .void .void
  /-- an aggregate whose members are less defined -/
  | aggregate {kind : AggregateKind} {members' members : List SymValue} {ty : Ty}
      (hkind : ty.aggregateKind? = some kind)
      (hmembers : LessDefinedAll members' members ty.memberTys) :
      LessDefined (.aggregate kind members') (.aggregate kind members) ty
  /-- an operation on operands that are less defined -/
  | binary (op : BinaryOp) {left' left right' right : SymValue} {ty : Ty}
      (hleft : LessDefined left' left ty) (hright : LessDefined right' right ty) :
      LessDefined (.binary op left' right') (.binary op left right) (op.resultTy ty)
  /-- a conversion of a value that is less defined -/
  | cast (op : Cast) {value' value : SymValue} {source : Ty} (target : Ty)
      (hvalue : LessDefined value' value source) :
      LessDefined (.cast op source value' target) (.cast op source value target) target
  /-- a part of a value that is less defined -/
  | extract {whole' whole : SymValue} {path : List Nat} {ty member : Ty}
      (hwhole : LessDefined whole' whole ty) (hpath : ty.memberAt? path = some member) :
      LessDefined (.extract whole' path) (.extract whole path) member
  /-- a value that is less defined with a part replaced by one that is -/
  | insert {whole' whole element' element : SymValue} {path : List Nat} {ty member : Ty}
      (hwhole : LessDefined whole' whole ty) (hpath : ty.memberAt? path = some member)
      (helement : LessDefined element' element member) :
      LessDefined (.insert whole' element' path) (.insert whole element path) ty

/-- Whether the values of the first list are those of the second, of the listed types, with poison
in the place of some of their subvalues. -/
inductive SymValue.LessDefinedAll : List SymValue → List SymValue → List Ty → Prop where
  /-- no values -/
  | nil : LessDefinedAll [] [] []
  /-- one value more -/
  | cons {v' v : SymValue} {t : Ty} {vs' vs : List SymValue} {ts : List Ty}
      (hv : LessDefined v' v t) (hvs : LessDefinedAll vs' vs ts) :
      LessDefinedAll (v' :: vs') (v :: vs) (t :: ts)

end

mutual

/-- Both values have the type. It is part of the relation, as it says of what type the poison is
that takes the place of a subvalue. -/
theorem SymValue.LessDefined.hasTy {v' v : SymValue} {t : Ty} :
    v'.LessDefined v t → v'.HasTy t ∧ v.HasTy t
  | .poison hv => ⟨.poison _, hv⟩
  | .scalar s => ⟨.scalar s, .scalar s⟩
  | .undef ty => ⟨.undef ty, .undef ty⟩
  | .void => ⟨.void, .void⟩
  | .aggregate hkind hmembers =>
    ⟨.aggregate hkind hmembers.hasTy.1, .aggregate hkind hmembers.hasTy.2⟩
  | .binary op hleft hright =>
    ⟨.binary op hleft.hasTy.1 hright.hasTy.1, .binary op hleft.hasTy.2 hright.hasTy.2⟩
  | .cast op target hvalue => ⟨.cast op target hvalue.hasTy.1, .cast op target hvalue.hasTy.2⟩
  | .extract hwhole hpath => ⟨.extract hwhole.hasTy.1 hpath, .extract hwhole.hasTy.2 hpath⟩
  | .insert hwhole hpath helement =>
    ⟨.insert hwhole.hasTy.1 hpath helement.hasTy.1, .insert hwhole.hasTy.2 hpath helement.hasTy.2⟩

theorem SymValue.LessDefinedAll.hasTy {vs' vs : List SymValue} {ts : List Ty} :
    SymValue.LessDefinedAll vs' vs ts →
      List.Forall₂ SymValue.HasTy vs' ts ∧ List.Forall₂ SymValue.HasTy vs ts
  | .nil => ⟨.nil, .nil⟩
  | .cons hv hvs => ⟨.cons hv.hasTy.1 hvs.hasTy.1, .cons hv.hasTy.2 hvs.hasTy.2⟩

end

end SymbolicBytes
