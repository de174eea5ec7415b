import SymbolicBytes.Proofs.Renumbering
import SymbolicBytes.Proofs.Shapes
/-!
# The ids that a supply hands out

A supply of store ids is asked for single ids, to store values and to tag bytes anew, in any order.
Whatever it is asked, the ids are taken from it one after the other (`StoreIds.Issues`), so that
over a whole run they are consecutive numbers below the one that is never handed out
(`IdRequest.issuedInOrder`).

What one request does to the supply is `StoreIds.Spends`: granted it takes as many ids as it costs,
refused it takes none, and where the ids run out it has taken all that there were.
-/

namespace SymbolicBytes

namespace StoreIds

/-! ## One id after the other -/

/-- A supply refuses an id only at its end, and stays there. -/
theorem fresh_eq_error {ids ids' : StoreIds} {fault : Fault}
    (h : ids.fresh = (.error fault, ids')) :
    ids' = ids ∧ ids.next = last ∧ fault = .idsExhausted last := by
  rw [fresh] at h
  split at h
  · cases h
  · rename_i hlast
    have hnext : ids.next = last := Nat.le_antisymm ids.next_le (Nat.le_of_not_lt hlast)
    cases h
    exact ⟨rfl, hnext, congrArg Fault.idsExhausted hnext⟩

/-- The end of a supply is never handed out, and asking for it changes nothing. -/
theorem fresh_eq_error_of_last {ids : StoreIds} (h : ids.next = last) :
    ids.fresh = (.error (.idsExhausted last), ids) := by
  rw [fresh, dif_neg (Nat.not_lt_of_ge (Nat.le_of_eq h.symm)), h]

/-- Whether these ids were taken from the first supply one after the other, which left the
second. -/
inductive Issues : StoreIds → List Nat → StoreIds → Prop where
  /-- nothing was taken -/
  | nil (ids : StoreIds) : Issues ids [] ids
  /-- an id was taken, and then the others -/
  | cons {ids rest ids' : StoreIds} {id : Nat} {issued : List Nat}
      (hid : ids.fresh = (.ok id, rest)) (hrest : Issues rest issued ids') :
      Issues ids (id :: issued) ids'

namespace Issues

variable {ids rest ids' : StoreIds} {issued later : List Nat}

/-- What is taken from the supply that was left continues what was taken before. -/
theorem append (h : Issues ids issued rest) (hlater : Issues rest later ids') :
    Issues ids (issued ++ later) ids' := by
  induction h with
  | nil => exact hlater
  | cons hid _ ih => exact .cons hid (ih hlater)

/-- Ids that are taken one after the other are consecutive, so it is enough to know how many there
were. -/
theorem eq_range' (h : Issues ids issued ids') :
    issued = List.range' ids.next issued.length ∧ ids'.next = ids.next + issued.length := by
  induction h with
  | nil => exact ⟨rfl, rfl⟩
  | cons hid _ ih =>
    obtain ⟨rfl, hnext⟩ := fresh_eq_ok hid
    obtain ⟨hissued, hrest⟩ := ih
    rw [hnext] at hissued hrest
    refine ⟨?_, ?_⟩
    · rw [List.length_cons, List.range'_succ, ← hissued]
    · rw [hrest, List.length_cons]
      omega

/-- Exactly the ids between the two supplies were taken. -/
theorem mem_iff (h : Issues ids issued ids') {id : Nat} :
    id ∈ issued ↔ ids.next ≤ id ∧ id < ids'.next := by
  obtain ⟨hissued, hnext⟩ := h.eq_range'
  rw [hissued, List.mem_range'_1, hnext]

/-- Nothing is taken from a supply at its end. -/
theorem eq_nil_of_last (h : Issues ids issued ids') (hlast : ids.next = last) :
    issued = [] ∧ ids' = ids := by
  cases h with
  | nil => exact ⟨rfl, rfl⟩
  | cons hid _ => cases (fresh_eq_error_of_last hlast).symm.trans hid

end Issues

/-! ## One request -/

/-- Whether these ids are what a request took from a supply that costs so many. The result is the
answer, as the ids that are in it, with the supply that is left. -/
structure Spends (cost : Nat) (ids : StoreIds) (result : Outcome (List Nat) × StoreIds)
    (issued : List Nat) : Prop where
  /-- the ids were taken one after the other -/
  issues : ids.Issues issued result.2
  /-- an answer took as many ids as the request costs, and has no others in it -/
  granted : ∀ answer, result.1 = .ok answer → issued.length = cost ∧ answer ⊆ issued
  /-- a refusal left the supply as it was -/
  refused : ∀ fault, result.1 = .error fault → fault.kind ≠ .exhausted → result.2 = ids
  /-- a request that the ids did not last for took all that there were -/
  exhausted : ∀ fault, result.1 = .error fault → fault.kind = .exhausted →
    result.2.next = last ∧ issued.length < cost

section Spends

variable {cost : Nat} {ids : StoreIds}

theorem spends_of_refused {fault : Fault} (h : fault.kind ≠ .exhausted) :
    Spends cost ids (.error fault, ids) [] where
  issues := .nil ids
  granted _ heq := by cases heq
  refused _ _ _ := rfl
  exhausted other heq hkind := by
    obtain rfl := Except.error.inj heq
    exact absurd hkind h

theorem spends_of_exhausted {fault : Fault} {rest : StoreIds} {issued : List Nat}
    (hissues : ids.Issues issued rest) (hkind : fault.kind = .exhausted) (hlast : rest.next = last)
    (hcost : issued.length < cost) : Spends cost ids (.error fault, rest) issued where
  issues := hissues
  granted _ heq := by cases heq
  refused other heq hother := by
    obtain rfl := Except.error.inj heq
    exact absurd hkind hother
  exhausted _ _ _ := ⟨hlast, hcost⟩

theorem spends_of_granted {answer issued : List Nat} {rest : StoreIds}
    (hissues : ids.Issues issued rest) (hcost : issued.length = cost) (hanswer : answer ⊆ issued) :
    Spends cost ids (.ok answer, rest) issued where
  issues := hissues
  granted other heq := by
    obtain rfl := Except.ok.inj heq
    exact ⟨hcost, hanswer⟩
  refused _ heq := by cases heq
  exhausted _ heq := by cases heq

/-- A request that needs ids is not granted any from a supply at its end, and no request gets
further than the end. -/
theorem Spends.of_last {result : Outcome (List Nat) × StoreIds} {issued : List Nat}
    (h : Spends cost ids result issued) (hlast : ids.next = last) :
    result.2 = ids ∧ (0 < cost → ∃ fault, result.1 = .error fault) := by
  obtain ⟨rfl, hids⟩ := h.issues.eq_nil_of_last hlast
  refine ⟨hids, ?_⟩
  intro hcost
  cases hresult : result.1 with
  | ok answer =>
    obtain ⟨hlen, -⟩ := h.granted answer hresult
    exact absurd hlen (Nat.ne_of_lt hcost)
  | error fault => exact ⟨fault, rfl⟩

end Spends

/-- Taking several ids fails only if they run out. -/
theorem take_eq_error {count : Nat} {ids ids' : StoreIds} {fault : Fault}
    (h : take count ids = (.error fault, ids')) : fault = .idsExhausted last := by
  induction count generalizing ids with
  | zero => cases h
  | succ count ih =>
    simp only [take] at h
    split at h
    · rename_i hfresh
      cases h
      exact (fresh_eq_error hfresh).2.2
    · split at h
      · rename_i hrest
        cases h
        exact ih hrest
      · cases h

/-- Taking several ids spends as many, or all that there are if these are too few. The ids that were
taken before the end are not given back. -/
theorem exists_spends_take (count : Nat) (ids : StoreIds) :
    ∃ issued, Spends count ids (take count ids) issued := by
  induction count generalizing ids with
  | zero => exact ⟨[], spends_of_granted (.nil ids) rfl (List.Subset.refl _)⟩
  | succ count ih =>
    rcases hfresh : ids.fresh with ⟨fault | id, rest⟩
    · obtain ⟨rfl, hlast, rfl⟩ := fresh_eq_error hfresh
      refine ⟨[], ?_⟩
      rw [take, hfresh]
      exact spends_of_exhausted (.nil _) rfl hlast (Nat.succ_pos count)
    · obtain ⟨issued, hrest⟩ := ih rest
      have hissues : ids.Issues (id :: issued) (take count rest).2 := .cons hfresh hrest.issues
      refine ⟨id :: issued, ?_⟩
      rcases htake : take count rest with ⟨fault | more, ids'⟩
      · -- the ids run out after this one
        rw [htake] at hrest hissues
        obtain rfl := take_eq_error htake
        obtain ⟨hlast, hlen⟩ := hrest.exhausted _ rfl rfl
        simp only [take, hfresh, htake]
        exact spends_of_exhausted hissues rfl hlast (Nat.succ_lt_succ hlen)
      · rw [htake] at hrest hissues
        obtain ⟨hlen, hmore⟩ := hrest.granted more rfl
        simp only [take, hfresh, htake]
        exact spends_of_granted hissues (congrArg (· + 1) hlen) (List.cons_subset_cons id hmore)

end StoreIds

/-! ## Requests -/

theorem Ty.kind_ne_of_checkSupported_eq_error {t : Ty} {fault : Fault}
    (h : t.checkSupported = .error fault) : fault.kind ≠ .exhausted := by
  unfold checkSupported at h
  split at h
  · cases h
  · cases h
    intro hkind
    cases hkind

/-- What a supply of ids is asked for. -/
inductive IdRequest where
  /-- an id -/
  | fresh
  /-- the ids of a store -/
  | encode (machine : Machine) (v : SymValue) (ty : Ty)
  /-- the ids of bytes that are tagged anew -/
  | retag (bytes : List SymByte)

namespace IdRequest

/-- The ids in the answer to a request, and the supply that is left. -/
def serve (ids : StoreIds) : IdRequest → Outcome (List Nat) × StoreIds
  | fresh => (([·]) <$> ids.fresh.1, ids.fresh.2)
  | encode machine v ty =>
    (List.map SymByte.storeId <$> (machine.encode v ty ids).1, (machine.encode v ty ids).2)
  | retag bytes =>
    (List.map SymByte.storeId <$> (SymbolicBytes.retag bytes ids).1,
      (SymbolicBytes.retag bytes ids).2)

/-- How many ids a request takes: one, but none to store nothing, and as many as there are among
bytes that are tagged anew or stored again. -/
def cost : IdRequest → Nat
  | fresh => 1
  | encode _ .void _ => 0
  | encode _ (.concat loaded _) _ => (distinctIds loaded).length
  | encode _ _ _ => 1
  | retag bytes => (distinctIds bytes).length

/-- Whether these ids are what the request took from a supply. -/
abbrev Served (ids : StoreIds) (request : IdRequest) (issued : List Nat) : Prop :=
  ids.Spends request.cost (request.serve ids) issued

theorem exists_served_fresh (ids : StoreIds) : ∃ issued, Served ids fresh issued := by
  rcases hfresh : ids.fresh with ⟨fault | id, rest⟩
  · obtain ⟨rfl, hlast, rfl⟩ := StoreIds.fresh_eq_error hfresh
    refine ⟨[], ?_⟩
    rw [Served, serve, hfresh]
    exact StoreIds.spends_of_exhausted (.nil _) rfl hlast Nat.one_pos
  · refine ⟨[id], ?_⟩
    rw [Served, serve, hfresh]
    exact StoreIds.spends_of_granted (.cons hfresh (.nil rest)) rfl (List.Subset.refl _)

theorem exists_served_retag (ids : StoreIds) (bytes : List SymByte) :
    ∃ issued, Served ids (retag bytes) issued := by
  obtain ⟨issued, htake⟩ :=
    StoreIds.exists_spends_take (classes SymByte.sameStore bytes).length ids
  refine ⟨issued, ?_⟩
  rw [Served, cost, ← length_classes_sameStore, serve, SymbolicBytes.retag]
  rcases hresult : ids.take (classes SymByte.sameStore bytes).length with ⟨fault | taken, rest⟩
  · rw [hresult] at htake
    obtain rfl := StoreIds.take_eq_error hresult
    obtain ⟨hlast, hlen⟩ := htake.exhausted _ rfl rfl
    exact StoreIds.spends_of_exhausted htake.issues rfl hlast hlen
  · rw [hresult] at htake
    obtain ⟨hlen, -⟩ := htake.granted taken rfl
    obtain ⟨rfl, hnext⟩ := StoreIds.take_eq_ok hresult
    simp only [relabel_eq]
    refine StoreIds.spends_of_granted htake.issues hlen ?_
    -- every id has a number below that of the classes
    rintro id hid
    obtain ⟨b', hb', rfl⟩ := List.mem_map.1 hid
    obtain ⟨b, hb, rfl⟩ := List.mem_map.1 hb'
    exact htake.issues.mem_iff.2
      ⟨Nat.le_add_right .., hnext ▸ Nat.add_lt_add_left (idNumber_lt hb) _⟩

theorem cost_encode_of_plain {machine : Machine} {v : SymValue} {ty : Ty} (hvoid : v ≠ .void)
    (hplain : ∀ loaded u, v ≠ .concat loaded u) : (encode machine v ty).cost = 1 := by
  cases v with
  | void => exact absurd rfl hvoid
  | concat loaded u => exact absurd rfl (hplain loaded u)
  | _ => rfl

/-- Bytes have the ids that they had when they are arranged for memory. -/
theorem spends_arrange {cost : Nat} {ids rest : StoreIds} {issued : List Nat} (target : Target)
    {bytes : Outcome (List SymByte)}
    (h : ids.Spends cost (List.map SymByte.storeId <$> bytes, rest) issued) :
    ids.Spends cost (List.map SymByte.storeId <$> (target.arrange <$> bytes), rest) issued := by
  cases bytes with
  | error fault => exact h
  | ok bytes =>
    obtain ⟨hcost, hsubset⟩ := h.granted _ rfl
    refine StoreIds.spends_of_granted h.issues hcost ?_
    intro id hid
    obtain ⟨b, hb, rfl⟩ := List.mem_map.1 hid
    exact hsubset (List.mem_map_of_mem (Target.mem_arrange.1 hb))

theorem spends_run {ids rest : StoreIds} {id : Nat} (hfresh : ids.fresh = (.ok id, rest))
    (target : Target) (v : SymValue) (ref : ParentRef) (ty : Ty) (size : Nat) :
    ids.Spends 1 (.ok ((target.arrange (SymByte.run v ref ty id size)).map SymByte.storeId), rest)
      [id] := by
  refine StoreIds.spends_of_granted (.cons hfresh (.nil rest)) rfl ?_
  intro other hother
  obtain ⟨b, hb, rfl⟩ := List.mem_map.1 hother
  obtain ⟨i, -, rfl⟩ := List.mem_map.1 (Target.mem_arrange.1 hb)
  exact List.mem_singleton_self id

/-- Storing a value spends one id, or as many as there are among loaded bytes, or none if it is
refused. -/
theorem exists_served_encode (ids : StoreIds) (machine : Machine) (v : SymValue) (ty : Ty) :
    ∃ issued, Served ids (encode machine v ty) issued := by
  simp only [Served, serve]
  generalize hresult : machine.encode v ty ids = result
  unfold Machine.encode at hresult
  simp only at hresult
  split at hresult
  · rename_i fault hcheck
    subst hresult
    exact ⟨[], StoreIds.spends_of_refused (Ty.kind_ne_of_checkSupported_eq_error hcheck)⟩
  · split at hresult
    · -- the value without bytes
      subst hresult
      split
      · exact ⟨[], StoreIds.spends_of_granted (.nil ids) rfl (List.Subset.refl _)⟩
      · exact ⟨[], StoreIds.spends_of_refused nofun⟩
    · -- loaded bytes are tagged anew
      rename_i loaded _
      split at hresult
      · subst hresult
        exact ⟨[], StoreIds.spends_of_refused nofun⟩
      · subst hresult
        obtain ⟨issued, hserved⟩ := exists_served_retag ids loaded
        exact ⟨issued, spends_arrange machine.target hserved⟩
    · subst hresult
      exact ⟨[], StoreIds.spends_of_refused nofun⟩
    · -- any other value takes one id
      rename_i hvoid hconcat hbyte
      rw [cost_encode_of_plain hvoid hconcat]
      split at hresult
      · rename_i fault hshape
        subst hresult
        refine ⟨[], StoreIds.spends_of_refused ?_⟩
        rw [SymValue.kind_of_shapeWithin_eq_error hshape]
        exact nofun
      · split at hresult
        · rename_i fault rest hfresh
          obtain ⟨rfl, hlast, rfl⟩ := StoreIds.fresh_eq_error hfresh
          subst hresult
          exact ⟨[], StoreIds.spends_of_exhausted (.nil _) rfl hlast Nat.one_pos⟩
        · rename_i id rest hfresh
          subst hresult
          exact ⟨[id], spends_run hfresh machine.target v _ ty _⟩

/-- Every request is served in one of the three ways, each kind by its own account. -/
theorem exists_served (ids : StoreIds) (request : IdRequest) :
    ∃ issued, Served ids request issued := by
  cases request with
  | fresh => exact exists_served_fresh ids
  | encode machine v ty => exact exists_served_encode ids machine v ty
  | retag bytes => exact exists_served_retag ids bytes

/-! ## Runs -/

/-- Whether these ids are what requests that are made one after the other took from the first
supply, each for itself, which left the second. -/
inductive ServedAll : StoreIds → List IdRequest → List (List Nat) → StoreIds → Prop where
  /-- nothing was asked -/
  | nil (ids : StoreIds) : ServedAll ids [] [] ids
  /-- a request was served, and then the others -/
  | cons {ids ids' : StoreIds} {request : IdRequest} {requests : List IdRequest} {issued : List Nat}
      {rest : List (List Nat)} (hserved : Served ids request issued)
      (hrest : ServedAll (request.serve ids).2 requests rest ids') :
      ServedAll ids (request :: requests) (issued :: rest) ids'

/-- So is every list of requests, each from the supply that the one before left. -/
theorem exists_servedAll (ids : StoreIds) (requests : List IdRequest) :
    ∃ issued ids', ServedAll ids requests issued ids' := by
  induction requests generalizing ids with
  | nil => exact ⟨[], ids, .nil ids⟩
  | cons request requests ih =>
    obtain ⟨issued, hserved⟩ := exists_served ids request
    obtain ⟨rest, ids', hrest⟩ := ih (request.serve ids).2
    exact ⟨issued :: rest, ids', .cons hserved hrest⟩

/-- Over a run, too, ids are taken one after the other. Those that were taken for a request that
then ran out are among them. -/
theorem ServedAll.issues {ids ids' : StoreIds} {requests : List IdRequest}
    {issued : List (List Nat)} (h : ServedAll ids requests issued ids') :
    ids.Issues issued.flatten ids' := by
  induction h with
  | nil ids => exact .nil ids
  | cons hserved _ ih => exact hserved.issues.append ih

/-- What holds of the ids that a run of requests took from a supply, and of the supply that it
left. -/
structure IssuedInOrder (ids : StoreIds) (requests : List IdRequest) (issued : List (List Nat))
    (ids' : StoreIds) : Prop where
  /-- each request took what it costs, or nothing, or all that there were -/
  served : ServedAll ids requests issued ids'
  /-- no id was left out and none was taken again -/
  consecutive : issued.flatten = List.range' ids.next issued.flatten.length
  /-- later ids are larger -/
  ascending : issued.flatten.Pairwise (· < ·)
  /-- neither zero nor the largest number of 32 bits is handed out -/
  inRange : ∀ id ∈ issued.flatten, 1 ≤ id ∧ id ≤ 2 ^ 32 - 2
  /-- a supply of the ids above some id hands out no other -/
  unused : ∀ used, ids = .above used → ∀ id ∈ issued.flatten, used < id
  /-- the supply goes on after the last id that was taken -/
  left : ids'.next = ids.next + issued.flatten.length
  /-- at its end the supply refuses whatever takes an id, and stays as it is -/
  spent : ids'.next = StoreIds.last → ∀ request : IdRequest,
    (request.serve ids').2 = ids' ∧
      (0 < request.cost → ∃ fault, (request.serve ids').1 = .error fault)

/-- Whatever is asked of a supply, in any order, its ids are handed out one after the other and
never again. Two stores from one supply are thus never under one id, which is what bytes are told
apart by. -/
theorem issuedInOrder (ids : StoreIds) (requests : List IdRequest) :
    ∃ issued ids', IssuedInOrder ids requests issued ids' := by
  obtain ⟨issued, ids', hserved⟩ := exists_servedAll ids requests
  obtain ⟨hissued, hnext⟩ := hserved.issues.eq_range'
  refine ⟨issued, ids', hserved, hissued, ?_, ?_, ?_, hnext, ?_⟩
  · rw [hissued]
    exact List.pairwise_lt_range'
  · intro id hid
    obtain ⟨hlow, hhigh⟩ := hserved.issues.mem_iff.1 hid
    have hpos := ids.next_pos
    have hlast := ids'.next_le
    rw [UInt32.size] at hlast
    omega
  · rintro used rfl id hid
    obtain ⟨hlow, hhigh⟩ := hserved.issues.mem_iff.1 hid
    -- the supply starts at the id after the used one, unless there is none
    have hlast := ids'.next_le
    simp only [StoreIds.above, StoreIds.last] at hlow
    omega
  · intro hlast request
    obtain ⟨_, hserved⟩ := exists_served ids' request
    exact hserved.of_last hlast

/-- One id is left for bytes of two stores, and it is gone when the ids run out. -/
example :
    (retag (SymByte.run .void (.given 0) (.int 16) 7 2 ++ SymByte.run .void (.given 1) (.int 8) 8 1)
      |>.serve (.above (StoreIds.last - 2))).2.next = StoreIds.last := by rfl

end IdRequest

end SymbolicBytes
