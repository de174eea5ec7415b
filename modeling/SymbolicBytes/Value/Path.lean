import SymbolicBytes.Fault
/-!
# Parts of values

Reading and replacing the part of a value at the end of a path of member positions. Poison of an
aggregate type has parts as well: reading one gives poison of the part's type, and replacing one
first spells the poison out member by member.
-/

namespace SymbolicBytes.Value

/-- The part at the end of a path. -/
def extractPath : Value → List Nat → Outcome Value
  | v, [] => .ok v
  | .poison ty, index :: path =>
    match ty.memberAt? (index :: path) with
    | some part => .ok (.poison part)
    | none => .error (.noMemberAt (index :: path) ty)
  | v, index :: path =>
    match v.members? with
    | none => .error (.extractFromScalar index v)
    | some members =>
      match members[index]? with
      | none => .error (.extractPastEnd index v)
      | some part => extractPath part path

@[simp] theorem extractPath_nil (v : Value) : v.extractPath [] = .ok v := by
  cases v <;> rfl

/-- Poison of an aggregate type spelled out as an aggregate of poison members. Other values stay as
they are. -/
def spellOut : Value → Outcome Value
  | .poison (.sequence kind count element) =>
    .ok (.aggregate (.sequence kind) (List.replicate count (.poison element)))
  | .poison (.record kind fields) => .ok (.aggregate (.record kind) (fields.map .poison))
  | .poison ty => .error (.insertIntoPoison ty)
  | v => .ok v

/-- The value with the part at the end of a path replaced. -/
def insertPath : Value → List Nat → Value → Outcome Value
  | _, [], element => .ok element
  | v, index :: path, element =>
    match v.spellOut with
    | .error fault => .error fault
    | .ok (.aggregate kind members) =>
      match members[index]? with
      | none => .error (.insertPastEnd index (.aggregate kind members))
      | some part =>
        match insertPath part path element with
        | .error fault => .error fault
        | .ok updated => .ok (.aggregate kind (members.set index updated))
    | .ok other => .error (.insertIntoScalar index other)

@[simp] theorem insertPath_nil (v element : Value) : v.insertPath [] element = .ok element := by
  cases v <;> rfl

end SymbolicBytes.Value
