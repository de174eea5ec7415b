import SymbolicBytes.Memory
/-!
# Sessions

A session is a memory that is worked on step by step, with names for the values that were loaded or
given. `Session.step` runs one step and answers it. A step that fails is answered by its fault, and
the session goes on.
-/

namespace SymbolicBytes

/-- One step of a session. -/
inductive Step where
  /-- gives a name to a value -/
  | name (name : String) (v : SymValue)
  /-- stores a value at a type -/
  | store (start : Nat) (v : SymValue) (ty : Ty)
  /-- loads a value of a type, and gives it a name -/
  | load (start count : Nat) (ty : Ty) (name : Option String)
  /-- loads a value of a type and decides it -/
  | read (start count : Nat) (ty : Ty)
  /-- decides a value -/
  | concretize (v : SymValue)
  /-- copies bytes as they are -/
  | copy (start count dest : Nat)
  /-- tags bytes anew -/
  | retag (start count : Nat)
  /-- exchanges two bytes -/
  | swap (a b : Nat)
  /-- takes a store id -/
  | fresh
  /-- compares two bytes -/
  | compare (a b : Nat)
  /-- groups the bytes by entanglement -/
  | classes
  /-- compares two values -/
  | equal (v w : SymValue)

/-- The answer to a step. -/
inductive Reply where
  /-- the step has no answer -/
  | done
  /-- all bytes of the memory -/
  | bytes (bytes : List SymByte)
  /-- a loaded value -/
  | loaded (v : SymValue)
  /-- a decided value -/
  | decided (v : Value)
  /-- a store id -/
  | id (id : Nat)
  /-- whether two bytes are entangled and whether they are equal -/
  | compared (entangled equal : Bool)
  /-- positions by classes -/
  | classes (classes : List (List Nat))
  /-- a truth value -/
  | truth (b : Bool)

/-- A memory with names for values. -/
structure Session where
  /-- the memory -/
  memory : Memory
  /-- the named values, the latest first -/
  names : List (String × SymValue)

namespace Session

/-- The session on the empty memory. -/
def start (ids : StoreIds) : Session := ⟨.empty ids, []⟩

/-- The value of a name. -/
def find? (s : Session) (name : String) : Option SymValue := s.names.lookup name

/-- The session in which a value has a name. -/
def bind (s : Session) (name : String) (v : SymValue) : Session :=
  { s with names := (name, v) :: s.names }

/-- The session after an operation on the memory, answered with all bytes. -/
def onBytes (s : Session) : Outcome Unit × Memory → Outcome Reply × Session
  | (.ok (), m) => (.ok (.bytes m.bytes), { s with memory := m })
  | (.error fault, m) => (.error fault, { s with memory := m })

/-- One step: its answer, and the session after it. -/
def step (machine : Machine) (s : Session) : Step → Outcome Reply × Session
  | .name name v => (.ok .done, s.bind name v)
  | .store start v ty => s.onBytes (s.memory.store machine start v ty)
  | .load start count ty name =>
    match s.memory.load machine start count ty, name with
    | .error fault, _ => (.error fault, s)
    | .ok v, none => (.ok (.loaded v), s)
    | .ok v, some name => (.ok (.loaded v), s.bind name v)
  | .read start count ty =>
    (.decided <$> (s.memory.load machine start count ty >>= machine.concretize), s)
  | .concretize v => (.decided <$> machine.concretize v, s)
  | .copy start count dest => s.onBytes (.ok (), s.memory.copy start count dest)
  | .retag start count => s.onBytes (s.memory.retag start count)
  | .swap a b => s.onBytes (.ok (), s.memory.swap a b)
  | .fresh =>
    let (id, m) := s.memory.fresh
    (.id <$> id, { s with memory := m })
  | .compare a b =>
    let x := s.memory.bytes.getD a default
    let y := s.memory.bytes.getD b default
    (.ok (.compared (x.entangled y) (x.equal y)), s)
  | .classes => (.ok (.classes (SymbolicBytes.classes SymByte.entangled s.memory.bytes)), s)
  | .equal v w => (.ok (.truth (v.equal w)), s)

/-- The session after a list of steps, whatever their answers. -/
def run (machine : Machine) (s : Session) (steps : List Step) : Session :=
  steps.foldl (fun s step => (s.step machine step).2) s

end Session

end SymbolicBytes
