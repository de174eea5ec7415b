/-!
# Partition into classes

Items are grouped under a relation in the order in which they come. An item joins the class of the
first seed that it is related to, and where there is none it seeds a class of its own. Nothing is
asked of the relation; where it is an equivalence the classes are its classes.
-/

namespace SymbolicBytes

/-- A class of items, each with its position. -/
structure ItemClass (α : Type) where
  /-- the item that the others were compared with -/
  seed : α × Nat
  /-- the other items, in the order of their positions -/
  others : List (α × Nat)

namespace ItemClass

variable {α : Type}

/-- All items of the class. -/
def items (c : ItemClass α) : List (α × Nat) := c.seed :: c.others

/-- The positions of all items of the class. -/
def positions (c : ItemClass α) : List Nat := c.items.map (·.2)

/-- The classes with one more item. -/
def place (same : α → α → Bool) : List (ItemClass α) → α × Nat → List (ItemClass α)
  | [], item => [⟨item, []⟩]
  | c :: cs, item =>
    if same c.seed.1 item.1 then { c with others := c.others ++ [item] } :: cs
    else c :: place same cs item

end ItemClass

/-- The classes of a list of items, in the order of their seeds. -/
def itemClasses {α : Type} (same : α → α → Bool) (items : List α) : List (ItemClass α) :=
  items.zipIdx.foldl (ItemClass.place same) []

/-- The positions of the items of each class, in the order of their seeds. -/
def classes {α : Type} (same : α → α → Bool) (items : List α) : List (List Nat) :=
  (itemClasses same items).map ItemClass.positions

end SymbolicBytes
