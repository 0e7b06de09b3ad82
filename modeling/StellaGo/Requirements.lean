import StellaGo.Check

/-! What a generated file needs besides its functions: the package that prints, and a generated type
for each number of fields that a tuple of the program has. A written type is noted when it is read. -/

namespace StellaGo

/-- A number put into an ascending list that may hold it already. -/
def insertAscending (n : Nat) : List Nat → List Nat
  | [] => [n]
  | m :: rest =>
    if n < m then n :: m :: rest else if n = m then m :: rest else m :: insertAscending n rest

structure Requirements where
  usesFmt : Bool
  /-- Ascending, each number once. -/
  arities : List Nat
  deriving DecidableEq, Repr

namespace Requirements

def empty : Requirements := ⟨false, []⟩

def addFmt (r : Requirements) : Requirements := { r with usesFmt := true }

def addTuple (r : Requirements) (arity : Nat) : Requirements :=
  { r with arities := insertAscending arity r.arities }

/-- A tuple type needs the generated type of its number of fields. -/
def addType (r : Requirements) : ValueType → Requirements
  | .tuple type => r.addTuple type.arity
  | _ => r

/-- Reads a written type and notes what it needs. A text that spells no type changes nothing. -/
def readType (r : Requirements) (t : Text) : Check ValueType × Requirements :=
  match ValueType.read? t.trim with
  | some type => (.ok type, r.addType type)
  | none => (.error (.notType t.trim), r)

def imports (r : Requirements) : List String := if r.usesFmt then ["fmt"] else []

end Requirements

end StellaGo
