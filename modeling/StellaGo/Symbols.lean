import StellaGo.Check

/-! The names that are declared at a point of a program. Defined here: what is known of a declared
name, and the four tables of variables, arrays, tuples and functions, in which a name is declared at
most once. -/

namespace StellaGo

/-- A variable, an array or a tuple, by its type. -/
structure Binding (τ : Type) where
  name : Name
  type : τ
  isMutable : Bool
  deriving DecidableEq, Repr

structure Parameter where
  name : Name
  type : ValueType
  deriving DecidableEq, Repr

structure Signature where
  name : Name
  parameters : List Parameter
  returns : ValueType
  deriving DecidableEq, Repr

/-- What is known of a declared name. -/
inductive Descriptor where
  | scalar (scalar : Binding Primitive)
  | array (array : Binding ArrayType)
  | tuple (tuple : Binding TupleType)
  | function (signature : Signature)
  deriving DecidableEq, Repr

namespace Descriptor

def name : Descriptor → Name
  | scalar b => b.name
  | array b => b.name
  | tuple b => b.name
  | function s => s.name

def kind : Descriptor → Name.Kind
  | scalar _ => .scalar
  | array _ => .array
  | tuple _ => .tuple
  | function _ => .function

/-- The descriptor of a name of the given type. -/
def ofType (name : Name) (isMutable : Bool) : ValueType → Descriptor
  | .primitive type => scalar ⟨name, type, isMutable⟩
  | .array type => array ⟨name, type, isMutable⟩
  | .tuple type => tuple ⟨name, type, isMutable⟩

end Descriptor

/-- A parameter is known in the body as a name that is never assigned to. -/
def Parameter.descriptor (p : Parameter) : Descriptor := .ofType p.name false p.type

/-- Entries by name, the last one first. -/
abbrev Table (α : Type) := List (Name × α)

structure Symbols where
  scalars : Table (Binding Primitive)
  arrays : Table (Binding ArrayType)
  tuples : Table (Binding TupleType)
  functions : Table Signature
  deriving DecidableEq, Repr

namespace Symbols

def empty : Symbols := ⟨[], [], [], []⟩

def array? (s : Symbols) (name : Name) : Option (Binding ArrayType) := s.arrays.lookup name

def function? (s : Symbols) (name : Name) : Option Signature := s.functions.lookup name

def lookup? (s : Symbols) (name : Name) : Option Descriptor :=
  (s.scalars.lookup name).map .scalar <|> (s.arrays.lookup name).map .array <|>
    (s.tuples.lookup name).map .tuple <|> (s.functions.lookup name).map .function

def resolve (s : Symbols) (name : Name) : Check Descriptor :=
  match s.lookup? name with
  | some d => .ok d
  | none => .error (.unknown name)

def ensureFree (s : Symbols) (name : Name) : Check Unit :=
  match s.lookup? name with
  | some d => .error (.taken name d.kind)
  | none => .ok ()

/-- The tables with one more entry, in the table that the descriptor is for. -/
def insert (s : Symbols) : Descriptor → Symbols
  | .scalar b => { s with scalars := (b.name, b) :: s.scalars }
  | .array b => { s with arrays := (b.name, b) :: s.arrays }
  | .tuple b => { s with tuples := (b.name, b) :: s.tuples }
  | .function f => { s with functions := (f.name, f) :: s.functions }

def declare (s : Symbols) (d : Descriptor) : Check Symbols := do
  s.ensureFree d.name
  return s.insert d

end Symbols

end StellaGo
