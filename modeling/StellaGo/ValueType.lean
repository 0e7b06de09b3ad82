import StellaGo.Text.Decimal

/-! Types as they are written: a primitive, an array of a primitive with fixed dimensions, or a tuple
of primitives. Defined here: the types, their spelling in source and in generated Go, and how a
written type is read. -/

namespace StellaGo

inductive Primitive where
  | int | float | bool | byte | string
  /-- The return type of `main`, and of nothing else. -/
  | io
  deriving DecidableEq, Repr

namespace Primitive

def keyword : Primitive → String
  | int => "int"
  | float => "float"
  | bool => "bool"
  | byte => "byte"
  | string => "string"
  | io => "IO"

def ofKeyword? (t : Text) : Option Primitive :=
  [int, float, bool, byte, string, io].find? fun p => p.keyword.toList == t

def goName : Primitive → String
  | float => "float64"
  | io => ""
  | other => other.keyword

def isNumeric : Primitive → Bool
  | int | float => true
  | _ => false

end Primitive

/-- The sizes of the dimensions go from the outermost inwards. -/
structure ArrayType where
  base : Primitive
  dimensions : List Nat
  deriving DecidableEq, Repr

namespace ArrayType

/-- The type of one row; an array of one dimension has none. -/
def row? (type : ArrayType) : Option ArrayType :=
  match type.dimensions with
  | _ :: inner@(_ :: _) => some ⟨type.base, inner⟩
  | _ => none

def brackets (dimensions : List Nat) : Text := dimensions.flatMap fun n => '[' :: Text.ofNat n ++ [']']

def written (type : ArrayType) : Text := type.base.keyword.toList ++ brackets type.dimensions

def goName (type : ArrayType) : Text := brackets type.dimensions ++ type.base.goName.toList

end ArrayType

structure TupleType where
  fields : List Primitive
  deriving DecidableEq, Repr

/-- The name of the generated type that carries tuples of `arity` fields. -/
def carrierName (arity : Nat) : Text := "tuple".toList ++ Text.ofNat arity

namespace TupleType

def arity (type : TupleType) : Nat := type.fields.length

def written (type : TupleType) : Text :=
  '(' :: List.intercalate ", ".toList (type.fields.map fun p => p.keyword.toList) ++ [')']

def goName (type : TupleType) : Text :=
  carrierName type.arity ++
    '[' :: List.intercalate ", ".toList (type.fields.map fun p => p.goName.toList) ++ [']']

end TupleType

inductive ValueType where
  | primitive (type : Primitive)
  | array (type : ArrayType)
  | tuple (type : TupleType)
  deriving DecidableEq, Repr

namespace ValueType

def written : ValueType → Text
  | primitive type => type.keyword.toList
  | array type => type.written
  | tuple type => type.written

def goName : ValueType → Text
  | primitive type => type.goName.toList
  | array type => type.goName
  | tuple type => type.goName

def isIO (type : ValueType) : Bool := type == primitive .io

/-! ### Reading -/

/-- A type that may stand in an array or a tuple: every primitive but `IO`. -/
def element? (t : Text) : Option Primitive := (Primitive.ofKeyword? t).filter (· != .io)

theorem length_dropWhile_le {p : Char → Bool} (t : Text) : (t.dropWhile p).length ≤ t.length :=
  (List.dropWhile_suffix p).length_le

/-- Dimensions, each a 64-bit number of elements in square brackets. -/
def dimensions? : Text → Option (List Nat)
  | [] => some []
  | '[' :: rest =>
    match _h : rest.dropWhile Char.isDigit with
    | ']' :: more => do
      let size ← Text.toNatBelow? Text.wordSize (rest.takeWhile Char.isDigit)
      let sizes ← dimensions? more
      return size :: sizes
    | _ => none
  | _ => none
termination_by t => t.length
decreasing_by
  have := length_dropWhile_le (p := Char.isDigit) rest
  simp only [_h, List.length_cons] at this ⊢
  omega

/-- An element type and one or more dimensions. -/
def array? (t : Text) : Option ArrayType := do
  let base ← element? (t.takeWhile Char.isAlpha)
  match ← dimensions? (t.dropWhile Char.isAlpha) with
  | [] => none
  | dimensions => return ⟨base, dimensions⟩

/-- The text without the spaces and tabs around it. -/
def trimSpaces (t : Text) : Text := ((t.dropWhile isSpace).reverse.dropWhile isSpace).reverse

/-- Element types in round brackets, separated by commas. -/
def tuple? (t : Text) : Option TupleType :=
  match t with
  | '(' :: rest => do
    let inner ← Text.before? ')' rest
    let fields ← (inner.splitOn ',').mapM fun field => element? (trimSpaces field)
    return ⟨fields⟩
  | _ => none

/-- The type that a trimmed text spells. -/
def read? (t : Text) : Option ValueType :=
  (tuple? t).map tuple <|> (array? t).map array <|> (Primitive.ofKeyword? t).map primitive

end ValueType

end StellaGo
