import StellaGo.Bracket
import StellaGo.Operator
import StellaGo.Symbols

/-! Checked expressions. An expression is the row of its terms, brackets included, with its type;
calls and indices hold checked values of their own. -/

namespace StellaGo

/-- `name.position`, a field of a tuple. -/
structure FieldAccess where
  name : Name
  position : Nat
  type : Primitive
  deriving DecidableEq, Repr

mutual

inductive Term where
  | literal (text : Text) (type : Primitive)
  | scalar (name : Name) (type : Primitive)
  | call (call : Call)
  | element (element : Indexing)
  | field (field : FieldAccess)
  | operator (op : Operator)
  | opening (b : Bracket)
  | closing (b : Bracket)

structure Expression where
  terms : List Term
  type : Primitive

structure Call where
  name : Name
  arguments : List Value
  returns : ValueType

/-- `name[i]...[k]`, with the type of the array's elements. -/
structure Indexing where
  name : Name
  indices : List Expression
  type : Primitive

/-- What may be declared, assigned, passed and returned. Arrays and tuples have no operators: they
are written out, named whole, or returned by a call. -/
inductive Value where
  | scalar (e : Expression)
  | arrayLiteral (type : ArrayType) (items : List Item)
  | tupleLiteral (type : TupleType) (fields : List Expression)
  | whole (name : Name) (type : ValueType)
  | call (call : Call)

/-- An item of an array literal. -/
inductive Item where
  | scalar (e : Expression)
  | row (items : List Item)

end

namespace Term

/-- The type of a term that has a value. -/
def valueType? : Term → Option Primitive
  | literal _ type => some type
  | scalar _ type => some type
  | call c =>
    match c.returns with
    | .primitive type => some type
    | _ => none
  | element i => some i.type
  | field f => some f.type
  | operator _ | opening _ | closing _ => none

/-- An operator behind this term, or behind none, stands before its operand. -/
def precedesUnary : Option Term → Bool
  | none => true
  | some (operator _) | some (opening _) => true
  | some _ => false

end Term

/-- The value of an expression that is an int literal, or one with a `-` before it. -/
def Expression.constant? (e : Expression) : Option Int :=
  match e.terms with
  | [.literal digits .int] => digits.toNat?.map fun n => (n : Int)
  | [.operator .minus, .literal digits .int] => digits.toNat?.map fun n => -(n : Int)
  | _ => none

end StellaGo
