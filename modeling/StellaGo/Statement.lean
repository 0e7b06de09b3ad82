import StellaGo.Term
import StellaGo.Scope
import StellaGo.Requirements
import StellaGo.Line

/-! Checked statements. A body holds the statements of one scope; the `}` that ends it is its last
statement, except where the line of the `}` goes on with the next clause of a selection. -/

namespace StellaGo

/-- The calls that are written with `!`. -/
inductive Builtin where
  | print | println | panic
  deriving DecidableEq, Repr

def Builtin.ofName? (name : Name) : Option Builtin :=
  if name = "print".toList then some .print
  else if name = "println".toList then some .println
  else if name = "panic".toList then some .panic
  else none

/-- The statements of one scope, with what the scope is. -/
structure Body (σ : Type) where
  kind : ScopeKind
  depth : Nat
  returns? : Option ValueType
  statements : List σ

/-- How a clause of a selection starts. -/
inductive ClauseHeader where
  | ifTrue (condition : Expression)
  | elseIf (condition : Expression)
  | otherwise

structure Clause (σ : Type) where
  header : ClauseHeader
  body : Body σ

/-- What is assigned to: something whole, or an element of an array. -/
inductive Target where
  | whole (name : Name)
  | element (element : Indexing)

inductive Statement where
  | declaration (name : Name) (type : ValueType) (value : Value)
  | assignment (target : Target) (value : Value)
  | selection (clauses : List (Clause Statement))
  | loop (condition : Expression) (body : Body Statement)
  | jump (jump : Jump)
  | function (signature : Signature) (body : Body Statement)
  | builtin (builtin : Builtin) (argument : Expression)
  | result (value : Value)
  | closer

namespace Statement

def isResult : Statement → Bool
  | result _ => true
  | _ => false

mutual

/-- A `break` out of the loop around this statement is reached through selections alone. -/
def breaksLoop : Statement → Bool
  | jump .break => true
  | selection clauses => clausesBreak clauses
  | _ => false

def clausesBreak : List (Clause Statement) → Bool
  | [] => false
  | ⟨_, ⟨_, _, _, statements⟩⟩ :: rest => anyBreaks statements || clausesBreak rest

def anyBreaks : List Statement → Bool
  | [] => false
  | s :: rest => breaksLoop s || anyBreaks rest

end

end Statement

/-- A file: the functions in it, and what they need. -/
structure Program where
  body : Body Statement
  requirements : Requirements

/-- What is known while the lines of a scope are read. -/
structure Frame where
  scope : Scope
  requirements : Requirements
  deriving DecidableEq, Repr

namespace Frame

def enter (f : Frame) (kind : ScopeKind) : Frame := { f with scope := f.scope.enter kind }

def declare (f : Frame) (d : Descriptor) : Check Frame := do
  return { f with scope := ← f.scope.declare d }

/-- Goes on with what a scope inside this one needs. -/
def leave (f inner : Frame) : Frame := { f with requirements := inner.requirements }

def body (f : Frame) (statements : List Statement) : Body Statement :=
  ⟨f.scope.kind, f.scope.depth, f.scope.returns?, statements⟩

end Frame

end StellaGo
