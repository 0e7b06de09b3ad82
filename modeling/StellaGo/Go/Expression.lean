import StellaGo.Term

/-! The Go text of checked expressions and values. Grouping brackets become round, one blank stands
between terms, and none after an opening bracket, before a closing one or after an operator that
stands before its operand. -/

namespace StellaGo

namespace Term

def isOpening : Term → Bool
  | opening _ => true
  | _ => false

def isClosing : Term → Bool
  | closing _ => true
  | _ => false

def isOperator : Term → Bool
  | operator _ => true
  | _ => false

end Term

namespace Go

def commas (parts : List Text) : Text := List.intercalate ", ".toList parts

mutual

def term : Term → Text
  | .literal text _ => text
  | .scalar name _ => name
  | .call c => call c
  | .element i => indexing i
  | .field f => f.name ++ ".v".toList ++ Text.ofNat f.position
  | .operator op => op.symbol.toList
  | .opening _ => ['(']
  | .closing _ => [')']

/-- The terms from some point on. There an operator would stand before its operand if `unary` says
so, and no blank is due if `glued` says so. -/
def terms (unary glued : Bool) : List Term → Text
  | [] => []
  | t :: rest =>
    (if glued || t.isClosing then [] else [' ']) ++ term t ++
      terms (t.isOperator || t.isOpening) (t.isOpening || t.isOperator && unary) rest

def expression : Expression → Text
  | ⟨ts, _⟩ => terms true true ts

def call : Call → Text
  | ⟨name, arguments, _⟩ => name ++ '(' :: commas (values arguments) ++ [')']

def indexing : Indexing → Text
  | ⟨name, indices, _⟩ => name ++ brackets indices

def brackets : List Expression → Text
  | [] => []
  | e :: rest => '[' :: expression e ++ ']' :: brackets rest

def value : Value → Text
  | .scalar e => expression e
  | .arrayLiteral type items => type.goName ++ '{' :: commas (rows items) ++ ['}']
  | .tupleLiteral type fields => type.goName ++ '{' :: commas (namedFields 0 fields) ++ ['}']
  | .whole name _ => name
  | .call c => call c

def values : List Value → List Text
  | [] => []
  | v :: rest => value v :: values rest

/-- `v0: e, v1: e, ...` -/
def namedFields (position : Nat) : List Expression → List Text
  | [] => []
  | e :: rest =>
    ('v' :: Text.ofNat position ++ ": ".toList ++ expression e) :: namedFields (position + 1) rest

def item : Item → Text
  | .scalar e => expression e
  | .row items => '{' :: commas (rows items) ++ ['}']

def rows : List Item → List Text
  | [] => []
  | i :: rest => item i :: rows rest

end

end Go

end StellaGo
