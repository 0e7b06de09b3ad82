import StellaGo.Text

/-! The operators of expressions: their symbols, which of them may stand before an operand or
between two, and how one is read off the start of a text. -/

namespace StellaGo

inductive Operator where
  | plus | minus | times | divide
  | and | or
  | equal | unequal | less | greater | lessEqual | greaterEqual
  | not
  deriving DecidableEq, Repr

/-- A character with which an operator symbol may start. -/
def isOperatorChar (c : Char) : Bool := c ∈ ['+', '-', '*', '/', '&', '|', '=', '!', '<', '>']

namespace Operator

def symbol : Operator → String
  | plus => "+"
  | minus => "-"
  | times => "*"
  | divide => "/"
  | and => "&&"
  | or => "||"
  | equal => "=="
  | unequal => "!="
  | less => "<"
  | greater => ">"
  | lessEqual => "<="
  | greaterEqual => ">="
  | not => "!"

/-- `-` and `!` may stand before an operand. -/
def canBeUnary : Operator → Bool
  | minus | not => true
  | _ => false

/-- All operators but `!` may stand between two operands. -/
def canBeBinary : Operator → Bool
  | not => false
  | _ => true

def isOrdering : Operator → Bool
  | less | greater | lessEqual | greaterEqual => true
  | _ => false

/-- The longest operator symbol at the start of a text, and what follows it. -/
def read? : Text → Option (Operator × Text)
  | '&' :: '&' :: rest => some (and, rest)
  | '|' :: '|' :: rest => some (or, rest)
  | '=' :: '=' :: rest => some (equal, rest)
  | '!' :: '=' :: rest => some (unequal, rest)
  | '<' :: '=' :: rest => some (lessEqual, rest)
  | '>' :: '=' :: rest => some (greaterEqual, rest)
  | '<' :: rest => some (less, rest)
  | '>' :: rest => some (greater, rest)
  | '!' :: rest => some (not, rest)
  | '+' :: rest => some (plus, rest)
  | '-' :: rest => some (minus, rest)
  | '*' :: rest => some (times, rest)
  | '/' :: rest => some (divide, rest)
  | _ => none

/-- The operator that a text spells. -/
def ofSymbol? (t : Text) : Option Operator :=
  match read? t with
  | some (op, []) => some op
  | _ => none

theorem append_of_read? {t rest : Text} {op : Operator} (h : read? t = some (op, rest)) :
    op.symbol.toList ++ rest = t := by
  rw [read?.eq_def] at h
  split at h <;> cases h <;> rfl

theorem length_read?_lt {t rest : Text} {op : Operator} (h : read? t = some (op, rest)) :
    rest.length < t.length := by
  rw [← append_of_read? h]
  cases op <;> simp only [symbol, List.length_append] <;> simp

end Operator

end StellaGo
