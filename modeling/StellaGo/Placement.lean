import StellaGo.Token

/-! Where a token may stand in an expression, seen from the tokens next to it: an operand or an
opening bracket follows nothing that ends an operand, and an operator between two operands follows
something that does. -/

namespace StellaGo.Placement

open Token (classify)

/-- An operand can start with this token. -/
def startsOperand : Option Token.Class → Bool
  | some .value => true
  | some (.opening _) => true
  | some (.operator op) => op.canBeUnary
  | some (.closing _) => false
  | none => false

/-- An operand can end before this token. -/
def followsOperand : Option Token.Class → Bool
  | none => true
  | some (.closing _) => true
  | some (.operator op) => op.canBeBinary
  | some .value => false
  | some (.opening _) => false

/-- An operand ends with this token. -/
def endsOperand : Option Token.Class → Bool
  | some .value => true
  | some (.closing _) => true
  | _ => false

/-- A token of the class `current` can stand between these two. -/
def fits (previous : Option Token.Class) (current : Token.Class) (next : Option Token.Class) : Bool :=
  match current with
  | .operator op =>
    (if endsOperand previous then op.canBeBinary else op.canBeUnary) && startsOperand next
  | .value => !endsOperand previous && followsOperand next
  | .opening _ => !endsOperand previous && startsOperand next
  | .closing _ => endsOperand previous && followsOperand next

/-- What is wrong with a token that does not fit. -/
def fault (previous : Option Text) (token : Text) (next : Option Text) : Fault :=
  match classify token, next with
  | .opening _, some after =>
    match classify after with
    | .closing _ => .emptyBrackets
    | _ => .tokenPair (token ++ ' ' :: after)
  | .operator _, none => .noRightOperand token
  | _, some after => .tokenPair (token ++ ' ' :: after)
  | _, none =>
    match previous with
    | some before => .tokenPair (before ++ ' ' :: token)
    | none => .tokenPair token

/-- Every token fits between its neighbours; `previous` stands before the first. -/
def check (previous : Option Text) : List Text → Check Unit
  | [] => .ok ()
  | token :: rest =>
    if fits (previous.map classify) (classify token) (rest.head?.map classify) then
      check (some token) rest
    else .error (fault previous token rest.head?)

end StellaGo.Placement
