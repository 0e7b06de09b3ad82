import StellaGo.Literal
import StellaGo.Placement
import StellaGo.Inference

/-! Reading an expression or a whole array or tuple: its text is split into tokens, the tokens are
looked up among the declared names, and the terms are typed. What stands in the brackets of a call,
an index or a literal is read in the same way. Each of the readers below takes the readers for the
shorter texts inside its own, and `expression` and `aggregate` put them together. -/

namespace StellaGo

/-- The type of a whole array or tuple. -/
inductive Aggregate where
  | array (type : ArrayType)
  | tuple (type : TupleType)
  deriving DecidableEq, Repr

def Aggregate.type : Aggregate → ValueType
  | array type => .array type
  | tuple type => .tuple type

namespace Expression

/-- Readers for texts of fewer than `n` characters. -/
structure Inner (n : Nat) where
  expression : (text : Text) → text.length < n → Check Expression
  aggregate : (type : Aggregate) → (text : Text) → text.length < n → Check Value

variable (symbols : Symbols) {n : Nat} (inner : Inner n)

/-! ### Calls -/

/-- An argument, the one of number `position`, that is to be passed as `parameter`. -/
def argument (function : Name) (position : Nat) (parameter : Parameter) (text : Text)
    (short : text.length < n) : Check Value :=
  match parameter.type with
  | .primitive type => do
    let e ← inner.expression text short
    if e.type = type then return .scalar e
    else throw (.argumentType position function parameter.name type e.type)
  | .array type => inner.aggregate (.array type) text short
  | .tuple type => inner.aggregate (.tuple type) text short

/-- The arguments from number `position` on. -/
def arguments (function : Name) :
    (position : Nat) → List Parameter → (texts : List Text) → (∀ text ∈ texts, text.length < n) →
      Check (List Value)
  | position, parameter :: parameters, text :: texts, short => do
    let value ← argument inner function position parameter text (short text List.mem_cons_self)
    let values ← arguments function (position + 1) parameters texts
      fun other h => short other (List.mem_cons_of_mem _ h)
    return value :: values
  | _, _, _, _ => return []

/-- The declared function of a call. -/
def callee (name : Name) : Check Signature := do
  match ← symbols.resolve name with
  | .function signature => return signature
  | other => throw (.notFunction name other.kind)

/-- `name(argument, ...)`. -/
def readCall (token : Text) (short : token.length ≤ n) : Check Call :=
  let name := token.takeWhile (· != '(')
  match h : token.inside? name.length with
  | none => .error (.malformedCall token)
  | some inside => do
    let signature ← callee symbols name
    let texts := inside.topLevelParts ','
    if texts.length ≠ signature.parameters.length then
      throw (.argumentCount name signature.parameters.length texts.length)
    let values ← arguments inner name 1 signature.parameters texts fun _ ht =>
      Nat.lt_of_le_of_lt (Text.length_le_of_mem_topLevelParts ht)
        (Nat.lt_of_lt_of_le (Text.length_inside?_lt h) short)
    return ⟨signature.name, values, signature.returns⟩

/-! ### Indices and fields -/

/-- A constant index lies in its dimension. The size is taken as a signed 64-bit number. -/
def inRange (value : Int) (size : Nat) : Bool := 0 ≤ value && value < Int.bmod size Text.wordSize

def index (array : Binding ArrayType) (size : Nat) (text : Text) (short : text.length < n) :
    Check Expression := do
  let e ← inner.expression text short
  if e.type ≠ .int then throw (.wrongType "an array index".toList .int e.type)
  match e.constant? with
  | some value =>
    if inRange value size then return e
    else throw (.indexRange value array.name array.type size)
  | none => return e

/-- One index for each of the sizes. -/
def indices (array : Binding ArrayType) :
    (sizes : List Nat) → (texts : List Text) → (∀ text ∈ texts, text.length < n) →
      Check (List Expression)
  | size :: sizes, text :: texts, short => do
    let e ← index inner array size text (short text List.mem_cons_self)
    let es ← indices array sizes texts fun other h => short other (List.mem_cons_of_mem _ h)
    return e :: es
  | _, _, _ => return []

/-- The declared array of an indexing. -/
def indexedArray (name : Name) : Check (Binding ArrayType) := do
  match ← symbols.resolve name with
  | .array array => return array
  | other => throw (.notIndexable name other.kind)

/-- `name[index]...[index]`. -/
def readIndexing (token : Text) (short : token.length ≤ n) : Check Indexing :=
  let name := token.takeWhile (· != '[')
  match h : token.indices? name.length with
  | none => .error (.malformedIndex token)
  | some texts => do
    let array ← indexedArray symbols name
    if texts.length ≠ array.type.dimensions.length then
      throw (.indexCount name array.type.dimensions.length texts.length)
    let es ← indices inner array array.type.dimensions texts fun text ht =>
      Nat.lt_of_lt_of_le (Text.length_lt_of_mem_indices? h text ht) short
    return ⟨array.name, es, array.type.base⟩

/-- A field's position: its digits as they are written for the number, below 2 ^ 64. -/
def fieldPosition? (digits : Text) : Option Nat :=
  (digits.toNatBelow? Text.wordSize).filter fun position => Text.ofNat position == digits

/-- `name.position`. -/
def readField (token : Text) : Check FieldAccess := do
  match token.cut? '.' with
  | none => throw (.notField token)
  | some (name, digits) =>
    match fieldPosition? digits with
    | none => throw (.fieldPosition digits)
    | some position =>
      match ← symbols.resolve name with
      | .tuple tuple =>
        match tuple.type.fields[position]? with
        | some type => return ⟨tuple.name, position, type⟩
        | none => throw (.fieldRange name tuple.type.arity token)
      | other => throw (.notTuple name other.kind)

/-! ### Terms -/

/-- A number, as the type that its spelling gives it. -/
def readNumber (token : Text) : Check Term :=
  match Literal.numeric? token with
  | none => .error (.notNumber token)
  | some .int =>
    if (Literal.intValue? token).isSome then .ok (.literal token .int) else .error (.hugeInt token)
  | some type => .ok (.literal token type)

/-- A variable. -/
def readName (token : Text) : Check Term :=
  match Name.problem? token with
  | some problem => .error (.badName problem)
  | none => do
    match ← symbols.resolve token with
    | .scalar b => return .scalar b.name b.type
    | other => throw (.nameAsValue token other.kind)

/-- A call that returns a primitive value. -/
def readScalarCall (token : Text) (short : token.length ≤ n) : Check Term := do
  let call ← readCall symbols inner token short
  match call.returns with
  | .primitive .io | .array _ | .tuple _ => throw (.callAsValue call.name call.returns)
  | .primitive _ => return .call call

/-- A token that starts with a letter: the first of `(`, `[` and `.` in it tells what it is. -/
def readWord (token : Text) (short : token.length ≤ n) : Check Term :=
  match token.find? (· ∈ ['(', '[', '.']) with
  | some '(' => readScalarCall symbols inner token short
  | some '[' => (readIndexing symbols inner token short).map .element
  | some _ => (readField symbols token).map .field
  | none => readName symbols token

/-- A token of the class of values. -/
def readValue (token : Text) (short : token.length ≤ n) : Check Term :=
  let first := token.headD '\x00'
  if first == '"' then .ok (.literal token .string)
  else if first == '\'' then
    if Literal.isByte token then .ok (.literal token .byte) else .error (.notByte token)
  else if token = "true".toList ∨ token = "false".toList then .ok (.literal token .bool)
  else if first.isDigit then readNumber token
  else if first == '[' then .error (.arrayAsValue token)
  else if !first.isAlpha then .error (.strayToken token)
  else readWord symbols inner token short

def readTerm (token : Text) (short : token.length ≤ n) : Check Term :=
  match Token.classify token with
  | .opening b => .ok (.opening b)
  | .closing b => .ok (.closing b)
  | .operator op => .ok (.operator op)
  | .value => readValue symbols inner token short

def readTerms : (tokens : List Text) → (∀ token ∈ tokens, token.length ≤ n) → Check (List Term)
  | [], _ => return []
  | token :: tokens, short => do
    let term ← readTerm symbols inner token (short token List.mem_cons_self)
    let terms ← readTerms tokens fun other h => short other (List.mem_cons_of_mem _ h)
    return term :: terms

def readExpression (text : Text) (short : text.length ≤ n) : Check Expression := do
  let ⟨tokens, within⟩ ← Token.scanned text
  if tokens = [] then throw .noExpression
  Placement.check none tokens
  let terms ← readTerms symbols inner tokens fun token h => Nat.le_trans (within token h) short
  return ⟨terms, ← Inference.infer terms⟩

/-! ### Arrays and tuples -/

/-- The items of one dimension of an array literal, which are elements. -/
def elements (base : Primitive) :
    (texts : List Text) → (∀ text ∈ texts, text.length < n) → Check (List Item)
  | [], _ => return []
  | text :: texts, short => do
    let e ← inner.expression text (short text List.mem_cons_self)
    if e.type ≠ base then throw (.arrayElement base text e.type)
    let items ← elements base texts fun other h => short other (List.mem_cons_of_mem _ h)
    return .scalar e :: items

/-- The items of one dimension of an array literal, which `readRow` reads as rows of type `row`. -/
def rows (row : ArrayType) (readRow : (text : Text) → text.length < n → Check (List Item)) :
    (texts : List Text) → (∀ text ∈ texts, text.length < n) → Check (List Item)
  | [], _ => return []
  | text :: texts, short => do
    if !text.startsWith '[' then throw (.arrayRow row text)
    let items ← readRow text (short text List.mem_cons_self)
    let others ← rows row readRow texts fun other h => short other (List.mem_cons_of_mem _ h)
    return .row items :: others

/-- The items of an array literal with elements of type `base` and these dimensions. -/
def readItems (base : Primitive) :
    (sizes : List Nat) → (text : Text) → text.length ≤ n → Check (List Item)
  | sizes, text, short =>
    match h : text.inside? 0 with
    | none => .error (.arrayNotClosed text)
    | some inside => do
      let texts := inside.topLevelParts ','
      let size := sizes.headD 0
      if texts.length ≠ size then throw (.arrayLength ⟨base, sizes⟩ size texts.length)
      have within : ∀ part ∈ texts, part.length < n := fun _ ht =>
        Nat.lt_of_le_of_lt (Text.length_le_of_mem_topLevelParts ht)
          (Nat.lt_of_lt_of_le (Text.length_inside?_lt h) short)
      match sizes with
      | _ :: next :: deeper =>
        rows ⟨base, next :: deeper⟩
          (fun part hp => readItems base (next :: deeper) part (Nat.le_of_lt hp)) texts within
      | _ => elements inner base texts within

/-- The fields of a tuple literal from number `position` on. -/
def readFields (type : TupleType) :
    (position : Nat) → (types : List Primitive) → (texts : List Text) →
      (∀ text ∈ texts, text.length < n) → Check (List Expression)
  | position, expected :: types, text :: texts, short => do
    let e ← inner.expression text (short text List.mem_cons_self)
    if e.type ≠ expected then throw (.tupleField position type expected e.type)
    let es ← readFields type (position + 1) types texts
      fun other h => short other (List.mem_cons_of_mem _ h)
    return e :: es
  | _, _, _, _ => return []

def noValueFault : Aggregate → Fault
  | .array _ => .noArray
  | .tuple _ => .noTuple

def operatorsFault (text : Text) : Aggregate → Fault
  | .array _ => .arrayOperators text
  | .tuple _ => .tupleOperators text

/-- The name of a whole array of the expected type. -/
def readArrayName (type : ArrayType) (token : Text) : Check Value :=
  match symbols.lookup? token with
  | some (.array array) =>
    if array.type = type then .ok (.whole array.name (.array array.type))
    else .error (.nameHasType (.array type) array.name (.array array.type))
  | some other => .error (.nameHasKind (.array type) token other.kind)
  | none =>
    if Name.problem? token = none then .error (.unknown token) else .error (.notArray type token)

/-- The name of a whole tuple of the expected type. -/
def readTupleName (type : TupleType) (token : Text) : Check Value := do
  match ← symbols.resolve token with
  | .tuple tuple =>
    if tuple.type = type then return .whole tuple.name (.tuple tuple.type)
    else throw (.nameHasType (.tuple type) tuple.name (.tuple tuple.type))
  | other => throw (.nameHasKind (.tuple type) token other.kind)

/-- A whole array or tuple that is not written out: a call or a name. -/
def readWhole (expected : Aggregate) (text : Text) (short : text.length ≤ n) : Check Value := do
  let ⟨tokens, within⟩ ← Token.scanned text
  match tokens, within with
  | [], _ => throw (noValueFault expected)
  | [token], within =>
    if token.endsWith ')' && token.contains '(' then
      let call ← readCall symbols inner token
        (Nat.le_trans (within token List.mem_cons_self) short)
      if call.returns = expected.type then return .call call
      else throw (.callReturns expected.type call.name call.returns)
    else
      match expected with
      | .array type => readArrayName symbols type token
      | .tuple type => readTupleName symbols type token
  | _, _ => throw (operatorsFault text expected)

/-- An array is written out in square brackets, a tuple in round ones that close at its end. -/
def readAggregate (expected : Aggregate) (text : Text) (short : text.length ≤ n) : Check Value :=
  let trimmed := text.trim
  have shorter : trimmed.length ≤ n := Nat.le_trans (Text.length_trim_le text) short
  match expected with
  | .array type =>
    if trimmed.startsWith '[' then
      (readItems inner type.base type.dimensions trimmed shorter).map (.arrayLiteral type)
    else readWhole symbols inner expected trimmed shorter
  | .tuple type =>
    match trimmed.startsWith '(', h : trimmed.inside? 0 with
    | true, some inside => do
      let texts := inside.topLevelParts ','
      if texts.length ≠ type.arity then throw (.tupleLength type texts.length)
      let fields ← readFields inner type 0 type.fields texts fun _ ht =>
        Nat.lt_of_le_of_lt (Text.length_le_of_mem_topLevelParts ht)
          (Nat.lt_of_lt_of_le (Text.length_inside?_lt h) shorter)
      return .tupleLiteral type fields
    | _, _ => readWhole symbols inner expected trimmed shorter

end Expression

/-! ### Texts of any length -/

mutual

/-- The expression that a text spells. -/
def expression (symbols : Symbols) (text : Text) : Check Expression :=
  Expression.readExpression symbols (n := text.length)
    ⟨fun part _short => expression symbols part, fun type part _short => aggregate symbols type part⟩
    text (Nat.le_refl _)
termination_by text.length

/-- The whole array or tuple of the expected type that a text spells. -/
def aggregate (symbols : Symbols) (expected : Aggregate) (text : Text) : Check Value :=
  Expression.readAggregate symbols (n := text.length)
    ⟨fun part _short => expression symbols part, fun type part _short => aggregate symbols type part⟩
    expected text (Nat.le_refl _)
termination_by text.length

end

namespace Expression

/-- The readers for texts of any length, where shorter ones are asked for. -/
def inside (symbols : Symbols) (n : Nat) : Inner n :=
  ⟨fun text _ => expression symbols text, fun type text _ => aggregate symbols type text⟩

/-- The term that a token spells. -/
def term (symbols : Symbols) (token : Text) : Check Term :=
  readTerm symbols (inside symbols token.length) token (Nat.le_refl _)

/-- The expression that a text spells, which must be of the type `expected`. -/
def ofType (symbols : Symbols) (expected : Primitive) (what text : Text) : Check Expression := do
  let e ← expression symbols text
  if e.type = expected then return e else throw (.wrongType what expected e.type)

end Expression

/-- The call that a token spells. -/
def call (symbols : Symbols) (token : Text) : Check Call :=
  Expression.readCall symbols (Expression.inside symbols token.length) token (Nat.le_refl _)

/-- The indexing that a token spells. -/
def indexing (symbols : Symbols) (token : Text) : Check Indexing :=
  Expression.readIndexing symbols (Expression.inside symbols token.length) token (Nat.le_refl _)

/-- The field access that a token spells. -/
def fieldAccess (symbols : Symbols) (token : Text) : Check FieldAccess :=
  Expression.readField symbols token

end StellaGo
