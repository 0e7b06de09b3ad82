import StellaGo.Operator
import StellaGo.Name
import StellaGo.ValueType

/-! What can be wrong with a program. Defined here: the faults by cause, the kind and the category
under which each is reported, its message, and the advice that goes with it. A compile error is a
fault and the line it is on. -/

namespace StellaGo

/-! ### Kinds -/

inductive ErrorCategory where
  | lex | syn | type | scope
  deriving DecidableEq, Repr

def ErrorCategory.name : ErrorCategory → String
  | lex => "LexError"
  | syn => "SyntaxError"
  | type => "TypeError"
  | scope => "ScopeError"

inductive ErrorKind where
  | unterminatedLiteral | unbalancedBrackets | invalidOperator | invalidLiteral
  | unexpectedToken | invalidIdentifier | malformedDeclaration | malformedAssignment
  | malformedConditional | misplacedElse | malformedLoop | noExitCondition | malformedFunction
  | unknownMacro | unclosedScope | deadCode
  | typeMismatch | mixedTypes | emptyExpression | nonBooleanCondition | returnTypeMismatch
  | argumentMismatch | indexOutOfBounds | divisionByZero
  | alreadyDeclared | notFound | immutableAssignment | breakOutsideLoop | returnOutsideFunction
  | disallowedTopLevel | nestedFunction | missingMain
  deriving DecidableEq, Repr

namespace ErrorKind

def category : ErrorKind → ErrorCategory
  | unterminatedLiteral | unbalancedBrackets | invalidOperator | invalidLiteral => .lex
  | unexpectedToken | invalidIdentifier | malformedDeclaration | malformedAssignment
  | malformedConditional | misplacedElse | malformedLoop | noExitCondition | malformedFunction
  | unknownMacro | unclosedScope | deadCode => .syn
  | typeMismatch | mixedTypes | emptyExpression | nonBooleanCondition | returnTypeMismatch
  | argumentMismatch | indexOutOfBounds | divisionByZero => .type
  | alreadyDeclared | notFound | immutableAssignment | breakOutsideLoop | returnOutsideFunction
  | disallowedTopLevel | nestedFunction | missingMain => .scope

def name : ErrorKind → String
  | unterminatedLiteral => "UnterminatedLiteral"
  | unbalancedBrackets => "UnbalancedBrackets"
  | invalidOperator => "InvalidOperator"
  | invalidLiteral => "InvalidLiteral"
  | unexpectedToken => "UnexpectedToken"
  | invalidIdentifier => "InvalidIdentifier"
  | malformedDeclaration => "MalformedDeclaration"
  | malformedAssignment => "MalformedAssignment"
  | malformedConditional => "MalformedConditional"
  | misplacedElse => "MisplacedElse"
  | malformedLoop => "MalformedLoop"
  | noExitCondition => "NoExitCondition"
  | malformedFunction => "MalformedFunction"
  | unknownMacro => "UnknownMacro"
  | unclosedScope => "UnclosedScope"
  | deadCode => "DeadCode"
  | typeMismatch => "TypeMismatch"
  | mixedTypes => "MixedTypes"
  | emptyExpression => "EmptyExpression"
  | nonBooleanCondition => "NonBooleanCondition"
  | returnTypeMismatch => "ReturnTypeMismatch"
  | argumentMismatch => "ArgumentMismatch"
  | indexOutOfBounds => "IndexOutOfBounds"
  | divisionByZero => "DivisionByZero"
  | alreadyDeclared => "AlreadyDeclared"
  | notFound => "NotFound"
  | immutableAssignment => "ImmutableAssignment"
  | breakOutsideLoop => "BreakOutsideLoop"
  | returnOutsideFunction => "ReturnOutsideFunction"
  | disallowedTopLevel => "DisallowedTopLevel"
  | nestedFunction => "NestedFunction"
  | missingMain => "MissingMain"

/-- The name with a small first letter, in the namespace of the language. -/
def code (kind : ErrorKind) : String := "stella." ++ kind.name.decapitalize

end ErrorKind

/-! ### Causes -/

/-- What two operands lack for a binary operator. -/
inductive OperandRule where
  | numeric | sameNumeric | bools | sameType | ordered
  deriving DecidableEq, Repr

def OperandRule.message : OperandRule → String
  | numeric => "arithmetic needs numeric operands"
  | sameNumeric => "int and float never mix implicitly"
  | bools => "both sides must be bool"
  | sameType => "comparisons need operands of the same type"
  | ordered => "bool values have no ordering"

inductive Fault where
  -- the words of an expression
  | openLiteral (quote : Char)
  | strayCloser (c : Char)
  | wrongCloser (c : Char)
  | neverClosed (opened : Text)
  | noOperator (c : Char)
  | notByte (token : Text)
  | hugeInt (token : Text)
  | notNumber (token : Text)
  -- how the words of an expression stand together
  | noExpression
  | noArray
  | noTuple
  | emptyBrackets
  | noRightOperand (op : Text)
  | tokenPair (pair : Text)
  | strayToken (token : Text)
  | malformedCall (token : Text)
  | malformedIndex (token : Text)
  | notField (token : Text)
  | fieldPosition (field : Text)
  | emptyTerms
  | noValue
  | noOperands
  | unclosedGroup
  | unopenedGroup
  | noOperand
  | noLeftOperand
  | notUnary (op : Operator)
  | notBinary (op : Operator)
  -- types of operands and values
  | unaryOperand (op : Operator) (type : Primitive)
  | binaryOperands (op : Operator) (left right : Primitive) (rule : OperandRule)
  | zeroDivisor
  | mixedResults (types : List Primitive)
  | wrongType (what : Text) (expected found : Primitive)
  | arrayAsValue (token : Text)
  | callAsValue (name : Name) (returns : ValueType)
  | nameAsValue (name : Name) (kind : Name.Kind)
  | notFunction (name : Name) (kind : Name.Kind)
  | argumentCount (name : Name) (expected found : Nat)
  | argumentType (position : Nat) (name parameter : Name) (expected found : Primitive)
  | arrayOperators (text : Text)
  | tupleOperators (text : Text)
  | callReturns (expected : ValueType) (name : Name) (returns : ValueType)
  | nameHasType (expected : ValueType) (name : Name) (type : ValueType)
  | nameHasKind (expected : ValueType) (name : Name) (kind : Name.Kind)
  | notArray (expected : ArrayType) (token : Text)
  | arrayNotClosed (text : Text)
  | arrayLength (type : ArrayType) (expected found : Nat)
  | arrayElement (base : Primitive) (element : Text) (found : Primitive)
  | arrayRow (row : ArrayType) (element : Text)
  | notIndexable (name : Name) (kind : Name.Kind)
  | indexCount (name : Name) (expected found : Nat)
  | indexRange (value : Int) (name : Name) (type : ArrayType) (size : Nat)
  | tupleLength (type : TupleType) (found : Nat)
  | tupleField (position : Nat) (type : TupleType) (expected found : Primitive)
  | notTuple (name : Name) (kind : Name.Kind)
  | fieldRange (name : Name) (arity : Nat) (token : Text)
  -- names
  | badName (problem : Name.Problem)
  | taken (name : Name) (kind : Name.Kind)
  | unknown (name : Name)
  | immutable (name : Name)
  -- types as they are written
  | notType (text : Text)
  | inHeader (fault : Fault)
  -- statements
  | topLevel (text : Text)
  | nestedFunction
  | malformedHeader (text : Text)
  | untypedParameter (text : Text)
  | repeatedParameter (name : Name)
  | ioParameter (name : Name)
  | mainReturns
  | mainParameters
  | ioReturns (name : Name)
  | noReturn (name : Name) (returns : ValueType)
  | returnOutside (text : Text)
  | returnFromIO (text : Text)
  | returnType (expected found : Primitive)
  | inReturn (fault : Fault)
  | deadCode
  | malformedLet (text : Text)
  | letWithoutValue (name : Text)
  | ioLet
  | notAssignment (text : Text)
  | halfAssignment (text : Text)
  | badTarget (text : Text)
  | functionTarget (name : Name)
  | malformedIf (text : Text)
  | malformedElseIf (text : Text)
  | elseCondition (text : Text)
  | notBool (text : Text) (found : Primitive)
  | elseOnOwnLine
  | elseAfterElse
  | elseWithoutIf
  | malformedLoop (text : Text)
  | endlessLoop
  | jumpOperands (keyword : String) (text : Text)
  | jumpOutside (keyword : String)
  | notBuiltin (text : Text)
  | unknownBuiltin (name : Name)
  | builtinBrackets (name : Name)
  | builtinArgument (name : Name)
  | panicMessage (found : Primitive)
  -- blocks
  | unclosedBlock
  | closerInside
  | strayBlockEnd
  | afterBlock (text : Text)
  | noMain
  deriving DecidableEq, Repr

/-- A text in the quotes of a message. -/
def Text.quoted (t : Text) : String := "`" ++ String.ofList t ++ "`"

namespace Fault

def kind : Fault → ErrorKind
  | openLiteral _ => .unterminatedLiteral
  | strayCloser _ | wrongCloser _ | neverClosed _ | unclosedGroup | unopenedGroup
  | arrayNotClosed _ => .unbalancedBrackets
  | noOperator _ => .invalidOperator
  | notByte _ | hugeInt _ | notNumber _ => .invalidLiteral
  | noExpression | noArray | noTuple | emptyBrackets | emptyTerms | noValue | noOperands
  | builtinArgument _ => .emptyExpression
  | noRightOperand _ | tokenPair _ | strayToken _ | malformedCall _ | malformedIndex _ | notField _
  | fieldPosition _ | noOperand | noLeftOperand | notUnary _ | notBinary _ | jumpOperands _ _
  | notBuiltin _ | builtinBrackets _ | closerInside | strayBlockEnd | afterBlock _ =>
    .unexpectedToken
  | zeroDivisor => .divisionByZero
  | mixedResults _ => .mixedTypes
  | unaryOperand _ _ | binaryOperands _ _ _ _ | wrongType _ _ _ | arrayAsValue _ | callAsValue _ _
  | nameAsValue _ _ | notFunction _ _ | arrayOperators _ | tupleOperators _ | callReturns _ _ _
  | nameHasType _ _ _ | nameHasKind _ _ _ | notArray _ _ | arrayLength _ _ _ | arrayElement _ _ _
  | arrayRow _ _ | notIndexable _ _ | indexCount _ _ _ | tupleLength _ _ | tupleField _ _ _ _
  | notTuple _ _ | panicMessage _ => .typeMismatch
  | argumentCount _ _ _ | argumentType _ _ _ _ _ => .argumentMismatch
  | indexRange _ _ _ _ | fieldRange _ _ _ => .indexOutOfBounds
  | badName _ => .invalidIdentifier
  | taken _ _ | repeatedParameter _ => .alreadyDeclared
  | unknown _ => .notFound
  | immutable _ => .immutableAssignment
  | notType _ | malformedLet _ | letWithoutValue _ | ioLet => .malformedDeclaration
  | inHeader _ | malformedHeader _ | untypedParameter _ | ioParameter _ | mainReturns
  | mainParameters | ioReturns _ => .malformedFunction
  | topLevel _ => .disallowedTopLevel
  | nestedFunction => .nestedFunction
  | noReturn _ _ | returnFromIO _ | returnType _ _ => .returnTypeMismatch
  | returnOutside _ => .returnOutsideFunction
  | inReturn fault => if fault.kind = .typeMismatch then .returnTypeMismatch else fault.kind
  | deadCode => .deadCode
  | notAssignment _ | halfAssignment _ | badTarget _ | functionTarget _ => .malformedAssignment
  | malformedIf _ | malformedElseIf _ | elseCondition _ => .malformedConditional
  | notBool _ _ => .nonBooleanCondition
  | elseOnOwnLine | elseAfterElse | elseWithoutIf => .misplacedElse
  | malformedLoop _ => .malformedLoop
  | endlessLoop => .noExitCondition
  | jumpOutside _ => .breakOutsideLoop
  | unknownBuiltin _ => .unknownMacro
  | unclosedBlock => .unclosedScope
  | noMain => .missingMain

def message : Fault → String
  | openLiteral quote => s!"literal starting with {quote} is never closed"
  | strayCloser c => s!"`{c}` has no matching opening bracket"
  | wrongCloser c => s!"`{c}` does not match the bracket it closes"
  | neverClosed opened => s!"{opened.quoted} is never closed"
  | noOperator c => s!"`{c}` is not an operator"
  | notByte token =>
    s!"{String.ofList token} is not a byte literal; bytes hold exactly one ASCII character"
  | hugeInt token => s!"{token.quoted} does not fit in an int"
  | notNumber token => s!"{token.quoted} is not a valid number"
  | noExpression => "expected an expression"
  | noArray => "expected an array"
  | noTuple => "expected a tuple"
  | emptyBrackets => "empty brackets"
  | noRightOperand op => s!"operator {op.quoted} is missing a right-hand operand"
  | tokenPair pair => s!"unexpected token sequence {pair.quoted}"
  | strayToken token => s!"unexpected token {token.quoted}"
  | malformedCall token => s!"{token.quoted} is not a well-formed call"
  | malformedIndex token => s!"{token.quoted} is not a well-formed index"
  | notField token => s!"{token.quoted} is not a tuple field access"
  | fieldPosition field => s!"tuple field {field.quoted} must be a plain integer literal"
  | emptyTerms => "empty expression"
  | noValue => "expression has no value-producing term"
  | noOperands => "expression has no operands"
  | unclosedGroup => "bracket is never closed"
  | unopenedGroup => "bracket is never opened"
  | noOperand => "operator is missing an operand"
  | noLeftOperand => "operator is missing a left-hand operand"
  | notUnary op => s!"`{op.symbol}` is not a prefix operator"
  | notBinary op => s!"`{op.symbol}` cannot join two operands"
  | unaryOperand op type => s!"`{op.symbol}` cannot be applied to {type.keyword}"
  | binaryOperands op left right rule =>
    s!"cannot apply `{op.symbol}` to {left.keyword} and {right.keyword}: {rule.message}"
  | zeroDivisor => "division by a constant zero"
  | mixedResults types =>
    "expression mixes result types " ++ ", ".intercalate (types.map Primitive.keyword)
  | wrongType what expected found =>
    s!"{String.ofList what} expects {expected.keyword}, found {found.keyword}"
  | arrayAsValue token => s!"array literal {token.quoted} cannot be used as a primitive value"
  | callAsValue name returns =>
    s!"{name.quoted} returns {String.ofList returns.written} and cannot be used as a primitive value"
  | nameAsValue name kind => s!"{name.quoted} is a {kind.noun} and cannot be used as a primitive value"
  | notFunction name kind => s!"{name.quoted} is a {kind.noun}, not a function"
  | argumentCount name expected found =>
    s!"{name.quoted} expects {expected} argument(s) but received {found}"
  | argumentType position name parameter expected found =>
    s!"argument {position} of {name.quoted} ({parameter.quoted}) expects {expected.keyword}, found {found.keyword}"
  | arrayOperators text =>
    s!"{text.quoted} is not an array; arrays cannot be combined with operators"
  | tupleOperators text =>
    s!"{text.quoted} is not a tuple; tuples cannot be combined with operators"
  | callReturns expected name returns =>
    s!"expected {String.ofList expected.written}, but {name.quoted} returns {String.ofList returns.written}"
  | nameHasType expected name type =>
    s!"expected {String.ofList expected.written}, but {name.quoted} is {String.ofList type.written}"
  | nameHasKind expected name kind =>
    s!"expected {String.ofList expected.written}, but {name.quoted} is a {kind.noun}"
  | notArray expected token => s!"expected {String.ofList expected.written}, found {token.quoted}"
  | arrayNotClosed text => s!"array literal {text.quoted} is not closed by its final `]`"
  | arrayLength type expected found =>
    s!"array literal has {found} element(s) but {String.ofList type.written} needs {expected}"
  | arrayElement base element found =>
    s!"array of {base.keyword} cannot hold {element.quoted} of type {found.keyword}"
  | arrayRow row element =>
    s!"expected a row of type {String.ofList row.written}, found {element.quoted}"
  | notIndexable name kind => s!"{name.quoted} is a {kind.noun} and cannot be indexed"
  | indexCount name expected found =>
    s!"{name.quoted} has {expected} dimension(s) but is indexed with {found}"
  | indexRange value name type _ =>
    s!"index {value} is out of bounds for {name.quoted} of type {String.ofList type.written}"
  | tupleLength type found =>
    s!"tuple literal has {found} field(s) but {String.ofList type.written} needs {type.arity}"
  | tupleField position type expected found =>
    s!"tuple field {position} of {String.ofList type.written} expects {expected.keyword}, found {found.keyword}"
  | notTuple name kind => s!"{name.quoted} is a {kind.noun}, not a tuple"
  | fieldRange name arity token =>
    s!"{name.quoted} has {arity} field(s); {token.quoted} is out of bounds"
  | badName problem => problem.message
  | taken name kind => s!"{name.quoted} is already declared as a {kind.noun}"
  | unknown name => s!"{name.quoted} is not declared in this scope"
  | immutable name => s!"cannot assign twice to immutable {name.quoted}"
  | notType text => s!"{text.quoted} is not a valid type"
  | inHeader fault => fault.message
  | topLevel text =>
    s!"{text.quoted} is not allowed at file scope; only functions may be declared here"
  | nestedFunction => "functions may only be declared at file scope"
  | malformedHeader text => s!"malformed function header {text.quoted}"
  | untypedParameter text =>
    s!"parameter {text.quoted} needs a type, as in `{String.ofList text}: int`"
  | repeatedParameter name => s!"parameter {name.quoted} is declared twice"
  | ioParameter name => s!"parameter {name.quoted} cannot have type IO"
  | mainReturns => "`main` must return IO"
  | mainParameters => "`main` takes no parameters"
  | ioReturns name => s!"only `main` may return IO; {name.quoted} must return a value"
  | noReturn name returns =>
    s!"{name.quoted} must end with an expression of type {String.ofList returns.written}"
  | returnOutside text =>
    s!"{text.quoted} is not a statement; only a function body may end with a value"
  | returnFromIO text =>
    s!"{text.quoted} is not a statement, and an IO function returns no value"
  | returnType expected found =>
    s!"function returns {expected.keyword}, but this expression is {found.keyword}"
  | inReturn fault => fault.message
  | deadCode => "unreachable code after the function's return expression"
  | malformedLet text => s!"malformed declaration {text.quoted}"
  | letWithoutValue name => s!"{name.quoted} is declared without a value"
  | ioLet => "IO is only valid as the return type of `main`"
  | notAssignment text => s!"{text.quoted} is not an assignment"
  | halfAssignment text => s!"{text.quoted} needs a target and a value"
  | badTarget text => s!"cannot assign to {text.quoted}"
  | functionTarget name => s!"cannot assign to function {name.quoted}"
  | malformedIf text => s!"malformed conditional {text.quoted}"
  | malformedElseIf text => s!"malformed `else if` in {text.quoted}"
  | elseCondition text => s!"`else` takes no condition; write `else if` in {text.quoted}"
  | notBool text found => s!"condition {text.quoted} has type {found.keyword}, expected bool"
  | elseOnOwnLine => "`else` must open on the same line that closes the previous block"
  | elseAfterElse => "an `else` block must be the last clause of its `if`"
  | elseWithoutIf => "`else` can only follow the block of an `if`"
  | malformedLoop text => s!"malformed loop {text.quoted}"
  | endlessLoop => "loop has no `break` and would never terminate"
  | jumpOperands keyword text => s!"`{keyword}` takes no operands, found {text.quoted}"
  | jumpOutside keyword => s!"`{keyword}` outside of a loop"
  | notBuiltin text => s!"{text.quoted} is not a macro call"
  | unknownBuiltin name => s!"unknown macro `{String.ofList name}!`"
  | builtinBrackets name => s!"`{String.ofList name}!` must wrap its argument in parentheses"
  | builtinArgument name => s!"`{String.ofList name}!` needs an argument"
  | panicMessage found => s!"`panic!` expects a string message, found {found.keyword}"
  | unclosedBlock => "block is never closed with `\x7d`"
  | closerInside => "a closing `\x7d` must start its line"
  | strayBlockEnd => "`\x7d` does not close any open block"
  | afterBlock text => s!"unexpected {text.quoted} after `\x7d`"
  | noMain => "cannot transpile a file with no `main` function"

def help? : Fault → Option String
  | noOperator _ => some "use `&&`, `||` or `==`"
  | notNumber _ => some "numbers have no leading zeros and at most one decimal point"
  | mixedResults _ =>
    some "wrap sub-expressions in brackets so each operator sees one type"
  | indexRange _ _ _ size => some s!"valid indices run from 0 to {size - 1}"
  | notType _ =>
    some "types are `int`, `float`, `bool`, `byte`, `string`, arrays such as `int[3]`, or tuples such as `(int, float)`"
  | inHeader fault => fault.help?
  | inReturn fault => fault.help?
  | immutable name => some s!"Try: let mut {String.ofList name}: ... to allow reassignment"
  | nestedFunction => some "move this function out of the enclosing block"
  | malformedHeader _ =>
    some "Syntax: function <name>(<param>: <type>, ...) -> <type> = \x7b"
  | malformedLet _ | letWithoutValue _ => some "Syntax: let [mut] <name>: <type> = <value>"
  | malformedIf _ | malformedElseIf _ | elseCondition _ => some "Syntax: if <condition> \x7b"
  | elseOnOwnLine => some "write `\x7d else \x7b`"
  | malformedLoop _ => some "Syntax: loop <condition> \x7b"
  | endlessLoop => some "add a `break` inside the loop body"
  | unknownBuiltin _ => some "available macros are `print!`, `println!` and `panic!`"
  | noMain => some "add `function main() -> IO = \x7b`"
  | _ => none

end Fault

/-! ### Errors on a line -/

/-- Lines count from 1. -/
structure CompileError where
  line : Nat
  fault : Fault
  deriving DecidableEq, Repr

namespace CompileError

def kind (e : CompileError) : ErrorKind := e.fault.kind

def message (e : CompileError) : String := e.fault.message

def help? (e : CompileError) : Option String := e.fault.help?

def category (e : CompileError) : ErrorCategory := e.kind.category

/-- The error in one line. -/
def display (e : CompileError) : String := s!"{e.category.name} on line {e.line}: {e.message}"

end CompileError

end StellaGo
