import StellaGo.Command
import StellaGo.Toml.Writer

/-! The command line: a parser of arguments, what is done with what it gives, and the parser of the
program. There options stand anywhere after the command; `--` ends them. The switch for more messages,
`-v`, also stands before the command. A fault in the arguments wins over what follows it, and so does a
request for help. -/

namespace StellaGo.CommandLine

/-- What the arguments ask for instead of a command. -/
inductive Stop where
  | help
  | version
  | misuse
  deriving DecidableEq, Repr

/-- What the program needs from a parser of arguments: the command that they ask for, and the text for
arguments that ask for none. -/
class Parser where
  read : (args : List Text) → Except Stop Command
  text : (args : List Text) → Stop → Text

/-- Does what the arguments ask for, and gives the exit status. -/
def run [Parser] [Toml.Library] {m : Type → Type} [Monad m] [Host m] (args : List Text) : m Nat := do
  match Parser.read args with
  | .ok command => command.perform
  | .error .misuse =>
    Host.notify (Parser.text args .misuse)
    return 2
  | .error stop =>
    Host.print (Parser.text args stop)
    return 0

/-! ### Texts and words -/

def versionText : Text := "stella 0.1.0\n".toList

def usageText : Text :=
  ("Usage: stella [-v] tp FILE [-o PATH] [--tab-size N]\n" ++
    "       stella [-v] check FILE\n" ++
    "       stella [-v] new NAME\n" ++
    "       stella [-v] build [DIR] [--tab-size N]\n" ++
    "       stella [-v] run [DIR]\n").toList

/-- The first argument of a command, which also tells the rest that it takes. -/
inductive Verb where
  | tp | check | new | build | run
  deriving DecidableEq, Repr

namespace Verb

def ofText? (t : Text) : Option Verb :=
  [("tp", tp), ("check", check), ("new", new), ("build", build), ("run", run)].findSome?
    fun (word, verb) => if word.toList = t then some verb else none

def takesOutput (verb : Verb) : Bool := verb = tp

def takesTabSize (verb : Verb) : Bool := verb = tp ∨ verb = build

end Verb

/-- An option with a value. -/
inductive Setting where
  | output | tabSize
  deriving DecidableEq, Repr

def Verb.takes (verb : Verb) : Setting → Bool
  | .output => verb.takesOutput
  | .tabSize => verb.takesTabSize

/-- The operand and the options of a command; none may be given twice. -/
structure Given where
  operand? : Option Text := none
  output? : Option Text := none
  tabSize? : Option Nat := none

/-- A number of columns: digits, with a plus sign if one likes, in 64 bits. -/
def columns? (t : Text) : Option Nat := Text.toNatBelow? Text.wordSize ((t.after? "+").getD t)

namespace Given

/-- A name may be empty, unlike a path. -/
def addOperand (verb : Verb) (given : Given) (value : Text) : Except Stop Given :=
  if given.operand?.isSome ∨ value = [] ∧ verb ≠ .new then .error .misuse
  else .ok { given with operand? := some value }

def set (given : Given) : Setting → Text → Except Stop Given
  | .output, value =>
    if given.output?.isSome ∨ value = [] then .error .misuse
    else .ok { given with output? := some value }
  | .tabSize, value =>
    match given.tabSize?, columns? value with
    | none, some n => .ok { given with tabSize? := some n }
    | _, _ => .error .misuse

end Given

/-! ### One argument -/

/-- An argument that only switches has no value; an option brings its value along or leaves it to the
next argument. -/
inductive Switch where
  | done
  | setting (setting : Setting) (value? : Option Text)

/-- The letters of an argument after its hyphen. What follows an option is its value, and an equals
sign before it does not count. -/
def readLetters (verb : Verb) : Text → Except Stop Switch
  | [] => .ok .done
  | c :: rest =>
    if c = 'v' then readLetters verb rest
    else if c = 'h' then .error .help
    else if c = 'o' ∧ verb.takesOutput then
      match rest with
      | [] => .ok (.setting .output none)
      | '=' :: value => .ok (.setting .output (some value))
      | value => .ok (.setting .output (some value))
    else .error .misuse

/-- An argument after its two hyphens. -/
def readWord (verb : Verb) (t : Text) : Except Stop Switch :=
  let (word, value?) := match t.cut? '=' with
    | some (word, value) => (word, some value)
    | none => (t, none)
  if word = "verbose".toList ∧ value? = none then .ok .done
  else if word = "help".toList ∧ value? = none then .error .help
  else if word = "output".toList ∧ verb.takes .output then .ok (.setting .output value?)
  else if word = "tab-size".toList ∧ verb.takes .tabSize then .ok (.setting .tabSize value?)
  else .error .misuse

/-- The argument starts like an option; a hyphen alone does not. -/
def isOption : Text → Bool
  | '-' :: _ :: _ => true
  | _ => false

/-! ### All arguments -/

/-- The arguments after a verb. -/
def readRest (verb : Verb) (given : Given) : List Text → Except Stop Given
  | [] => .ok given
  | arg :: rest =>
    if arg = ['-', '-'] then rest.foldlM (Given.addOperand verb) given
    else if !isOption arg then do
      let given ← given.addOperand verb arg
      readRest verb given rest
    else do
      let switch ← match arg.after? "--" with
        | some word => readWord verb word
        | none => readLetters verb (arg.drop 1)
      match switch with
      | .done => readRest verb given rest
      | .setting setting (some value) => do
        let given ← given.set setting value
        readRest verb given rest
      | .setting setting none =>
        match rest with
        | [] => .error .misuse
        | value :: rest =>
          if isOption value then .error .misuse
          else do
            let given ← given.set setting value
            readRest verb given rest

/-- The command of a verb, if it has the operand that it needs. -/
def command (verb : Verb) (given : Given) : Except Stop Command :=
  match verb, given.operand? with
  | .tp, some file =>
    .ok (.transpile file given.output? (given.tabSize?.getD Command.defaultTabSize))
  | .check, some file => .ok (.check file)
  | .new, some name => .ok (.create name)
  | .build, operand? => .ok (.build (operand?.getD ['.']) given.tabSize?)
  | .run, operand? => .ok (.run (operand?.getD ['.']))
  | _, none => .error .misuse

/-- The letters of an argument before the verb. -/
def readEarlyLetters : Text → Except Stop Unit
  | [] => .ok ()
  | c :: rest =>
    if c = 'v' then readEarlyLetters rest
    else if c = 'h' then .error .help
    else if c = 'V' then .error .version
    else .error .misuse

/-- The command that the arguments ask for. -/
def read : List Text → Except Stop Command
  | [] => .error .misuse
  | arg :: rest =>
    match Verb.ofText? arg with
    | some verb => readRest verb {} rest >>= command verb
    | none =>
      if arg = "help".toList then
        match rest with
        | [] => .error .help
        | [word] =>
          .error (if (Verb.ofText? word).isSome ∨ word = "help".toList then .help else .misuse)
        | _ => .error .misuse
      else if arg = "--verbose".toList then read rest
      else if arg = "--help".toList then .error .help
      else if arg = "--version".toList then .error .version
      else if isOption arg ∧ arg.after? "--" = none then do
        readEarlyLetters (arg.drop 1)
        read rest
      else .error .misuse

instance : Parser where
  read := read
  text
    | _, .version => versionText
    | _, _ => usageText

end StellaGo.CommandLine
