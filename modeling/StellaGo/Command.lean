import StellaGo.Diagnostic
import StellaGo.Host
import StellaGo.Manifest

/-! The commands of the program: compiling a file, checking one, creating a package, and building or
running it with the `go` tool. A command asks its host for all that it reads and writes, and it
compiles before it writes anything. -/

namespace StellaGo

inductive Command where
  /-- Compile a file. The code goes to the output path, or for `-` to the output. -/
  | transpile (file : Text) (output? : Option Text) (tabSize : Nat)
  | check (file : Text)
  | create (name : Text)
  | build (directory : Text) (tabSize? : Option Nat)
  | run (directory : Text)
  deriving DecidableEq, Repr

inductive CommandFault where
  | access (path : Text) (fault : FileFault)
  | noManifest (directory : Text)
  | unreadManifest (path : Text) (fault : FileFault)
  | badManifest (path : Text)
  | unwrittenManifest
  | compile (path source : Text) (error : CompileError)
  | taken (path : Text)
  | badName (name : Text)
  | noGo (fault : FileFault)
  | goFailed (action : GoAction) (status : Nat)

namespace CommandFault

def message : CommandFault → String
  | access path fault => s!"failed to access {String.ofList path}: {fault.message}"
  | noManifest directory => s!"no stella.toml found in {String.ofList directory}"
  | unreadManifest path fault => s!"failed to read {String.ofList path}: {fault.message}"
  | badManifest path => s!"failed to parse {String.ofList path}: it is no manifest in TOML"
  | unwrittenManifest => "failed to serialize manifest: it has no text in TOML"
  | compile path _ error => s!"{String.ofList path} failed to compile: {error.display}"
  | taken path => s!"{String.ofList path} already exists"
  | badName name => s!"{name.quoted} is not a valid package name"
  | noGo fault => s!"could not start `go`; is the Go toolchain installed? ({fault.message})"
  | goFailed action status => s!"`go {action.name} .` exited with exit status: {status}"

/-- What the user is told of a fault. A compile error comes as its diagnostic. -/
def report : CommandFault → String
  | compile path source error =>
    let diagnostic := Diagnostic.ofError source error
    let help := match diagnostic.help? with
      | some help => s!"  help: {help}\n"
      | none => ""
    s!"{diagnostic.display}\n  in {String.ofList path}: {diagnostic.label.text}\n{help}"
  | fault => s!"error: {fault.message}\n"

end CommandFault

/-- A package is named by an ASCII letter and then letters, digits, `_` and `-`. -/
def isPackageName : Text → Bool
  | [] => false
  | c :: rest => c.isAlpha && rest.all fun c => c.isAlphanum || c == '_' || c == '-'

namespace Command

def defaultTabSize : Nat := 2

/-- The main file of a new package. -/
def greeting : Text :=
  Text.block "function main() -> IO =" ["    println!(\"Hello, world!\")".toList] ++ ['\n']

/-- The output of a file unless another is given. -/
def defaultOutput (file : Text) : Text := Path.withExtension "go".toList file

variable {m : Type → Type} [Monad m] [Host m]

/-! ### Files -/

/-- Makes a directory if there is none. -/
def ensureDirectory (path : Text) : m (Except FileFault Unit) := do
  match ← Host.makeDirectory path with
  | .ok () => return .ok ()
  | .error fault =>
    return if (← Host.kind? path) = some .directory then .ok () else .error fault

/-- Makes a directory and those above it that are missing. -/
def ensureDirectories (path : Text) : m (Except FileFault Unit) := do
  if path = [] then return .ok ()
  match ← ensureDirectory path with
  | .error .notFound =>
    match _h : Path.parent? path with
    | none => return .error .notFound
    | some above =>
      match ← ensureDirectories above with
      | .ok () => ensureDirectory path
      | .error fault => return .error fault
  | result => return result
termination_by path.length
decreasing_by exact Path.length_parent?_lt _h

/-- An operation on the file at a path, as a step of a command. -/
def accessing {α : Type} (path : Text) (action : m (Except FileFault α)) :
    ExceptT CommandFault m α :=
  ExceptT.mk ((·.mapError (.access path)) <$> action)

def writeOutput (path text : Text) : ExceptT CommandFault m Unit := do
  if let some directory := Path.parent? path then
    accessing directory (ensureDirectories directory)
  accessing path (Host.write path text)

/-! ### Compiling, and the tool for Go -/

def compileFile (path : Text) (tabSize : Nat) : ExceptT CommandFault m Text := do
  let source ← accessing path (Host.read path)
  match StellaGo.compile source tabSize with
  | .ok code => return code
  | .error error => throw (.compile path source error)

def runGo (directory : Text) (action : GoAction) : ExceptT CommandFault m Unit := do
  match ← Host.go action directory with
  | .error fault => throw (.noGo fault)
  | .ok status => if status ≠ 0 then throw (.goFailed action status)

/-! ### Packages -/

variable [Toml.Library]

def loadManifest (directory : Text) : ExceptT CommandFault m Manifest := do
  let path := Path.join directory Manifest.fileName
  if (← Host.kind? path) ≠ some .file then throw (.noManifest directory)
  match ← Host.read path with
  | .error fault => throw (.unreadManifest path fault)
  | .ok text =>
    match Manifest.ofToml? text with
    | none => throw (.badManifest path)
    | some manifest => return manifest

/-- Compiles the entry of a package into its Go module, which is declared unless it is already, and
gives the directory of the module. -/
def transpilePackage (root : Text) (tabSize? : Option Nat) : ExceptT CommandFault m Text := do
  let manifest ← loadManifest root
  let code ← compileFile (manifest.entryPath root) (tabSize?.getD manifest.tabSize)
  let directory := manifest.outPath root
  let declaration := Path.join directory "go.mod".toList
  if (← Host.kind? declaration).isNone then
    writeOutput declaration (Manifest.goMod manifest.name)
  writeOutput (Path.join directory "main.go".toList) code
  return directory

/-- Makes a package with a manifest, a main file and a declared Go module, and gives its path. -/
def createPackage (name : Text) : ExceptT CommandFault m Text := do
  if !isPackageName name then throw (.badName name)
  let root := Path.join ['.'] name
  if (← Host.kind? root).isSome then throw (.taken root)
  let manifest : Manifest := { name }
  let some declared := manifest.toToml? | throw .unwrittenManifest
  writeOutput (Path.join root Manifest.fileName) declared
  writeOutput (manifest.entryPath root) greeting
  writeOutput (Path.join (manifest.outPath root) "go.mod".toList) (Manifest.goMod name)
  return root

/-! ### Commands -/

def execute : Command → ExceptT CommandFault m Unit
  | transpile file output? tabSize => do
    let code ← compileFile file tabSize
    match output? with
    | some ['-'] => Host.print code
    | some path => writeOutput path code
    | none => writeOutput (defaultOutput file) code
  | check file => do
    let _ ← compileFile file defaultTabSize
    Host.notify (file ++ ": ok\n".toList)
  | create name => do
    let root ← createPackage name
    Host.notify ("Created package `".toList ++ name ++ "` at ".toList ++ root ++ ['\n'])
  | build directory tabSize? => do
    let path ← transpilePackage directory tabSize?
    runGo path .build
  | run directory => do
    let path ← transpilePackage directory none
    runGo path .run

/-- Executes a command, reports its fault if there is one, and gives the exit status. -/
def perform (command : Command) : m Nat := do
  match ← (execute command).run with
  | .ok () => return 0
  | .error fault =>
    Host.notify fault.report.toList
    return 1

end Command

end StellaGo
