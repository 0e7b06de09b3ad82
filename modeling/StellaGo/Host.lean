import StellaGo.FileTree

/-! What a program needs from the machine that it runs on: files, two streams of text, and the `go`
tool. Also defined here: a machine whose files are a tree, for which every run is a function. -/

namespace StellaGo

/-- What the `go` tool is asked to do with a module. -/
inductive GoAction where
  | build | run
  deriving DecidableEq, Repr

def GoAction.name : GoAction → String
  | build => "build"
  | run => "run"

/-- The operations of a machine. -/
class Host (m : Type → Type) where
  read : (path : Text) → m (Except FileFault Text)
  write : (path text : Text) → m (Except FileFault Unit)
  makeDirectory : (path : Text) → m (Except FileFault Unit)
  /-- What stands at a path, if anything does. -/
  kind? : (path : Text) → m (Option Node.Kind)
  /-- Adds to the output. -/
  print : Text → m Unit
  /-- Adds to the messages for the user. -/
  notify : Text → m Unit
  /-- Runs `go build .` or `go run .` in a directory, and gives the exit status. -/
  go : GoAction → (directory : Text) → m (Except FileFault Nat)

/-- Steps that may fail run on the same machine. -/
instance {ε : Type} {m : Type → Type} [Monad m] [Host m] : Host (ExceptT ε m) where
  read path := ExceptT.lift (Host.read path)
  write path text := ExceptT.lift (Host.write path text)
  makeDirectory path := ExceptT.lift (Host.makeDirectory path)
  kind? path := ExceptT.lift (Host.kind? path)
  print text := ExceptT.lift (Host.print text)
  notify text := ExceptT.lift (Host.notify text)
  go action directory := ExceptT.lift (Host.go action directory)

/-- A machine with a tree of files. Its `go` tool, if there is one, prints a text and gives an exit
status, and leaves the files as they are. -/
structure Machine where
  files : FileTree
  output : Text := []
  messages : Text := []
  go? : Option (GoAction → Place → Text × Nat) := none

namespace Machine

/-- Changes the files unless that fails. -/
def onFiles (change : FileTree → Except FileFault FileTree) : StateM Machine (Except FileFault Unit) :=
  fun machine => match change machine.files with
    | .ok files => (.ok (), { machine with files })
    | .error fault => (.error fault, machine)

/-- Runs the `go` tool in a directory. -/
def runGo (action : GoAction) (directory : Text) : StateM Machine (Except FileFault Nat) :=
  fun machine => match machine.files.find directory, machine.go? with
    | .error fault, _ => (.error fault, machine)
    | .ok (_, .file _), _ => (.error .notDirectory, machine)
    | .ok (_, .directory), none => (.error .notFound, machine)
    | .ok (place, .directory), some go =>
      let (text, status) := go action place
      (.ok status, { machine with output := machine.output ++ text })

instance : Host (StateM Machine) where
  read path := do return (← get).files.read path
  write path text := onFiles (·.write path text)
  makeDirectory path := onFiles (·.makeDirectory path)
  kind? path := do return (← get).files.kind? path
  print text := modify fun machine => { machine with output := machine.output ++ text }
  notify text := modify fun machine => { machine with messages := machine.messages ++ text }
  go := runGo

end Machine

end StellaGo
