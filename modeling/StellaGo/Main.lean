import StellaGo.CommandLine

/-! The program: the command line on the files and streams of the machine. Other programs are not
started from here, so the `go` tool is left to the user. -/

namespace StellaGo

/-- The cause of a failed operation. -/
def FileFault.ofError : IO.Error → FileFault
  | .noFileOrDirectory _ _ _ => .notFound
  | .alreadyExists _ _ _ => .alreadyExists
  | .inappropriateType _ code _ => if code = 21 then .isDirectory else .notDirectory
  | .invalidArgument _ 36 _ => .nameTooLong
  | e => .other (toString e)

/-- Runs an operation on a path. -/
def onPath {α : Type} (path : Text) (action : String → IO (Except FileFault α)) :
    IO (Except FileFault α) := do
  if path.contains '\x00' then return .error .nulInName
  try action (String.ofList path)
  catch e => return .error (.ofError e)

instance : Host IO where
  read path := onPath path fun file => do
    match String.fromUTF8? (← IO.FS.readBinFile file) with
    | some text => return .ok text.toList
    | none => return .error .notText
  write path text := onPath path fun file => do
    IO.FS.writeFile file (String.ofList text)
    return .ok ()
  makeDirectory path := onPath path fun file => do
    IO.FS.createDir file
    return .ok ()
  kind? path := do
    let opened ← onPath path fun file => do return .ok (← IO.FS.Handle.mk file .read)
    match opened with
    | .error _ => return none
    | .ok handle =>
      -- a directory can be opened but not read
      try
        let _ ← handle.read 1
        return some .file
      catch _ => return some .directory
  print text := do
    (← IO.getStdout).putStr (String.ofList text)
  notify text := do
    (← IO.getStderr).putStr (String.ofList text)
  go _ _ := return .error (.other "not started by this program")

end StellaGo

def main (args : List String) : IO UInt32 := do
  let status ← StellaGo.CommandLine.run (m := IO) (args.map String.toList)
  return status.toUInt32
