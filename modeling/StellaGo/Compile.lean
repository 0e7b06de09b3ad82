import StellaGo.Comment
import StellaGo.Program
import StellaGo.Go.Program
import StellaGo.Go.Layout

/-! From source to Go: comments are removed, the program is read and checked, and its Go file is
written and laid out. -/

namespace StellaGo

/-- The program in a source without comments, and its Go file before it is laid out. -/
def transpile (source : Text) : Compile (Program × Text) := do
  let program ← Program.read source
  return (program, Go.file program)

/-- The Go file for a source, indented by `tabSize` blanks a level. -/
def compile (source : Text) (tabSize : Nat) : Compile Text := do
  let (_, code) ← transpile (Comment.strip source)
  return Go.layout tabSize code

end StellaGo
