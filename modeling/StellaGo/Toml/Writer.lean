import StellaGo.Toml.Document
import StellaGo.Toml.Library

/-! Documents of TOML, written: sections with a blank line between them, and in a section one line
for each key, if its string has one line. With the reader of documents this makes a library. -/

namespace StellaGo.Toml

/-- A string, or a number in 63 bits. Other values are not written. -/
def writeValue? : Value → Option Text
  | .string text => some (quote text)
  | .integer n => (n.toNat?.filter (· < Text.signBound)).map Text.ofNat
  | _ => none

/-- The lines below a header. -/
def writePairs? : Entries → Option Text
  | [] => some []
  | (key, value) :: rest => do
    let value ← writeValue? value
    let lines ← writePairs? rest
    some (key ++ " = ".toList ++ value ++ '\n' :: lines)

def writeSection? : Text × Value → Option Text
  | (name, .table _ entries) => (writePairs? entries).map ('[' :: name ++ "]\n".toList ++ ·)
  | _ => none

/-- A document whose table has sections only. -/
def write? (root : Entries) : Option Text :=
  (root.mapM writeSection?).map (List.intercalate ['\n'])

instance : Library where
  read? := document?
  write? := write?

end StellaGo.Toml
