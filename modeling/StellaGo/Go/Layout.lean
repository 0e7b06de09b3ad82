import StellaGo.Block

/-! Layout of generated code: every line is indented by the number of braces open before it, a line
that starts with `}` by one less, and blank lines in a row become one. -/

namespace StellaGo.Go

/-- The laid out lines, given the number of open braces and whether blank lines are to be dropped
here, as they are at the beginning and behind another blank line. -/
def layoutFrom (tabSize : Nat) : (depth : Nat) → (dropBlank : Bool) → List Text → List Text
  | _, _, [] => []
  | depth, dropBlank, line :: rest =>
    if line.trim = [] then
      if dropBlank then layoutFrom tabSize depth true rest
      else [] :: layoutFrom tabSize depth true rest
    else
      let (opened, closed) := line.trim.braces
      let indent := if line.trim.startsWith '}' then depth - 1 else depth
      (List.replicate (indent * tabSize) ' ' ++ line.trim) ::
        layoutFrom tabSize (depth + opened - closed) false rest

/-- The code indented by `tabSize` blanks a level. -/
def layout (tabSize : Nat) (code : Text) : Text :=
  Text.unlines (layoutFrom tabSize 0 true code.lines)

end StellaGo.Go
