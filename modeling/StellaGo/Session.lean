import StellaGo.Scope
import StellaGo.Requirements

/-! A session declares and looks up names in scopes that are entered and left, and notes what the
types read in it need. The innermost scope is the one in which names are declared and looked up. -/

namespace StellaGo

structure Session where
  scope : Scope
  /-- The scopes around the innermost one, the last entered first. -/
  outer : List Scope
  requirements : Requirements

namespace Session

def start : Session := ⟨.global, [], .empty⟩

def enter (s : Session) (kind : ScopeKind) : Session :=
  { s with scope := s.scope.enter kind, outer := s.scope :: s.outer }

/-- The first scope is never left. -/
def leave (s : Session) : Session :=
  match s.outer with
  | [] => s
  | scope :: outer => { s with scope := scope, outer := outer }

def declare (s : Session) (d : Descriptor) : Check Session := do
  return { s with scope := ← s.scope.declare d }

def readType (s : Session) (t : Text) : Check ValueType × Session :=
  let (result, requirements) := s.requirements.readType t
  (result, { s with requirements := requirements })

end Session

end StellaGo
