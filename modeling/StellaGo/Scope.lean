import StellaGo.Symbols

/-! Scopes: the file, a function, a clause of a selection, a loop. An inner scope starts with the
names of the scope around it and keeps its own to itself. -/

namespace StellaGo

inductive ScopeKind where
  | global | function | selection | loop
  deriving DecidableEq, Repr

structure Scope where
  kind : ScopeKind
  /-- The kinds of the scopes around this one, the innermost first. -/
  enclosing : List ScopeKind
  symbols : Symbols
  /-- What the function returns whose body this is. -/
  returns? : Option ValueType
  deriving DecidableEq, Repr

namespace Scope

def global : Scope := ⟨.global, [], .empty, none⟩

def enter (s : Scope) (kind : ScopeKind) : Scope := ⟨kind, s.kind :: s.enclosing, s.symbols, none⟩

def depth (s : Scope) : Nat := s.enclosing.length

/-- A loop comes before a function or the file, going outwards. -/
def loopComesFirst : List ScopeKind → Bool
  | [] => false
  | .loop :: _ => true
  | .selection :: outer => loopComesFirst outer
  | .function :: _ => false
  | .global :: _ => false

def insideLoop (s : Scope) : Bool := loopComesFirst (s.kind :: s.enclosing)

def declare (s : Scope) (d : Descriptor) : Check Scope := do
  return { s with symbols := ← s.symbols.declare d }

end Scope

end StellaGo
