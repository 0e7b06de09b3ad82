import StellaGo.Text

/-! A tree of files and directories. Defined here: how a path is resolved in a tree, reading and
writing a file, making a directory, and the faults of these operations. Proved: writing at a place
changes what stands there and nothing else. -/

namespace StellaGo

/-- Why an operation on files fails. -/
inductive FileFault where
  | notFound
  | alreadyExists
  | notDirectory
  | isDirectory
  | nameTooLong
  | notText
  | nulInName
  /-- A fault of the machine that a tree does not have, in its own words. -/
  | other (message : String)
  deriving DecidableEq, Repr

def FileFault.message : FileFault → String
  | notFound => "No such file or directory (os error 2)"
  | alreadyExists => "File exists (os error 17)"
  | notDirectory => "Not a directory (os error 20)"
  | isDirectory => "Is a directory (os error 21)"
  | nameTooLong => "File name too long (os error 36)"
  | notText => "stream did not contain valid UTF-8"
  | nulInName => "file name contained an unexpected NUL byte"
  | other message => message

/-- The names on the way from the root of a tree, the last one first; the root itself is `[]`. -/
abbrev Place := List Text

/-- What stands at a place. A file whose bytes are not UTF-8 has no text. -/
inductive Node where
  | directory
  | file (text? : Option Text)
  deriving DecidableEq, Repr

inductive Node.Kind where
  | directory
  | file
  deriving DecidableEq, Repr

def Node.kind : Node → Node.Kind
  | .directory => .directory
  | .file _ => .file

/-- The nodes by their places, and the directory from which relative paths start. -/
structure FileTree where
  nodes : List (Place × Node)
  here : Place
  deriving DecidableEq, Repr

namespace FileTree

def node? (tree : FileTree) (place : Place) : Option Node :=
  if place = [] then some .directory else tree.nodes.lookup place

/-- Puts a node at a place in the stead of what stands there. -/
def put (tree : FileTree) (place : Place) (node : Node) : FileTree :=
  { tree with nodes := (place, node) :: tree.nodes.filter (·.1 ≠ place) }

/-- Puts a node at a place, and directories at the places above it. -/
def plant (tree : FileTree) : Place → Node → FileTree
  | [], _ => tree
  | name :: above, node => (tree.plant above .directory).put (name :: above) node

/-- The nodes below the working directory, each under its names from there. -/
def listing (tree : FileTree) : List (List Text × Node) :=
  tree.nodes.filterMap fun (place, node) =>
    let depth := place.length - tree.here.length
    if place.drop depth = tree.here ∧ depth ≠ 0 then some ((place.take depth).reverse, node) else none

theorem node?_put_self {tree : FileTree} {place : Place} (node : Node) (h : place ≠ []) :
    (tree.put place node).node? place = some node := by
  simp [node?, put, h]

theorem lookup_filter_ne {place other : Place} (h : other ≠ place) (nodes : List (Place × Node)) :
    (nodes.filter (·.1 ≠ place)).lookup other = nodes.lookup other := by
  induction nodes with
  | nil => rfl
  | cons entry nodes ih =>
    obtain ⟨p, node⟩ := entry
    by_cases hp : p = place
    · have hb : (other == p) = false := beq_eq_false_iff_ne.2 (hp ▸ h)
      rw [List.filter_cons_of_neg (by simp [hp]), List.lookup_cons, hb]
      exact ih
    · rw [List.filter_cons_of_pos (by simp [hp]), List.lookup_cons, List.lookup_cons, ih]

theorem node?_put_of_ne {tree : FileTree} {place other : Place} (node : Node) (h : other ≠ place) :
    (tree.put place node).node? other = tree.node? other := by
  have hb : (other == place) = false := beq_eq_false_iff_ne.2 h
  simp only [node?, put, List.lookup_cons, hb]
  rw [lookup_filter_ne h]

/-! ### Resolving a path -/

def nameLimit : Nat := 255

def pathLimit : Nat := 4096

def checkName (name : Text) : Except FileFault Unit :=
  if nameLimit < Text.byteSize name then .error .nameTooLong else .ok ()

/-- The directory to which names lead from a place. -/
def walk (tree : FileTree) : Place → List Text → Except FileFault Place
  | place, [] => .ok place
  | place, name :: names =>
    if name = ['.'] then walk tree place names
    else if name = ['.', '.'] then walk tree place.tail names
    else do
      checkName name
      match tree.node? (name :: place) with
      | none => .error .notFound
      | some (.file _) => .error .notDirectory
      | some .directory => walk tree (name :: place) names

/-- What a path names: a directory that is known to exist, or a name in one. -/
inductive Target where
  | directory (place : Place)
  /-- A slash at the end asks for a directory. -/
  | name (name : Text) (above : Place) (slash : Bool)

/-- Resolves all of a path but its last name. -/
def target (tree : FileTree) (path : Text) : Except FileFault Target :=
  if path.contains '\x00' then .error .nulInName
  else if path = [] then .error .notFound
  else if pathLimit ≤ Text.byteSize path then .error .nameTooLong
  else do
    let names := (path.splitOn '/').filter (· ≠ [])
    let start := if path.startsWith '/' then [] else tree.here
    match names.getLast? with
    | none => .ok (.directory start)
    | some last =>
      if last = ['.'] ∨ last = ['.', '.'] then .directory <$> walk tree start names
      else (.name last · (path.endsWith '/')) <$> walk tree start names.dropLast

/-- The place of a path, and what stands there. -/
def find (tree : FileTree) (path : Text) : Except FileFault (Place × Node) := do
  match ← tree.target path with
  | .directory place => .ok (place, .directory)
  | .name name above slash =>
    checkName name
    match tree.node? (name :: above) with
    | none => .error .notFound
    | some .directory => .ok (name :: above, .directory)
    | some (.file text?) =>
      if slash then .error .notDirectory else .ok (name :: above, .file text?)

/-! ### Operations -/

/-- What kind of node a path leads to, if to any. -/
def kind? (tree : FileTree) (path : Text) : Option Node.Kind :=
  match tree.find path with
  | .ok (_, node) => some node.kind
  | .error _ => none

def read (tree : FileTree) (path : Text) : Except FileFault Text := do
  match ← tree.find path with
  | (_, .directory) => .error .isDirectory
  | (_, .file none) => .error .notText
  | (_, .file (some text)) => .ok text

/-- Writes a file, which is made if it is missing. -/
def write (tree : FileTree) (path text : Text) : Except FileFault FileTree := do
  match ← tree.target path with
  | .directory _ => .error .isDirectory
  | .name name above slash =>
    if slash then .error .isDirectory
    else
      checkName name
      if tree.node? (name :: above) = some .directory then .error .isDirectory
      else .ok (tree.put (name :: above) (.file (some text)))

def makeDirectory (tree : FileTree) (path : Text) : Except FileFault FileTree := do
  match ← tree.target path with
  | .directory _ => .error .alreadyExists
  | .name name above _ =>
    checkName name
    if (tree.node? (name :: above)).isSome then .error .alreadyExists
    else .ok (tree.put (name :: above) .directory)

end FileTree

end StellaGo
