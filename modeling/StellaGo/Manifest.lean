import StellaGo.Path
import StellaGo.Toml.Library

/-! The manifest of a package, `stella.toml`. Defined here: its fields with their defaults, how a
library for TOML reads and writes it, and the files that it names. -/

namespace StellaGo

/-- The name of the package, the source file of its main function, the directory of its Go module, and
the columns of one step of indentation there. Both paths are seen from the package. -/
structure Manifest where
  name : Text
  entry : Text := "src/main.stella".toList
  outDir : Text := "tp".toList
  tabSize : Nat := 2
  deriving DecidableEq, Repr

namespace Manifest

def fileName : Text := "stella.toml".toList

/-- Reads a field that may be missing. -/
def field? {α : Type} (read : Toml.Value → Option α) (default : α) : Option Toml.Value → Option α
  | none => some default
  | some value => read value

/-- Reads a manifest off a table. Only the name is required; fields that no manifest has are not
looked at. -/
def ofEntries? (root : Toml.Entries) : Option Manifest := do
  let package ← (← root.get? "package".toList).fields?
  let build ← field? Toml.Value.fields? (fun _ _ => none) (root.get? "build".toList)
  let name ← (← package 0 "name".toList).text?
  let entry ← field? Toml.Value.text? "src/main.stella".toList (package 1 "entry".toList)
  let outDir ← field? Toml.Value.text? "tp".toList (build 0 "out_dir".toList)
  let tabSize ← field? Toml.Value.natural? 2 (build 1 "tab_size".toList)
  some { name, entry, outDir, tabSize }

/-- The sections of a manifest. -/
def sections (manifest : Manifest) : List (Text × Toml.Entries) :=
  [("package".toList,
      [("name".toList, .string manifest.name), ("entry".toList, .string manifest.entry)]),
    ("build".toList,
      [("out_dir".toList, .string manifest.outDir),
        ("tab_size".toList, .integer manifest.tabSize)])]

section

variable [Toml.Library]

/-- Reads a manifest in TOML. -/
def ofToml? (t : Text) : Option Manifest := Toml.Library.read? t >>= ofEntries?

/-- A manifest in TOML, if it has a text there. -/
def toToml? (manifest : Manifest) : Option Text :=
  Toml.Library.write? (.ofSections manifest.sections)

end

/-- The source file of a package. -/
def entryPath (manifest : Manifest) (root : Text) : Text := Path.join root manifest.entry

/-- The directory of the Go module of a package. -/
def outPath (manifest : Manifest) (root : Text) : Text := Path.join root manifest.outDir

/-- The file that declares the Go module. -/
def goMod (name : Text) : Text := "module ".toList ++ name ++ "\n\ngo 1.21.1\n".toList

end Manifest

end StellaGo
