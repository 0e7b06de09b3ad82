import StellaGo.Toml.Value

/-! What a program needs from a library for TOML: it reads documents and writes them. -/

namespace StellaGo.Toml

/-- The operations of a library. -/
class Library where
  /-- The table of a document, if the text is one. -/
  read? : (text : Text) → Option Entries
  /-- The text of a document with this table, if it has one. -/
  write? : (root : Entries) → Option Text

/-- The table of a document in sections: each one is a table under its name. -/
def Entries.ofSections (sections : List (Text × Entries)) : Entries :=
  sections.map fun (name, entries) => (name, .table .header entries)

end StellaGo.Toml
