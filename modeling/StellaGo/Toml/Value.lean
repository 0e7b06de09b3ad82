import StellaGo.Text

/-! Values of a TOML document. Defined here: tables as lists of entries in the order in which they
were written, and the two ways in which a document adds to a table: a value under a dotted key, and a
table that a header opens. No key is given twice. -/

namespace StellaGo.Toml

/-- How a table came to be, which decides what may still be added to it. -/
inductive Origin where
  /-- Written in braces: complete. -/
  | inline
  /-- Opened by its own header. -/
  | header
  /-- Named only on the way to a deeper header. -/
  | above
  /-- Named on the way through a dotted key. -/
  | dotted
  deriving DecidableEq, Repr

/-- A value. The content of a float and of a date or time is not kept. -/
inductive Value where
  | string (text : Text)
  | integer (n : Int)
  | float
  | boolean (b : Bool)
  | dateTime
  | array (items : List Value)
  | table (origin : Origin) (entries : List (Text × Value))
  /-- The tables under a header in double brackets, the last one first. -/
  | tables (last : List (Text × Value)) (before : List (List (Text × Value)))

/-- The content of a table. -/
abbrev Entries := List (Text × Value)

/-- A dotted key: the tables on its way, and its last part. -/
structure Key where
  path : List Text
  last : Text
  deriving DecidableEq, Repr

namespace Entries

def get? (entries : Entries) (key : Text) : Option Value := entries.lookup key

/-- Replaces the value under a key, or adds one at the end, unless `change` refuses. -/
def update? (key : Text) (change : Option Value → Option Value) : Entries → Option Entries
  | [] => (change none).map fun value => [(key, value)]
  | (k, old) :: rest =>
    if k = key then (change (some old)).map fun value => (k, value) :: rest
    else (update? key change rest).map ((k, old) :: ·)

/-- Adds a value under a key that has none. -/
def add? (key : Text) (value : Value) : Entries → Option Entries :=
  update? key fun old => if old.isSome then none else some value

/-- Adds a value under a dotted key. The tables on the way are made where they are missing; a table
that is written in braces or has a header of its own is not added to, and the last of the way must
stem from a dotted key itself. -/
def put? (value : Value) (last : Text) : List Text → Entries → Option Entries
  | [], entries => entries.add? last value
  | k :: path, entries => entries.update? k fun
    | none => (put? value last path []).map (.table .dotted)
    | some (.table .dotted inner) => (put? value last path inner).map (.table .dotted)
    | some (.table .above inner) =>
      if path = [] then none else (put? value last path inner).map (.table .above)
    | some (.tables inner before) =>
      if path = [] then none else (put? value last path inner).map (.tables · before)
    | some _ => none

/-- Changes the table to which the parts of a header lead: of tables in double brackets the last one.
Missing tables are made. -/
def within? (change : Entries → Option Entries) : List Text → Entries → Option Entries
  | [], entries => change entries
  | k :: path, entries => entries.update? k fun
    | none => (within? change path []).map (.table .above)
    | some (.table .inline _) => none
    | some (.table origin inner) => (within? change path inner).map (.table origin)
    | some (.tables inner before) => (within? change path inner).map (.tables · before)
    | some _ => none

/-- Opens the table of a header. Only a table that was on the way to another header may exist. -/
def openTable? (key : Key) : Entries → Option Entries :=
  within? (update? key.last fun
    | none => some (.table .header [])
    | some (.table .above inner) => some (.table .header inner)
    | some _ => none) key.path

/-- Opens the next table of a header in double brackets. -/
def openNext? (key : Key) : Entries → Option Entries :=
  within? (update? key.last fun
    | none => some (.tables [] [])
    | some (.tables last before) => some (.tables [] (last :: before))
    | some _ => none) key.path

end Entries

/-- Adds a value under its key. -/
def Entries.putPair? (entries : Entries) (pair : Key × Value) : Option Entries :=
  entries.put? pair.2 pair.1.last pair.1.path

/-- The value of a table written in braces. -/
def Value.ofPairs? (pairs : List (Key × Value)) : Option Value :=
  (pairs.foldlM Entries.putPair? []).map (.table .inline)

/-- A field of a record: a table holds it under its name, an array at its place; a date or time is a
record without any. Other values are no record. -/
def Value.fields? : Value → Option (Nat → Text → Option Value)
  | .table _ entries => some fun _ name => Entries.get? entries name
  | .array items => some fun i _ => items[i]?
  | .dateTime => some fun _ _ => none
  | _ => none

def Value.text? : Value → Option Text
  | .string text => some text
  | _ => none

def Value.natural? : Value → Option Nat
  | .integer n => n.toNat?
  | _ => none

end StellaGo.Toml
