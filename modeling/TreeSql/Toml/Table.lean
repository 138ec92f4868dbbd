/-
  TreeSql.Toml.Table — TOML tables, and what may be added to them.

  Every key is defined once. A table is defined by a header, by a value in braces or by dotted keys,
  and each kind has its own rule for being extended: a header may pass through any table that is not
  in braces, dotted keys only through tables that dotted keys made. A table that only stood on the
  way to another header can still get a header of its own.
-/
namespace TreeSql.Toml

/-- How a table came to be. -/
inductive TableKind where
  | header
  /-- It stands on the way to a header. -/
  | implied
  | dotted
  /-- In braces. -/
  | inline
deriving DecidableEq

inductive Item where
  | text (s : String)
  | integer (i : Int)
  | boolean (b : Bool)
  /-- A float, a date or time, or an array. Nothing reads their content. -/
  | other
  | table (kind : TableKind) (entries : List (String × Item))
  /-- The tables under a header in double brackets, in order. -/
  | tables (tables : List (List (String × Item)))

abbrev Entries := List (String × Item)

namespace Entries

/-- The entries with another item for a key. -/
def put (entries : Entries) (key : String) (item : Item) : Entries :=
  entries.map fun e => if e.1 == key then (key, item) else e

/-- The entries with a new key at the end; none if the key is taken. -/
def define? (entries : Entries) (key : String) (item : Item) : Option Entries :=
  if (entries.lookup key).isSome then none else some (entries ++ [(key, item)])

/-! ## Paths -/

/-- Changes the table at the end of a path. Tables that are missing on the way are made, of the last
    table under double brackets the path goes on. -/
def atPath (dotted : Bool) (change : TableKind → Entries → Option Entries) :
    (path : List String) → TableKind → Entries → Option Entries
  | [], kind, entries => change kind entries
  | key :: path, _, entries =>
    let fresh : TableKind := if dotted then .dotted else .implied
    match entries.lookup key with
    | none => do
      let inner ← atPath dotted change path fresh []
      return entries ++ [(key, .table fresh inner)]
    | some (.table kind inner) =>
      if kind = .inline ∨ dotted = true ∧ kind = .header then none
      else do return entries.put key (.table kind (← atPath dotted change path kind inner))
    | some (.tables tables) => do
      let inner ← atPath dotted change path .header (← tables.getLast?)
      return entries.put key (.tables (tables.dropLast ++ [inner]))
    | some _ => none

/-- Splits a path into the way and the last key. -/
def splitLast? (path : List String) : Option (List String × String) :=
  path.getLast?.map fun key => (path.dropLast, key)

/-- Defines a key. A dotted key has to end in a table that dotted keys made. -/
def defineAt (path : List String) (item : Item) (kind : TableKind) (entries : Entries) :
    Option Entries := do
  let (way, key) ← splitLast? path
  atPath true (fun kind entries =>
    if !way.isEmpty ∧ kind ≠ .dotted then none else entries.define? key item) way kind entries

/-- Defines a key in the table under a header. -/
def defineUnder (header path : List String) (item : Item) (entries : Entries) : Option Entries :=
  atPath false (defineAt path item) header .header entries

/-! ## Headers -/

/-- Begins the table of a header. -/
def openTable (path : List String) (entries : Entries) : Option Entries := do
  let (way, key) ← splitLast? path
  atPath false (fun _ entries =>
    match entries.lookup key with
    | none => some (entries ++ [(key, .table .header [])])
    | some (.table .implied inner) => some (entries.put key (.table .header inner))
    | some _ => none) way .header entries

/-- Begins one more table of a header in double brackets. -/
def openNext (path : List String) (entries : Entries) : Option Entries := do
  let (way, key) ← splitLast? path
  atPath false (fun _ entries =>
    match entries.lookup key with
    | none => some (entries ++ [(key, .tables [[]])])
    | some (.tables tables) => some (entries.put key (.tables (tables ++ [[]])))
    | some _ => none) way .header entries

end Entries

end TreeSql.Toml
