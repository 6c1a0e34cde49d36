import PlacementTree.Datum

/-!
# Tables and how they are defined

A TOML document defines a table piece by piece, and every piece may be defined only once. Whether a table may still be extended
depends on how it came about (`Origin`): one that was only passed through on the way to another may get a header of its own
later; one made by dotted keys may be extended by dotted keys and passed through by headers; one with a header of its own, or an
element of a list of tables, is complete when its section ends.
-/

namespace PlacementTree.Toml

/-- How a table came about: by a header of its own, on the way of a longer header, or on the way of a dotted key. -/
inductive Origin where
  | stated | passed | dotted
  deriving DecidableEq, Repr

/-- What stands under a key: a value, a table, or a list of tables each with a header of its own. -/
inductive Item where
  | value (datum : Datum)
  | table (origin : Origin) (entries : List (String × Item))
  | tables (elements : List (List (String × Item)))

/-- The entries of a table. -/
abbrev Entries := List (String × Item)

/-- A key with the keys in front of its dots. -/
structure KeyPath where
  parents : List String
  name : String
  deriving DecidableEq, Repr

/-- All keys of a path. -/
def KeyPath.keys (p : KeyPath) : List String := p.parents ++ [p.name]

namespace Entries

/-- Change what stands under a key; a new key comes last. -/
def change (key : String) (f : Option Item → Option Item) : Entries → Option Entries
  | [] => (f none).map fun item => [(key, item)]
  | (k, item) :: rest =>
    if k = key then (f (some item)).map fun item => (k, item) :: rest
    else (change key f rest).map ((k, item) :: ·)

/-- Change the last element of a list of tables. -/
def changeLast (f : Entries → Option Entries) : List Entries → Option (List Entries)
  | [] => none
  | [last] => (f last).map ([·])
  | first :: rest => (changeLast f rest).map (first :: ·)

/-- Change the table at the end of a path. Tables on the way that do not exist yet are made; a list of tables is entered at its
last element. A value is no table, and dotted keys do not enter a table that has a header. -/
def within (byDots : Bool) (f : Origin → Entries → Option Entries) : List String → Origin → Entries → Option Entries
  | [], origin, entries => f origin entries
  | key :: path, _, entries =>
    entries.change key fun
      | none =>
        let origin := if byDots then Origin.dotted else Origin.passed
        (within byDots f path origin []).map (.table origin)
      | some (.value _) => none
      | some (.table origin entries) =>
        if byDots ∧ origin = .stated then none else (within byDots f path origin entries).map (.table origin)
      | some (.tables elements) => (changeLast (within byDots f path .stated) elements).map .tables

/-- Define a key of the table at the end of its own path. A table that dots lead to must be one that dots made. -/
def assign (path : KeyPath) (datum : Datum) (entries : Entries) : Option Entries :=
  within true
    (fun origin entries =>
      if path.parents.isEmpty ∨ origin = .dotted then
        entries.change path.name fun
          | none => some (.value datum)
          | some _ => none
      else none)
    path.parents .stated entries

/-- Give a table a header of its own. -/
def openTable (path : KeyPath) (root : Entries) : Option Entries :=
  within false
    (fun _ entries =>
      entries.change path.name fun
        | none => some (.table .stated [])
        | some (.table .passed entries) => some (.table .stated entries)
        | some _ => none)
    path.parents .stated root

/-- Begin the next element of a list of tables. -/
def openElement (path : KeyPath) (root : Entries) : Option Entries :=
  within false
    (fun _ entries =>
      entries.change path.name fun
        | none => some (.tables [[]])
        | some (.tables elements) => some (.tables (elements ++ [[]]))
        | some _ => none)
    path.parents .stated root

end Entries

mutual

/-- What stands under a key as a datum. -/
def Item.toDatum : Item → Datum
  | .value datum => datum
  | .table _ entries => .record (Item.fieldsOf entries)
  | .tables elements => .list (Item.recordsOf elements)

/-- Entries as the fields of a record. -/
def Item.fieldsOf : List (String × Item) → List (String × Datum)
  | [] => []
  | (key, item) :: rest => (key, item.toDatum) :: Item.fieldsOf rest

/-- Tables as records. -/
def Item.recordsOf : List (List (String × Item)) → List Datum
  | [] => []
  | entries :: rest => .record (Item.fieldsOf entries) :: Item.recordsOf rest

end

/-- A table as a record. -/
def Entries.toDatum (entries : Entries) : Datum := .record (Item.fieldsOf entries)

end PlacementTree.Toml
