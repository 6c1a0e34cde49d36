import PlacementTree.Toml.Value

/-!
# TOML documents

A document is a list of statements, one on a line: a header that opens a table, a header that begins the next element of a list
of tables, or a key with its value, which belongs to the table opened last. `Toml.read` reads the statements and then carries
them out.
-/

namespace PlacementTree.Toml

/-- One line of a document. -/
inductive Statement where
  | openTable (path : KeyPath)
  | openElement (path : KeyPath)
  | assign (path : KeyPath) (datum : Datum)

/-- What follows the end of a line. Only blanks and a comment may stand before it. -/
def endLine (cs : List Char) : Option (List Char) :=
  let cs := match skipBlanks cs with
    | '#' :: rest => rest.dropWhile isPlain
    | cs => cs
  match cs with
  | [] => some []
  | '\n' :: rest => some rest
  | '\r' :: '\n' :: rest => some rest
  | _ => none

/-- A header after its opening bracket. -/
def readHeader (cs : List Char) : Option (Statement × List Char) :=
  match cs with
  | '[' :: rest =>
    match readKey rest with
    | some (path, ']' :: ']' :: rest) => some (.openElement path, rest)
    | _ => none
  | rest =>
    match readKey rest with
    | some (path, ']' :: rest) => some (.openTable path, rest)
    | _ => none

/-- A key and its value. -/
def readAssignment (cs : List Char) : Option (Statement × List Char) :=
  match readKey cs with
  | some (path, '=' :: rest) =>
    (readValue (2 * cs.length + 2) 0 (skipBlanks rest)).map fun (datum, rest) => (.assign path datum, rest)
  | _ => none

/-- The statement of a line, if there is one, and what follows the line. -/
def readLine (cs : List Char) : Option (Option Statement × List Char) :=
  match cs with
  | '[' :: rest => (readHeader rest).bind fun (statement, rest) => (endLine rest).map (some statement, ·)
  | c :: rest =>
    if c == '#' || c == '\n' || c == '\r' then (endLine (c :: rest)).map (none, ·)
    else (readAssignment (c :: rest)).bind fun (statement, rest) => (endLine rest).map (some statement, ·)
  | [] => none

/-- The statements of a text. `fuel` bounds the lines. -/
def readLines : Nat → List Char → Option (List Statement)
  | 0, _ => none
  | fuel + 1, cs =>
    match skipBlanks cs with
    | [] => some []
    | cs => do
      let (statement, rest) ← readLine cs
      let statements ← readLines fuel rest
      return statement.toList ++ statements

/-- The table opened last, and all tables. -/
structure Draft where
  here : List String
  root : Entries

/-- Carry out a statement. -/
def Draft.step (d : Draft) : Statement → Option Draft
  | .openTable path => (d.root.openTable path).map fun root => { here := path.keys, root }
  | .openElement path => (d.root.openElement path).map fun root => { here := path.keys, root }
  | .assign path datum =>
    (Entries.within false (fun _ entries => entries.assign path datum) d.here .stated d.root).map fun root => { d with root }

/-- Carry out all statements of a document. -/
def build (statements : List Statement) : Option Entries :=
  (statements.foldlM Draft.step { here := [], root := [] }).map (·.root)

/-- A byte order mark in front of a text does not count. -/
def dropMark : List Char → List Char
  | '\ufeff' :: rest => rest
  | cs => cs

/-- The record that a document defines. -/
def read (text : String) : Option Datum := do
  let cs := dropMark text.toList
  let statements ← readLines (cs.length + 1) cs
  let entries ← build statements
  return entries.toDatum

end PlacementTree.Toml
