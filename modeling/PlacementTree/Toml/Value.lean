import PlacementTree.Toml.Quoted
import PlacementTree.Toml.Scalar
import PlacementTree.Toml.Table

/-!
# Keys and values of TOML

A value is bare, quoted, a list in brackets, which may go over several lines, or an inline table in braces, which may not. Lists
and inline tables nest less than `nestingLimit` deep, and a key has fewer parts than that.
-/

namespace PlacementTree.Toml

def nestingLimit : Nat := 80

/-- A character of a key without quotes. -/
def isKeyChar (c : Char) : Bool :=
  c.isDigit || decide ('a' ≤ c ∧ c ≤ 'z') || decide ('A' ≤ c ∧ c ≤ 'Z') || c == '_' || c == '-'

/-- A key without dots, and what follows. -/
def readName (cs : List Char) : Option (String × List Char) :=
  match cs with
  | '"' :: rest => (readBasic rest).map fun (name, rest) => (String.ofList name, rest)
  | '\'' :: rest => (readLiteral rest).map fun (name, rest) => (String.ofList name, rest)
  | cs =>
    let name := cs.takeWhile isKeyChar
    if name.isEmpty then none else some (String.ofList name, cs.dropWhile isKeyChar)

/-- The parts of a key, at least one, with what follows. Blanks may stand around each. -/
def readNames : Nat → List Char → Option (List String × List Char)
  | 0, _ => none
  | fuel + 1, cs => do
    let (name, rest) ← readName (skipBlanks cs)
    match skipBlanks rest with
    | '.' :: rest => do
      let (names, rest) ← readNames fuel rest
      return (name :: names, rest)
    | rest => return ([name], rest)

/-- A key, and what follows. -/
def readKey (cs : List Char) : Option (KeyPath × List Char) := do
  let (names, rest) ← readNames (cs.length + 1) cs
  if nestingLimit ≤ names.length then none
  let name ← names.getLast?
  return ({ parents := names.dropLast, name }, rest)

/-- A character of a bare value. -/
def isBareChar (c : Char) : Bool := !isBlank c && c != '\n' && c != '\r' && c != '#' && c != ',' && c != ']' && c != '\x7d'

/-- The run of characters of a bare value, and what follows. A blank belongs to it between a date and a time. -/
def splitBare (cs : List Char) : List Char × List Char :=
  let run := cs.takeWhile isBareChar
  match cs.dropWhile isBareChar with
  | ' ' :: digit :: rest =>
    if digit.isDigit && (Date.read run).any (·.2.isEmpty) then
      (run ++ ' ' :: (digit :: rest).takeWhile isBareChar, (digit :: rest).dropWhile isBareChar)
    else (run, ' ' :: digit :: rest)
  | rest => (run, rest)

/-- Skip blanks, line ends and comments. -/
def skipLines (inComment : Bool) : List Char → List Char
  | [] => []
  | '\r' :: '\n' :: rest => skipLines false rest
  | '\n' :: rest => skipLines false rest
  | c :: rest =>
    if inComment && isPlain c then skipLines true rest
    else if c == '#' then skipLines true rest
    else if isBlank c then skipLines false rest
    else c :: rest

mutual

/-- A value in front of a text, and what follows. `fuel` bounds the steps; two for each character are enough. -/
def readValue : Nat → Nat → List Char → Option (Datum × List Char)
  | 0, _, _ => none
  | fuel + 1, depth, cs =>
    match cs with
    | '[' :: rest =>
      if depth + 1 < nestingLimit then (readItems fuel (depth + 1) rest).map fun (items, rest) => (.list items, rest) else none
    | '\x7b' :: rest =>
      if depth + 1 < nestingLimit then
        match skipBlanks rest with
        | '\x7d' :: rest => some (.record [], rest)
        | rest => do
          let (assignments, rest) ← readAssignments fuel (depth + 1) rest
          let entries ← assignments.foldlM (fun entries (path, datum) => Entries.assign path datum entries) []
          return (Entries.toDatum entries, rest)
      else none
    | '"' :: _ => (readQuoted cs).map fun (text, rest) => (.string (String.ofList text), rest)
    | '\'' :: _ => (readQuoted cs).map fun (text, rest) => (.string (String.ofList text), rest)
    | cs =>
      let (run, rest) := splitBare cs
      (scalar? run).map (·, rest)

/-- The elements of a list up to its closing bracket, and what follows. The last may have a comma after it. -/
def readItems : Nat → Nat → List Char → Option (List Datum × List Char)
  | 0, _, _ => none
  | fuel + 1, depth, cs =>
    match skipLines false cs with
    | ']' :: rest => some ([], rest)
    | cs => do
      let (item, rest) ← readValue fuel depth cs
      match skipLines false rest with
      | ']' :: rest => return ([item], rest)
      | ',' :: rest => do
        let (items, rest) ← readItems fuel depth rest
        return (item :: items, rest)
      | _ => none

/-- The keys and values of an inline table up to its closing brace, at least one, and what follows. -/
def readAssignments : Nat → Nat → List Char → Option (List (KeyPath × Datum) × List Char)
  | 0, _, _ => none
  | fuel + 1, depth, cs => do
    let (path, rest) ← readKey cs
    match rest with
    | '=' :: rest => do
      let (datum, rest) ← readValue fuel depth (skipBlanks rest)
      match skipBlanks rest with
      | '\x7d' :: rest => return ([(path, datum)], rest)
      | ',' :: rest => do
        let (assignments, rest) ← readAssignments fuel depth rest
        return ((path, datum) :: assignments, rest)
      | _ => none
    | _ => none

end

end PlacementTree.Toml
