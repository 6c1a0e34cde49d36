import PlacementTree.Text.Hex

/-!
# Quoted text of TOML

Four notations: basic and literal strings on one line, and both over several lines between three quotes. A basic string knows
escapes, a literal one does not. Of control characters only the tab may stand as it is, and a line may end in a line feed or in
a carriage return and a line feed, which are read alike.
-/

namespace PlacementTree.Toml

/-- White space within a line. -/
def isBlank (c : Char) : Bool := c == ' ' || c == '\t'

def skipBlanks (cs : List Char) : List Char := cs.dropWhile isBlank

/-- A character that may stand in quotes and in comments as it is. -/
def isPlain (c : Char) : Bool := c == '\t' || (decide (0x20 ≤ c.toNat) && c.toNat != 0x7f)

/-- The character of a number, unless the number is none of a character. -/
def codePoint? (digits : List Char) : Option Char :=
  (Text.ofHex? digits).bind fun n => if n.isValidChar then some (Char.ofNat n) else none

/-- The character of a short escape. -/
def escaped? : Char → Option Char
  | 'b' => some '\x08'
  | 't' => some '\t'
  | 'n' => some '\n'
  | 'f' => some '\x0c'
  | 'r' => some '\r'
  | '"' => some '"'
  | '\\' => some '\\'
  | _ => none

/-- A character in front of what was read after it. -/
def prepend (c : Char) (read : Option (List Char × List Char)) : Option (List Char × List Char) :=
  read.map fun (text, rest) => (c :: text, rest)

/-- A basic string after its opening quote, and what follows. -/
def readBasic : List Char → Option (List Char × List Char)
  | [] => none
  | '"' :: rest => some ([], rest)
  | '\\' :: 'u' :: a :: b :: c :: d :: rest =>
    (codePoint? [a, b, c, d]).bind (prepend · (readBasic rest))
  | '\\' :: 'U' :: a :: b :: c :: d :: e :: f :: g :: h :: rest =>
    (codePoint? [a, b, c, d, e, f, g, h]).bind (prepend · (readBasic rest))
  | '\\' :: e :: rest => (escaped? e).bind (prepend · (readBasic rest))
  | c :: rest => if isPlain c then prepend c (readBasic rest) else none

/-- A literal string after its opening quote, and what follows. -/
def readLiteral : List Char → Option (List Char × List Char)
  | [] => none
  | '\'' :: rest => some ([], rest)
  | c :: rest => if isPlain c then prepend c (readLiteral rest) else none

/-- What follows three closing quotes. Up to two more quotes belong to the text in front of them. -/
def afterClosing (quote : Char) : List Char → List Char × List Char
  | a :: b :: rest =>
    if a = quote then if b = quote then ([quote, quote], rest) else ([quote], b :: rest) else ([], a :: b :: rest)
  | [a] => if a = quote then ([quote], []) else ([], [a])
  | [] => ([], [])

/-- Whether nothing but blanks is left of a line. -/
def lineEnds (cs : List Char) : Bool :=
  match skipBlanks cs with
  | '\n' :: _ => true
  | '\r' :: '\n' :: _ => true
  | _ => false

/-- A basic string of several lines after its opening quotes, and what follows. A backslash at the end of a line takes away all
white space up to the next character; `skipping` says that this is going on. -/
def readBasicLines (skipping : Bool) : List Char → Option (List Char × List Char)
  | [] => none
  | '"' :: '"' :: '"' :: rest => some (afterClosing '"' rest)
  | '\\' :: 'u' :: a :: b :: c :: d :: rest =>
    (codePoint? [a, b, c, d]).bind (prepend · (readBasicLines false rest))
  | '\\' :: 'U' :: a :: b :: c :: d :: e :: f :: g :: h :: rest =>
    (codePoint? [a, b, c, d, e, f, g, h]).bind (prepend · (readBasicLines false rest))
  | '\\' :: e :: rest =>
    match escaped? e with
    | some c => prepend c (readBasicLines false rest)
    | none => if lineEnds (e :: rest) then readBasicLines true (e :: rest) else none
  | '\r' :: '\n' :: rest => if skipping then readBasicLines true rest else prepend '\n' (readBasicLines false rest)
  | '\n' :: rest => if skipping then readBasicLines true rest else prepend '\n' (readBasicLines false rest)
  | c :: rest =>
    if skipping && isBlank c then readBasicLines true rest
    else if isPlain c then prepend c (readBasicLines false rest)
    else none

/-- A literal string of several lines after its opening quotes, and what follows. -/
def readLiteralLines : List Char → Option (List Char × List Char)
  | [] => none
  | '\'' :: '\'' :: '\'' :: rest => some (afterClosing '\'' rest)
  | '\r' :: '\n' :: rest => prepend '\n' (readLiteralLines rest)
  | '\n' :: rest => prepend '\n' (readLiteralLines rest)
  | c :: rest => if isPlain c then prepend c (readLiteralLines rest) else none

/-- A line end directly after opening quotes does not count. -/
def dropLineEnd : List Char → List Char
  | '\n' :: rest => rest
  | '\r' :: '\n' :: rest => rest
  | cs => cs

/-- A string of any notation, and what follows. -/
def readQuoted : List Char → Option (List Char × List Char)
  | '"' :: '"' :: '"' :: rest => readBasicLines false (dropLineEnd rest)
  | '"' :: rest => readBasic rest
  | '\'' :: '\'' :: '\'' :: rest => readLiteralLines (dropLineEnd rest)
  | '\'' :: rest => readLiteral rest
  | _ => none

end PlacementTree.Toml
