import PlacementTree.Datum
import PlacementTree.Decimal.Style
import PlacementTree.Text.Hex

/-!
# Writing JSON

`Json.write` writes a datum on one line without blanks, `Json.writeIndented` on several, two blanks for each level. Strings are
written as they are but for the quote, the backslash and the control characters. JSON has no notation for infinities and
not-a-numbers; `null` stands in their place.
-/

namespace PlacementTree.Json

/-- A character as it stands in a string. -/
def escape (c : Char) : List Char :=
  match c with
  | '"' => ['\\', '"']
  | '\\' => ['\\', '\\']
  | '\x08' => ['\\', 'b']
  | '\x0c' => ['\\', 'f']
  | '\n' => ['\\', 'n']
  | '\r' => ['\\', 'r']
  | '\t' => ['\\', 't']
  | c => if c.toNat < 0x20 then ['\\', 'u', '0', '0', Text.hexDigit (c.toNat / 16), Text.hexDigit (c.toNat % 16)] else [c]

/-- A string in quotes. -/
def quote (text : String) : String := String.ofList ('"' :: (text.toList.flatMap escape ++ ['"']))

/-- Where the next line of an indented text begins; nothing on one line. -/
def lineBreak : Option Nat → String
  | none => ""
  | some level => String.ofList ('\n' :: List.replicate (2 * level) ' ')

/-- What stands between a key and its value. -/
def keySeparator (indent : Option Nat) : String := if indent.isSome then ": " else ":"

/-- Brackets around the parts of a list or an object, which stand one level deeper. -/
def enclose (indent : Option Nat) (opening closing : String) (parts : List String) : String :=
  if parts.isEmpty then opening ++ closing
  else
    let inner := lineBreak (indent.map (· + 1))
    opening ++ inner ++ ("," ++ inner).intercalate parts ++ lineBreak indent ++ closing

mutual

/-- A datum at a level of indentation, or on one line. -/
def writeAt (indent : Option Nat) : Datum → String
  | .null => "null"
  | .bool value => if value then "true" else "false"
  | .int value => toString value
  | .float value => if value.isFinite then Decimal.Style.json.write value else "null"
  | .string text => quote text
  | .list items => enclose indent "[" "]" (writeItems (indent.map (· + 1)) items)
  | .record fields => enclose indent "\x7b" "\x7d" (writeFields (indent.map (· + 1)) fields)
  | .unreadable => "null"

def writeItems (indent : Option Nat) : List Datum → List String
  | [] => []
  | item :: rest => writeAt indent item :: writeItems indent rest

def writeFields (indent : Option Nat) : List (String × Datum) → List String
  | [] => []
  | (key, value) :: rest => (quote key ++ keySeparator indent ++ writeAt indent value) :: writeFields indent rest

end

/-- A datum on one line. -/
def write (d : Datum) : String := writeAt none d

/-- A datum on several lines. -/
def writeIndented (d : Datum) : String := writeAt (some 0) d

end PlacementTree.Json
