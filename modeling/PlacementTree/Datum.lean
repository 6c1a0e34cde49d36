import PlacementTree.Decimal.Nearest
import PlacementTree.Labels

/-!
# Values of data files

What a configuration, an inventory or a command says once its notation is understood: a `Datum`. Both notations, TOML and JSON,
are read into it, and what a type needs is taken out of it by the `…?` functions here, which answer `none` when the datum is
something else.

A record is taken apart by the names of its fields (`Datum.fields?`). Unknown fields do not count, a known one may stand only
once. A list stands for a record too: its elements are the fields in the order in which they are declared.

An object of one of several shapes carries a tag (`Datum.tagged?`). Such an object has to be held as a whole until its tag is
known, so all of it must be readable and it may not nest deeper than `Datum.heldDepth`; elsewhere a part that nobody asks for
is passed over whatever it is.
-/

namespace PlacementTree

/-- A value of a data file. `unreadable` is a part that is well written but has no value, such as a number beyond the doubles. -/
inductive Datum where
  | null
  | bool (value : Bool)
  | int (value : Int)
  | float (value : Float)
  | string (text : String)
  | list (items : List Datum)
  | record (fields : List (String × Datum))
  | unreadable
  deriving Inhabited

/-- What becomes of list elements beyond the fields of the record that the list stands for. -/
inductive Surplus where
  | refused | passedOver
  deriving DecidableEq, Repr

/-- The known fields of a record, and whether they were given as a list. -/
structure Fields where
  given : List (String × Datum)
  fromList : Bool

/-- A tag and what stands beside it. -/
structure Tagged where
  tag : Datum
  content : Datum

namespace Datum

mutual

/-- How deep lists and records are nested. -/
def depth : Datum → Nat
  | .list items => 1 + depthOfItems items
  | .record fields => 1 + depthOfFields fields
  | _ => 0

def depthOfItems : List Datum → Nat
  | [] => 0
  | d :: rest => max d.depth (depthOfItems rest)

def depthOfFields : List (String × Datum) → Nat
  | [] => 0
  | (_, d) :: rest => max d.depth (depthOfFields rest)

end

mutual

/-- Whether every part has a value. -/
def readable : Datum → Bool
  | .unreadable => false
  | .list items => readableItems items
  | .record fields => readableFields fields
  | _ => true

def readableItems : List Datum → Bool
  | [] => true
  | d :: rest => d.readable && readableItems rest

def readableFields : List (String × Datum) → Bool
  | [] => true
  | (_, d) :: rest => d.readable && readableFields rest

end

/-- How deep an object with a tag may nest. -/
def heldDepth : Nat := 127

/-- Whether an object can be held as a whole. -/
def holdable (d : Datum) : Bool := d.readable && decide (d.depth ≤ heldDepth)

def string? : Datum → Option String
  | .string text => some text
  | _ => none

/-- A whole number in the range of 32 bits without a sign. -/
def uint32? : Datum → Option UInt32
  | .int value => if 0 ≤ value ∧ value.toNat < UInt32.size then some (UInt32.ofNat value.toNat) else none
  | _ => none

/-- A whole number in the range of 64 bits without a sign. -/
def uint64? : Datum → Option UInt64
  | .int value => if 0 ≤ value ∧ value.toNat < UInt64.size then some (UInt64.ofNat value.toNat) else none
  | _ => none

/-- A double. A whole number stands for the double nearest to it. -/
def float? : Datum → Option Float
  | .float value => some value
  | .int value => some (Decimal.nearestSigned (decide (value < 0)) value.natAbs 0)
  | _ => none

def list? {α : Type} (read : Datum → Option α) : Datum → Option (List α)
  | .list items => items.mapM read
  | _ => none

/-- A list of names, taken as a set. -/
def names? (d : Datum) : Option NameSet := (d.list? string?).map NameSet.ofList

/-- A record of names, taken as a map. Of fields of one name the last counts. -/
def tags? : Datum → Option TagMap
  | .record fields => (fields.mapM fun field => (string? field.2).map (field.1, ·)).map TagMap.ofList
  | _ => none

/-- A value that may be missing. -/
def nullable? {α : Type} (read : Datum → Option α) : Datum → Option (Option α)
  | .null => some none
  | d => (read d).map some

def ofNames (names : NameSet) : Datum := .list (names.toList.map .string)

def ofTags (tags : TagMap) : Datum := .record (tags.toList.map fun (key, value) => (key, .string value))

def ofUInt32 (n : UInt32) : Datum := .int (Int.ofNat n.toNat)

def ofUInt64 (n : UInt64) : Datum := .int (Int.ofNat n.toNat)

/-- A double. What is no number has no notation and is written as nothing. -/
def ofFloat (x : Float) : Datum := if x.isFinite then .float x else .null

def ofOption {α : Type} (write : α → Datum) : Option α → Datum
  | some a => write a
  | none => .null

/-- The fields of these names. -/
def fields? (names : List String) (surplus : Surplus) : Datum → Option Fields
  | .record fields =>
    let known := fields.filter fun field => names.contains field.1
    if (known.map (·.1)).Nodup then some { given := known, fromList := false } else none
  | .list items =>
    if surplus = .refused ∧ names.length < items.length then none
    else some { given := names.zip items, fromList := true }
  | _ => none

/-- The tag of an object and what stands beside it. The tag of a record stands in the field `key`, anywhere but only once; that
of a list is its first element. -/
def tagged? (key : String) (d : Datum) : Option Tagged :=
  if d.holdable then
    match d with
    | .record fields =>
      match fields.filter (·.1 == key) with
      | [(_, tag)] => some { tag, content := .record (fields.filter (·.1 != key)) }
      | _ => none
    | .list (tag :: rest) => some { tag, content := .list rest }
    | _ => none
  else none

/-- Whether nothing is asked of what stands beside a tag and nothing is in the way. -/
def bare : Datum → Bool
  | .record _ => true
  | .list [] => true
  | _ => false

end Datum

namespace Fields

/-- A field by its name. -/
def get? (f : Fields) (name : String) : Option Datum := f.given.lookup name

/-- A field that must be given. -/
def required {α : Type} (f : Fields) (name : String) (read : Datum → Option α) : Option α := (f.get? name).bind read

/-- A field with a default. -/
def defaulted {α : Type} (f : Fields) (name : String) (default : α) (read : Datum → Option α) : Option α :=
  match f.get? name with
  | some d => read d
  | none => some default

/-- A field that may be missing from a record. In a list its place must be filled. -/
def optional {α : Type} (f : Fields) (name : String) (read : Datum → Option α) : Option (Option α) :=
  match f.get? name with
  | some d => d.nullable? read
  | none => if f.fromList then none else some none

end Fields

namespace Tagged

/-- The alternative that a tag names. -/
def name? (t : Tagged) : Option String := t.tag.string?

/-- The alternative that a tag names by its name or by its number among all of them. An object inside another one that is held
as a whole may give the number. -/
def nameOrNumber? (t : Tagged) (alternatives : List String) : Option String :=
  match t.tag with
  | .int number => if 0 ≤ number then alternatives[number.toNat]? else none
  | tag => tag.string?

end Tagged

end PlacementTree
