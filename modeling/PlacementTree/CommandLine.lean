import PlacementTree.Request

/-!
# The command line

Options stand in full, `--name value` or `--name=value`; a value that begins with a dash needs the second form, unless it is the
dash alone. There are no other arguments. `PlacementArguments.ofOptions?` makes a request for one placement out of them.
-/

namespace PlacementTree

/-- The options of one placement. -/
structure PlacementArguments where
  cpu : UInt32
  memoryMb : UInt64
  diskGb : UInt64
  datastores : List String
  networks : List String
  hostType : Option String
  tags : List (String × String)
  timeoutMs : Option UInt64
  deriving DecidableEq, Repr

namespace CommandLine

/-- A text up to the first `=`, and what follows it if there is one. -/
def splitAtEquals : List Char → List Char × Option (List Char)
  | [] => ([], none)
  | '=' :: rest => ([], some rest)
  | c :: rest =>
    let (name, value) := splitAtEquals rest
    (c :: name, value)

/-- Whether an argument can be the value of the option before it. -/
def isValue (argument : String) : Bool := argument == "-" || argument.toList.head? != some '-'

/-- The options of a command line with their values, in order. Two dashes alone may end it. -/
def readOptions (names : List String) : List String → Option (List (String × String))
  | [] => some []
  | argument :: rest =>
    match argument.toList with
    | ['-', '-'] => if rest.isEmpty then some [] else none
    | '-' :: '-' :: option =>
      let (name, value) := splitAtEquals option
      let name := String.ofList name
      if names.contains name then
        match value, rest with
        | some value, rest => (readOptions names rest).map ((name, String.ofList value) :: ·)
        | none, value :: rest => if isValue value then (readOptions names rest).map ((name, value) :: ·) else none
        | none, [] => none
      else none
    | _ => none

/-- All values of an option, in order. -/
def valuesOf (options : List (String × String)) (name : String) : List String :=
  options.filterMap fun option => if option.1 = name then some option.2 else none

/-- The value of an option that may be given once. -/
def once? (options : List (String × String)) (name : String) : Option (Option String) :=
  match valuesOf options name with
  | [] => some none
  | [value] => some (some value)
  | _ => none

/-- A number without a sign. -/
def digits? (cs : List Char) : Option Nat :=
  if cs.isEmpty || !cs.all Char.isDigit then none else some (Nat.ofDigitChars 10 cs 0)

/-- A number of 64 bits, perhaps with a plus sign. -/
def uint64? (text : String) : Option UInt64 := do
  let n ← match text.toList with
    | '+' :: rest => digits? rest
    | cs => digits? cs
  if n < UInt64.size then some (UInt64.ofNat n) else none

/-- A number of 32 bits, perhaps with a sign. It is read as a signed one, so minus zero is accepted. -/
def uint32? (text : String) : Option UInt32 := do
  let n ← match text.toList with
    | '+' :: rest => digits? rest
    | '-' :: rest => (digits? rest).filter (· == 0)
    | cs => digits? cs
  if n < UInt32.size then some (UInt32.ofNat n) else none

/-- A tag, `key=value` with a key that is not empty. The first `=` divides them. -/
def tag? (text : String) : Option (String × String) :=
  match splitAtEquals text.toList with
  | (key, some value) => if key.isEmpty then none else some (String.ofList key, String.ofList value)
  | (_, none) => none

end CommandLine

namespace PlacementArguments

open CommandLine

/-- The names of the options of one placement. -/
def optionNames : List String :=
  ["cpu", "memory-mb", "disk-gb", "datastore", "network", "host-type", "tag", "timeout-ms"]

/-- The arguments that options give. Cpus and memory are required; a datastore, a network and a tag may be given repeatedly. -/
def ofOptions? (options : List (String × String)) : Option PlacementArguments := do
  let cpu ← uint32? (← (← once? options "cpu"))
  let memoryMb ← uint64? (← (← once? options "memory-mb"))
  let diskGb ← match ← once? options "disk-gb" with
    | some text => uint64? text
    | none => some 0
  let hostType ← once? options "host-type"
  let tags ← (valuesOf options "tag").mapM tag?
  let timeoutMs ← match ← once? options "timeout-ms" with
    | some text => (uint64? text).map some
    | none => some none
  return { cpu, memoryMb, diskGb, datastores := valuesOf options "datastore", networks := valuesOf options "network", hostType,
           tags, timeoutMs }

/-- The arguments of a command line. -/
def parse? (arguments : List String) : Option PlacementArguments := (readOptions optionNames arguments).bind ofOptions?

def demand (a : PlacementArguments) : ResourceDemand := { cpu := a.cpu, memoryMb := a.memoryMb, diskGb := a.diskGb }

/-- The constraints asked for: datastores, networks, the host type, tags. -/
def constraints (a : PlacementArguments) : List Constraint :=
  a.datastores.map .datastore ++ a.networks.map .network ++ (a.hostType.map Constraint.hostType).toList ++
    a.tags.map fun (key, value) => .tag key value

/-- How long the request may wait, in milliseconds. -/
def timeout (a : PlacementArguments) (default : Nat) : Nat := (a.timeoutMs.map (·.toNat)).getD default

/-- The request, made at `now`. -/
def request (a : PlacementArguments) (default : Nat) (now : Int) : PlacementRequest :=
  PlacementRequest.issue "cli" a.demand a.constraints now (a.timeout default)

end PlacementArguments

end PlacementTree
