import PlacementTree.CommandLine
import PlacementTree.File.Inventory
import PlacementTree.Json.Writer
import PlacementTree.Server

/-!
# The program

`place` decides about one workload given by options and prints the decision; `serve` reads commands from standard input, one on a
line, and prints a reply for each. Both take the file of an inventory and perhaps that of a configuration. Only what touches
files, streams and the clock stands here.
-/

namespace PlacementTree.Program

/-- What the program is asked to do, and the files it takes. -/
structure Invocation where
  configFile : Option String
  inventoryFile : String
  placement : Option PlacementArguments

/-- The options that name files. -/
def fileOptions : List String := ["config", "inventory"]

/-- The invocation of a command line. -/
def Invocation.parse? : List String → Option Invocation
  | "place" :: arguments => do
    let options ← CommandLine.readOptions (fileOptions ++ PlacementArguments.optionNames) arguments
    let configFile ← CommandLine.once? options "config"
    let inventoryFile ← (← CommandLine.once? options "inventory")
    return { configFile, inventoryFile, placement := some (← PlacementArguments.ofOptions? options) }
  | "serve" :: arguments => do
    let options ← CommandLine.readOptions fileOptions arguments
    let configFile ← CommandLine.once? options "config"
    let inventoryFile ← (← CommandLine.once? options "inventory")
    return { configFile, inventoryFile, placement := none }
  | _ => none

/-- The content of a file as what it should be, or the end of the program. -/
def load {α : Type} (path : String) (parse : String → Except FileError α) : IO α := do
  match parse (← IO.FS.readFile path) with
  | .ok content => return content
  | .error cause => throw (IO.userError (path ++ ": " ++ cause.message))

/-- The time in milliseconds. -/
def clock : IO Int := return Int.ofNat (← IO.monoMsNow)

/-- The seed of the draws: the configured one, or any. -/
def seedOf (config : AgentConfig) : IO Nat :=
  match config.scheduler.seed with
  | some seed => return seed.toNat
  | none => IO.rand 0 UInt32.size

/-- Decide about one workload and print the decision. -/
def place (config : AgentConfig) (tree : SchedulerTree) (arguments : PlacementArguments) : IO Unit := do
  let now ← clock
  let seed ← seedOf config
  let decided := tree.decide (seededDraw seed 0) (arguments.request tree.defaultTimeout now) now
  IO.println (Json.writeIndented decided.decision.toDatum)

/-- The next line of input, if there is one. -/
def readLine (input : IO.FS.Stream) : IO (Option InputLine) := do
  try
    let line ← input.getLine
    if line.isEmpty then return none
    return some (InputLine.ofBytes ((if line.endsWith "\n" then String.ofList line.toList.dropLast else line).toUTF8))
  catch _ => return some .unreadable

/-- Answer lines until the session stops reading. -/
partial def serveLines (input output : IO.FS.Stream) (seed : Nat) (server : Server) : IO Unit := do
  if server.session.phase = .reading then
    match ← readLine input with
    | none => return
    | some line =>
      let (reply, server) := server.exchange line (seededDraw seed server.session.handled) (← clock)
      if let some reply := reply then
        output.putStrLn (Json.write reply.toDatum)
        output.flush
      serveLines input output seed server

/-- Do what the program is asked to do, and say how it ended. -/
def run (invocation : Invocation) : IO UInt32 := do
  let config ← match invocation.configFile with
    | some path => load path AgentConfig.parse
    | none => pure {}
  let inventory ← load invocation.inventoryFile Inventory.parse
  match SchedulerTree.ofInventory inventory config ["log"] with
  | .error (.refused cause) => throw (IO.userError cause.message)
  | .error .died => return 101
  | .ok tree =>
    match invocation.placement with
    | some arguments => place config tree arguments
    | none =>
      let server := Server.start tree config invocation.configFile.isSome
      serveLines (← IO.getStdin) (← IO.getStdout) (← seedOf config) server
    return 0

end PlacementTree.Program

/-- The program: 0 when it did what it was asked to, 1 when it could not, 2 when it was not asked properly, 101 when it died. -/
def main (arguments : List String) : IO UInt32 := do
  match PlacementTree.Program.Invocation.parse? arguments with
  | none =>
    IO.eprintln "usage: place|serve --inventory FILE [--config FILE] [OPTIONS]"
    return 2
  | some invocation =>
    try
      PlacementTree.Program.run invocation
    catch error =>
      IO.eprintln ("error: " ++ toString error)
      return 1
