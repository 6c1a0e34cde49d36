import PlacementTree.Json.Reader
import PlacementTree.SchedulerTree
import PlacementTree.Text.Blank
import PlacementTree.Wire.Command

/-!
# Serving a stream of commands

A session reads lines and starts a handler for each that is not blank. Handlers run at the same time and finish in any order. A handler
that has its reply hands it to one writer over a channel with room for some replies, and waits if there is none; it counts as in flight
until the session has noticed its end. Reading ends with the input, at a line that is no text, which the session reports the way
its handlers reply, or when the session is told to shut down. Then the session waits for its handlers and for the writer, and closes
the tree's agents.

A session is a state (`Session`) and what happens to it is an event (`SessionEvent`), so a run is a list of events. If the
writer fails the replies are lost, the handlers go on, and the session leaves with the failure.
-/

namespace PlacementTree

/-- A line of input: text, or bytes that are no text. -/
inductive InputLine where
  | text (line : String)
  | unreadable
  deriving DecidableEq

/-- The line of bytes that say it. -/
def InputLine.decode (bytes : List UInt8) : InputLine :=
  match String.fromUTF8? ⟨bytes.toArray⟩ with
  | some line => .text line
  | none => .unreadable

/-- A line without its carriage return. -/
def InputLine.trimmed : InputLine → InputLine
  | .text line => .text (if line.toList.getLast? == some '\r' then String.ofList line.toList.dropLast else line)
  | .unreadable => .unreadable

/-- A line of bytes before a line end. A carriage return before the line end belongs to the line end. -/
def InputLine.ofBytes (bytes : ByteArray) : InputLine := (decode bytes.toList).trimmed

/-- The lines of the rest of a stream when the bytes `line` of the first have been read, the last of them in front. What is left after
the last line end is a line of its own. -/
def InputLine.ofRest (line : List UInt8) : List UInt8 → List InputLine
  | [] => if line.isEmpty then [] else [decode line.reverse]
  | byte :: rest =>
    if byte = 10 then (decode line.reverse).trimmed :: ofRest [] rest else ofRest (byte :: line) rest

/-- The lines of a stream of bytes. -/
def InputLine.ofStream (bytes : List UInt8) : List InputLine := ofRest [] bytes

/-- The reply to a line that is no command. The message goes on with a colon and what the reader of the line makes of it; that text is the
reader's own and is left out here. -/
def Reply.malformedCommand : Reply := .error "malformed command"

/-- The reply to a line that is no text. Its message goes on in the same way, with the error of the input. -/
def Reply.unreadableInput : Reply := .error "unreadable input"

/-- The command of a line. -/
def Command.read? (line : String) : Option Command := (Json.read line).bind Command.ofDatum?

namespace SchedulerTree

/-- The request of a command made at `now`. -/
def requestOf (t : SchedulerTree) (id : String) (demand : ResourceDemand) (constraints : List Constraint)
    (timeoutMs : Option UInt64) (now : Int) : PlacementRequest :=
  PlacementRequest.issue id demand constraints now ((timeoutMs.map (·.toNat)).getD t.defaultTimeout)

/-- The reply to a command, and the tree after it. -/
def obey (t : SchedulerTree) (s : Surroundings) (now : Int) : Command → Reply × SchedulerTree
  | .place id demand constraints timeoutMs =>
    (.decision id (t.decideIn s (t.requestOf id demand constraints timeoutMs now) now).decision, t)
  | .snapshot snapshot =>
    match t.updateSnapshot snapshot with
    | .ok (next, _) => (.snapshotAccepted snapshot.hostId, next)
    | .error cause => (.error cause.message, t)

/-- The reply to a line, and the tree after it. -/
def reply (t : SchedulerTree) (s : Surroundings) (now : Int) (line : String) : Reply × SchedulerTree :=
  match Command.read? line with
  | some command => t.obey s now command
  | none => (.malformedCommand, t)

end SchedulerTree

/-- A line that is being handled, with its number among the accepted ones. -/
structure Handler where
  number : Nat
  line : String
  deriving DecidableEq

/-- What a session is doing: reading, waiting for what is under way, or nothing any more, with or without a failure. -/
inductive Phase where
  | reading | draining | finished | failed
  deriving DecidableEq, Repr

/-- A session: the handlers at work, the replies that wait for room in the channel to the writer, those in it and those written, and
how many lines were accepted, how many handlers it noticed the end of, and how many were in flight at once at most. -/
structure Session where
  tree : SchedulerTree
  phase : Phase := .reading
  running : List Handler := []
  waiting : List Reply := []
  queued : List Reply := []
  written : List Reply := []
  writerFailed : Bool := false
  handled : Nat := 0
  reaped : Nat := 0
  peak : Nat := 0

/-- What may happen to a session. A handler answers at an instant, with what its request met on its way, and finishes if it hands its
reply over at once; else it does so later. -/
inductive SessionEvent where
  | read (line : InputLine)
  | inputEnds
  | shutDown
  | answer (number : Nat) (surroundings : Surroundings) (now : Int)
  | handOver (place : Nat)
  | finish (number : Nat) (surroundings : Surroundings) (now : Int)
  | reap
  | write
  | writeFails
  | leave

namespace Session

/-- How many replies the channel to the writer holds. -/
def channelCapacity : Nat := 256

/-- Put ratios in force in the tree. -/
def setRatios (s : Session) (ratios : OvercommitRatios) : Session := { s with tree := s.tree.setRatios ratios }

/-- How many handlers are in flight. -/
def inFlight (s : Session) : Nat := s.handled - s.reaped

/-- A reply that waits in a place is handed over if there is room. If the writer is gone it is dropped. -/
def handOver (s : Session) (place : Nat) : Session :=
  match s.waiting[place]? with
  | none => s
  | some reply =>
    if s.writerFailed then { s with waiting := s.waiting.eraseIdx place }
    else if s.queued.length < channelCapacity then
      { s with waiting := s.waiting.eraseIdx place, queued := s.queued ++ [reply] }
    else s

/-- A new reply is handed over at once if possible. -/
def offer (s : Session) (reply : Reply) : Session :=
  { s with waiting := s.waiting ++ [reply] }.handOver s.waiting.length

/-- Accept a line. -/
def accept (s : Session) (line : String) : Session :=
  { s with
    running := s.running ++ [{ number := s.handled, line }]
    handled := s.handled + 1
    peak := max s.peak (s.inFlight + 1) }

/-- A line is read. -/
def read (s : Session) : InputLine → Session
  | .text line => if Text.isBlank line then s else s.accept line
  | .unreadable => { s.offer .unreadableInput with phase := .draining }

/-- A handler has its reply, which waits. -/
def answer (s : Session) (number : Nat) (surroundings : Surroundings) (now : Int) : Session :=
  match s.running.find? (·.number == number) with
  | none => s
  | some handler =>
    let (reply, tree) := s.tree.reply surroundings now handler.line
    { s with tree, running := s.running.erase handler, waiting := s.waiting ++ [reply] }

/-- The session ends, if nothing is under way any more. After a failure of the writer it ends at once and leaves the agents. -/
def leave (s : Session) : Session :=
  if s.phase = .draining ∧ s.running.isEmpty ∧ s.waiting.isEmpty ∧ s.inFlight = 0 then
    if s.writerFailed then { s with phase := .failed }
    else if s.queued.isEmpty then { s with phase := .finished, tree := s.tree.close }
    else s
  else s

/-- One event. -/
def step (s : Session) : SessionEvent → Session
  | .read line => if s.phase = .reading then s.read line else s
  | .inputEnds => if s.phase = .reading then { s with phase := .draining } else s
  | .shutDown => if s.phase = .reading then { s with phase := .draining } else s
  | .answer number surroundings now => s.answer number surroundings now
  | .handOver place => s.handOver place
  | .finish number surroundings now => (s.answer number surroundings now).handOver s.waiting.length
  | .reap => if s.reaped + s.running.length + s.waiting.length < s.handled then { s with reaped := s.reaped + 1 } else s
  | .write =>
    match s.queued with
    | reply :: rest => { s with queued := rest, written := s.written ++ [reply] }
    | [] => s
  | .writeFails => if s.queued.isEmpty then s else { s with writerFailed := true, queued := [], waiting := [] }
  | .leave => s.leave

/-- A run of a session. -/
def run (s : Session) (events : List SessionEvent) : Session := events.foldl step s

/-- Read a line and answer it before anything else happens: the reply, if there is one, and the session after it. -/
def exchange (s : Session) (line : InputLine) (surroundings : Surroundings) (now : Int) : Option Reply × Session :=
  let next := s.run [.read line, .finish s.handled surroundings now, .reap, .write]
  (next.written[s.written.length]?, next)

end Session

end PlacementTree
