import PlacementTree.Session

/-!
# What a session accepts of its input

`InputLine.ofStream` cuts a stream at its line ends (`InputLine.ofStream_lines`). A session reads these lines one after the other
(`SessionEvent.Reads`) until the first event that stops it. The lines it has accepted by then (`SessionEvent.accepted`) are the first of
the commands of its input, and all of them unless it was shut down (`SessionEvent.accepted_prefix`, `SessionEvent.accepted_eq`).
-/

namespace PlacementTree

namespace InputLine

/-! ## The lines of a stream -/

theorem ofRest_line {bytes : List UInt8} (hbytes : 10 ∉ bytes) (line rest : List UInt8) :
    ofRest line (bytes ++ 10 :: rest) = (decode (line.reverse ++ bytes)).trimmed :: ofRest [] rest := by
  induction bytes generalizing line with
  | nil => simp [ofRest]
  | cons byte bytes ih =>
    rw [List.mem_cons, not_or] at hbytes
    rw [List.cons_append, ofRest, if_neg (Ne.symm hbytes.1), ih hbytes.2]
    simp

theorem ofRest_last {bytes : List UInt8} (hbytes : 10 ∉ bytes) (line : List UInt8) :
    ofRest line bytes = if (line.reverse ++ bytes).isEmpty then [] else [decode (line.reverse ++ bytes)] := by
  induction bytes generalizing line with
  | nil => simp [ofRest]
  | cons byte bytes ih =>
    rw [List.mem_cons, not_or] at hbytes
    rw [ofRest, if_neg (Ne.symm hbytes.1), ih hbytes.2]
    simp

/-- The lines of a stream are what stands before its line ends, and what is left after the last one if that is anything. -/
theorem ofStream_lines {lines : List (List UInt8)} {last : List UInt8} (hlines : ∀ line ∈ lines, 10 ∉ line) (hlast : 10 ∉ last) :
    ofStream (lines.flatMap (· ++ [10]) ++ last) =
      lines.map (fun line => (decode line).trimmed) ++ if last.isEmpty then [] else [decode last] := by
  unfold ofStream
  induction lines with
  | nil => simp [ofRest_last hlast]
  | cons line lines ih =>
    have hrest := ih fun other hother => hlines other (List.mem_cons_of_mem _ hother)
    rw [List.flatMap_cons, List.append_assoc, List.append_assoc, List.singleton_append,
      ofRest_line (hlines line List.mem_cons_self), hrest]
    simp

/-- The bytes of a text are read as the text. -/
theorem decode_toByteArray (line : String) : decode line.toByteArray.data.toList = .text line := by
  have hline : String.fromUTF8? line.toByteArray = some line := by
    unfold String.fromUTF8?
    rw [dif_pos line.isValidUTF8]
    rfl
  simp only [decode, Array.toArray_toList, hline]

/-- Texts without line ends come out of the stream that has them one after the other. -/
theorem ofStream_texts {lines : List String} (hlines : ∀ line ∈ lines, 10 ∉ line.toByteArray.data.toList)
    (hends : ∀ line ∈ lines, line.toList.getLast? ≠ some '\r') :
    ofStream (lines.flatMap fun line => line.toByteArray.data.toList ++ [10]) = lines.map .text := by
  have hstream := @ofStream_lines (lines.map fun line => line.toByteArray.data.toList) [] (List.forall_mem_map.mpr hlines)
    List.not_mem_nil
  rw [List.flatMap_map, List.append_nil] at hstream
  rw [hstream, List.map_map, List.isEmpty_nil, if_pos rfl, List.append_nil]
  apply List.map_congr_left
  intro line hline
  simp [decode_toByteArray, trimmed, hends line hline]

/-! ## The commands among the lines -/

def isText : InputLine → Bool
  | .text _ => true
  | .unreadable => false

/-- The command line of a line, unless that is blank or no text. -/
def command? : InputLine → Option String
  | .text line => if Text.isBlank line then none else some line
  | .unreadable => none

/-- The lines of an input that are not blank, up to the first that is no text. -/
def commands (input : List InputLine) : List String := (input.takeWhile isText).filterMap command?

theorem commands_cons (line : InputLine) (input : List InputLine) :
    commands (line :: input) = if line.isText then line.command?.toList ++ commands input else [] := by
  cases h : line.isText <;> cases hline : line.command? <;> simp [commands, h, hline]

/-- They are the first of all that are not blank. -/
theorem commands_prefix (input : List InputLine) : commands input <+: input.filterMap command? :=
  (List.takeWhile_prefix isText).filterMap command?

end InputLine

namespace SessionEvent

/-- Whether a session that reads stops doing so. -/
def stops : SessionEvent → Bool
  | .read line => !line.isText
  | .inputEnds => true
  | .shutDown => true
  | _ => false

/-- The line that a session that reads accepts. -/
def line? : SessionEvent → Option String
  | .read line => line.command?
  | _ => none

/-- The event that stops a session from reading. -/
def stop? (events : List SessionEvent) : Option SessionEvent := events.find? stops

/-- The lines that a session accepts. -/
def accepted (events : List SessionEvent) : List String := (events.takeWhile fun e => !e.stops).filterMap line?

/-- A session reads the lines of its input in order, and sees its end when there are no more. -/
def Reads : List InputLine → List SessionEvent → Prop
  | _, [] => True
  | input, e :: events =>
    match e with
    | .read line => ∃ rest, input = line :: rest ∧ Reads rest events
    | .inputEnds => input = [] ∧ Reads input events
    | _ => Reads input events

theorem accepted_cons (e : SessionEvent) (events : List SessionEvent) :
    accepted (e :: events) = if e.stops then [] else e.line?.toList ++ accepted events := by
  cases h : e.stops <;> cases hline : e.line? <;> simp [accepted, h, hline]

/-- A line that stops a session is not accepted. -/
theorem line?_of_stops {e : SessionEvent} (h : e.stops = true) : e.line? = none := by
  cases e with
  | read line =>
    cases line with
    | text => cases h
    | unreadable => rfl
  | _ => rfl

/-- A session that still reads may accept one more line. -/
theorem accepted_concat {events : List SessionEvent} (h : stop? events = none) (e : SessionEvent) :
    accepted (events ++ [e]) = accepted events ++ e.line?.toList := by
  induction events with
  | nil =>
    rw [List.nil_append, accepted_cons]
    cases he : e.stops with
    | false => simp [accepted]
    | true => simp [accepted, line?_of_stops he]
  | cons first events ih =>
    simp only [stop?, List.find?_cons] at h
    split at h
    · cases h
    · rename_i hfirst
      rw [List.cons_append, accepted_cons, accepted_cons, hfirst, ih h]
      simp

/-- A session that has stopped accepts nothing more. -/
theorem accepted_concat_of_stop {events : List SessionEvent} {stop : SessionEvent} (h : stop? events = some stop)
    (e : SessionEvent) : accepted (events ++ [e]) = accepted events := by
  induction events with
  | nil => cases h
  | cons first events ih =>
    simp only [stop?, List.find?_cons] at h
    rw [List.cons_append, accepted_cons, accepted_cons]
    split at h
    · rename_i hfirst
      simp [hfirst]
    · rw [ih h]

theorem stop?_concat {events : List SessionEvent} (h : stop? events = none) (e : SessionEvent) :
    stop? (events ++ [e]) = if e.stops then some e else none := by
  rw [stop?] at h
  simp [stop?, List.find?_append, h, List.find?_singleton]

theorem stop?_concat_of_stop {events : List SessionEvent} {stop : SessionEvent} (h : stop? events = some stop)
    (e : SessionEvent) : stop? (events ++ [e]) = some stop := by
  rw [stop?] at h
  simp [stop?, List.find?_append, h]

/-- Events that read nothing may follow in any number. -/
theorem Reads.append {input : List InputLine} {events more : List SessionEvent} (h : Reads input events)
    (hmore : ∀ e ∈ more, (∀ line, e ≠ .read line) ∧ e ≠ .inputEnds) : Reads input (events ++ more) := by
  induction events generalizing input with
  | nil =>
    induction more with
    | nil => exact h
    | cons e more ih =>
      obtain ⟨hread, hends⟩ := hmore e List.mem_cons_self
      have hrest := ih fun e he => hmore e (List.mem_cons_of_mem _ he)
      cases e with
      | read line => exact absurd rfl (hread line)
      | inputEnds => exact absurd rfl hends
      | _ => exact hrest
  | cons e events ih =>
    cases e with
    | read line =>
      obtain ⟨rest, hrest, h⟩ := h
      exact ⟨rest, hrest, ih h⟩
    | inputEnds => exact ⟨h.1, ih h.2⟩
    | _ => exact ih h

/-- The accepted lines are the first commands of the input. -/
theorem accepted_prefix {input : List InputLine} {events : List SessionEvent} (h : Reads input events) :
    accepted events <+: InputLine.commands input := by
  induction events generalizing input with
  | nil => exact List.nil_prefix
  | cons e events ih =>
    rw [accepted_cons]
    cases e with
    | read line =>
      obtain ⟨rest, rfl, h⟩ := h
      rw [InputLine.commands_cons]
      cases hline : line.isText with
      | false => simp [stops, hline]
      | true => simpa [stops, hline, line?] using ih h
    | inputEnds => exact List.nil_prefix
    | shutDown => exact List.nil_prefix
    | _ => exact ih h

/-- A session that is not shut down while it reads accepts all of them. -/
theorem accepted_eq {input : List InputLine} {events : List SessionEvent} (h : Reads input events) {e : SessionEvent}
    (hstop : stop? events = some e) (he : e ≠ .shutDown) : accepted events = InputLine.commands input := by
  induction events generalizing input with
  | nil => cases hstop
  | cons first events ih =>
    rw [accepted_cons]
    rw [stop?, List.find?_cons] at hstop
    cases first with
    | read line =>
      obtain ⟨rest, rfl, h⟩ := h
      rw [InputLine.commands_cons]
      cases hline : line.isText with
      | false => simp [stops, hline]
      | true =>
        simp only [stops, hline, Bool.not_true] at hstop
        simp [stops, hline, line?, ih h hstop]
    | inputEnds =>
      obtain ⟨rfl, -⟩ := h
      rfl
    | shutDown => exact absurd (Option.some.inj hstop).symm he
    | _ => exact ih h hstop

end SessionEvent

end PlacementTree
