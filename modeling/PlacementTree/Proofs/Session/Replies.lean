import Mathlib.Data.List.Perm.Basic
import PlacementTree.Proofs.SchedulerTree.Run
import PlacementTree.Proofs.Session.Input

/-!
# Every accepted command is answered once

The replies of a session are those of handling its accepted lines one after the other, in the order in which the handlers answered
(`SchedulerTree.answerAll`), each line once, and a report if the input became unreadable. What a session has written, what is in
the channel and what waits for room are always exactly the replies so far (`Session.Accounts`). No step loses or doubles one, whatever
handlers, channel and writer do in which order, so when the session is over all of them are written.
-/

namespace PlacementTree

/-- A handler's turn to answer: with what its request met on its way, at an instant. -/
structure Handling extends Handler where
  surroundings : Surroundings
  now : Int

/-- The handler, what its request met and when. -/
def Handling.turn (h : Handling) : Nat × Surroundings × Int := (h.number, h.surroundings, h.now)

namespace SessionEvent

/-- The handler that an event lets answer, with what its request met and when. -/
def turn? : SessionEvent → Option (Nat × Surroundings × Int)
  | .answer number surroundings now => some (number, surroundings, now)
  | .finish number surroundings now => some (number, surroundings, now)
  | _ => none

/-- What a session that reads has to report. -/
def reports : SessionEvent → List Reply
  | .read .unreadable => [.unreadableInput]
  | _ => []

/-- What a session has to report, which is about the event that stopped it. -/
def reported (events : List SessionEvent) : List Reply := ((stop? events).map reports).getD []

theorem reported_concat {events : List SessionEvent} (h : stop? events = none) (e : SessionEvent) :
    reported (events ++ [e]) = reported events ++ e.reports := by
  rw [reported, reported, stop?_concat h, h]
  cases e with
  | read line => cases line <;> rfl
  | _ => rfl

theorem reported_concat_of_stop {events : List SessionEvent} {stop : SessionEvent} (h : stop? events = some stop)
    (e : SessionEvent) : reported (events ++ [e]) = reported events := by
  rw [reported, reported, stop?_concat_of_stop h, h]

end SessionEvent

namespace SchedulerTree

/-- Handle one more line. -/
def answerNext (state : List Reply × SchedulerTree) (h : Handling) : List Reply × SchedulerTree :=
  let answered := state.2.reply h.surroundings h.now h.line
  (state.1 ++ [answered.1], answered.2)

/-- The replies of lines that are handled one after the other, and the tree after them. -/
def answerAll (t : SchedulerTree) (handlings : List Handling) : List Reply × SchedulerTree := handlings.foldl answerNext ([], t)

theorem answerAll_concat (t : SchedulerTree) (handlings : List Handling) (h : Handling) :
    t.answerAll (handlings ++ [h]) = answerNext (t.answerAll handlings) h := by
  rw [answerAll, List.foldl_append]
  rfl

end SchedulerTree

/-- Whether a reply is one to a line: a decision for the request of its id, word of its snapshot, or an error. -/
def Reply.Answers (line : String) (reply : Reply) : Prop :=
  match Command.read? line with
  | some (.place id _ _ _) => ∃ decision, reply = .decision id decision
  | some (.snapshot snapshot) => reply = .snapshotAccepted snapshot.hostId ∨ ∃ message, reply = .error message
  | none => reply = .malformedCommand

/-- The reply to a line is one. -/
theorem SchedulerTree.reply_answers (t : SchedulerTree) (s : Surroundings) (now : Int) (line : String) :
    (t.reply s now line).1.Answers line := by
  unfold reply Reply.Answers
  cases Command.read? line with
  | none => rfl
  | some command =>
    cases command with
    | place id demand constraints timeoutMs => exact ⟨_, rfl⟩
    | snapshot snapshot =>
      simp only [obey]
      cases t.updateSnapshot snapshot with
      | ok => exact Or.inl rfl
      | error cause => exact Or.inr ⟨_, rfl⟩

/-- Each handled line has its reply. -/
theorem SchedulerTree.answerAll_answers (t : SchedulerTree) (handlings : List Handling) :
    List.Forall₂ (fun h reply => Reply.Answers h.line reply) handlings (t.answerAll handlings).1 := by
  induction handlings using List.reverseRecOn with
  | nil => exact List.Forall₂.nil
  | append_singleton handlings h ih =>
    rw [answerAll_concat]
    exact List.rel_append ih (List.Forall₂.cons (reply_answers _ _ _ _) List.Forall₂.nil)

/-- Accepted lines with their numbers. -/
def numbered (lines : List String) : List Handler := lines.mapIdx fun number line => { number, line }

theorem numbered_concat (lines : List String) (line : String) :
    numbered (lines ++ [line]) = numbered lines ++ [{ number := lines.length, line }] := by
  rw [numbered, List.mapIdx_concat]
  rfl

section Lines

variable {lines : List String} {running : List Handler}

/-- A line that is accepted gets the next number and a handler. -/
theorem perm_numbered_of_accept {done : List Handler} (h : (done ++ running).Perm (numbered lines)) (line : String) :
    (done ++ (running ++ [({ number := lines.length, line } : Handler)])).Perm (numbered (lines ++ [line])) := by
  rw [numbered_concat, ← List.append_assoc]
  exact h.append_right _

/-- A line that is answered is no longer at work. -/
theorem perm_numbered_of_answer {answered : List Handling} {handling : Handling} (hin : handling.toHandler ∈ running)
    (h : (answered.map (·.toHandler) ++ running).Perm (numbered lines)) :
    ((answered ++ [handling]).map (·.toHandler) ++ running.erase handling.toHandler).Perm (numbered lines) := by
  have hlines := ((List.perm_cons_erase hin).symm.append_left (answered.map (·.toHandler))).trans h
  simpa using hlines

end Lines

namespace Session

/-! ## What a session does -/

theorem run_concat (s : Session) (events : List SessionEvent) (e : SessionEvent) : s.run (events ++ [e]) = (s.run events).step e :=
  List.foldl_concat ..

/-- A reply that waits goes into the channel if there is room, and is dropped if the writer is gone. -/
theorem handOver_cases (s : Session) (place : Nat) :
    s.handOver place = s ∨ ∃ reply, s.waiting[place]? = some reply ∧
      ((s.writerFailed = true ∧ s.handOver place = { s with waiting := s.waiting.eraseIdx place }) ∨
        (s.writerFailed = false ∧ s.queued.length < channelCapacity ∧
          s.handOver place = { s with waiting := s.waiting.eraseIdx place, queued := s.queued ++ [reply] })) := by
  cases hreply : s.waiting[place]? with
  | none => exact Or.inl (by rw [handOver, hreply])
  | some reply =>
    cases hwriter : s.writerFailed with
    | true => exact Or.inr ⟨reply, rfl, Or.inl ⟨rfl, by simp [handOver, hreply, hwriter]⟩⟩
    | false =>
      by_cases hroom : s.queued.length < channelCapacity
      · exact Or.inr ⟨reply, rfl, Or.inr ⟨rfl, hroom, by simp [handOver, hreply, hwriter, hroom]⟩⟩
      · exact Or.inl (by simp [handOver, hreply, hwriter, hroom])

/-- A handler that is at work answers its line, and its reply waits. -/
theorem answer_cases (s : Session) (number : Nat) (surroundings : Surroundings) (now : Int) :
    s.answer number surroundings now = s ∨ ∃ handler ∈ s.running, handler.number = number ∧
      s.answer number surroundings now =
        { s with
          tree := (s.tree.reply surroundings now handler.line).2
          running := s.running.erase handler
          waiting := s.waiting ++ [(s.tree.reply surroundings now handler.line).1] } := by
  cases hfind : s.running.find? (·.number == number) with
  | none => exact Or.inl (by rw [answer, hfind])
  | some handler =>
    have hnumber : handler.number = number := by simpa using List.find?_some hfind
    exact Or.inr ⟨handler, List.mem_of_find?_eq_some hfind, hnumber, by rw [answer, hfind]⟩

/-- A session that leaves has nothing under way. If its writer works it has nothing left to write either, and closes the agents. -/
theorem leave_cases (s : Session) :
    s.leave = s ∨ (s.phase = .draining ∧ s.running = [] ∧ s.waiting = [] ∧ s.inFlight = 0) ∧
      ((s.writerFailed = true ∧ s.leave = { s with phase := .failed }) ∨
        (s.writerFailed = false ∧ s.queued = [] ∧ s.leave = { s with phase := .finished, tree := s.tree.close })) := by
  by_cases hdone : s.phase = .draining ∧ s.running = [] ∧ s.waiting = [] ∧ s.inFlight = 0
  · cases hwriter : s.writerFailed with
    | true => exact Or.inr ⟨hdone, Or.inl ⟨rfl, by simp [leave, hdone, hwriter]⟩⟩
    | false =>
      by_cases hqueued : s.queued = []
      · exact Or.inr ⟨hdone, Or.inr ⟨rfl, hqueued, by simp [leave, hdone, hwriter, hqueued]⟩⟩
      · exact Or.inl (by simp [leave, hwriter, hqueued])
  · exact Or.inl (by simp only [leave, List.isEmpty_iff, if_neg hdone])

/-! ## Accounts -/

/-- What a session that started on a tree has done about the lines it accepted, and what it had to report. The handlings are in the order
of their answers. -/
structure Accounts (t : SchedulerTree) (lines : List String) (reports : List Reply) (answered : List Handling) (s : Session) :
    Prop where
  handled : s.handled = lines.length
  lines : (answered.map (·.toHandler) ++ s.running).Perm (numbered lines)
  replies : (s.written ++ s.queued ++ s.waiting).Perm ((t.answerAll answered).1 ++ reports)
  tree : s.tree = if s.phase = .finished then (t.answerAll answered).2.close else (t.answerAll answered).2
  drained : s.phase = .finished → s.running = [] ∧ s.waiting = [] ∧ s.queued = []
  peak : s.peak ≤ s.handled
  writer : s.writerFailed = false
  served : s.phase ≠ .failed

namespace Accounts

variable {t : SchedulerTree} {lines : List String} {reports : List Reply} {answered : List Handling} {s : Session}

/-- A session starts with nothing done. -/
theorem start (t : SchedulerTree) : Accounts t [] [] [] { tree := t } where
  handled := rfl
  lines := List.Perm.refl _
  replies := List.Perm.refl _
  tree := rfl
  drained := nofun
  peak := Nat.le_refl _
  writer := rfl
  served := nofun

/-- A reply that is handed over moves from those that wait into the channel. -/
theorem handOver (h : Accounts t lines reports answered s) (place : Nat) : Accounts t lines reports answered (s.handOver place) := by
  rcases s.handOver_cases place with hsame | ⟨reply, hreply, ⟨hfailed, -⟩ | ⟨-, -, hnext⟩⟩
  · rwa [hsame]
  · rw [h.writer] at hfailed
    cases hfailed
  · obtain ⟨hplace, hget⟩ := List.getElem?_eq_some_iff.mp hreply
    have hmoved : (reply :: s.waiting.eraseIdx place).Perm s.waiting := hget ▸ List.getElem_cons_eraseIdx_perm hplace
    rw [hnext]
    refine ⟨h.handled, h.lines, ?_, h.tree, ?_, h.peak, h.writer, h.served⟩
    · have hwaiting := (hmoved.append_left (s.written ++ s.queued)).trans h.replies
      simpa using hwaiting
    · intro hover
      rw [(h.drained hover).2.1] at hreply
      cases hreply

/-- A line that is accepted gets the next number and a handler. -/
theorem accept (h : Accounts t lines reports answered s) (hreading : s.phase = .reading) (line : String) :
    Accounts t (lines ++ [line]) reports answered (s.accept line) := by
  refine ⟨?_, ?_, h.replies, h.tree, ?_, ?_, h.writer, h.served⟩
  · rw [Session.accept, h.handled, List.length_append, List.length_singleton]
  · rw [Session.accept, h.handled]
    exact perm_numbered_of_accept h.lines line
  · intro hover
    simp [Session.accept, hreading] at hover
  · have hpeak := h.peak
    simp only [Session.accept, Session.inFlight]
    omega

/-- A handler that answers has its line handled next. -/
theorem answer (h : Accounts t lines reports answered s) (number : Nat) (surroundings : Surroundings) (now : Int) :
    ∃ handlings, Accounts t lines reports (answered ++ handlings) (s.answer number surroundings now) ∧
      (handlings = [] ∨ ∃ line, handlings = [{ number, line, surroundings, now }]) := by
  rcases s.answer_cases number surroundings now with hsame | ⟨handler, hin, rfl, hnext⟩
  · exact ⟨[], by rwa [hsame, List.append_nil], Or.inl rfl⟩
  · have hnot : s.phase ≠ .finished := by
      intro hover
      rw [(h.drained hover).1] at hin
      cases hin
    have htree := h.tree
    rw [if_neg hnot] at htree
    let handling : Handling := { handler with surroundings, now }
    have hanswered := t.answerAll_concat answered handling
    rw [SchedulerTree.answerNext, ← htree] at hanswered
    refine ⟨[handling], ?_, Or.inr ⟨_, rfl⟩⟩
    rw [hnext]
    refine ⟨h.handled, perm_numbered_of_answer hin h.lines, ?_, ?_, fun hover => absurd hover hnot, h.peak, h.writer, h.served⟩
    · have hreplies := h.replies.append_right [(s.tree.reply surroundings now handler.line).1]
      rw [List.append_assoc (t.answerAll answered).1] at hreplies
      rw [hanswered]
      simpa using hreplies.trans (List.perm_append_comm.append_left _)
    · rw [hanswered, if_neg hnot]

/-- A session that stops reading may have something to report. -/
theorem stop (h : Accounts t lines reports answered s) (hreading : s.phase = .reading) :
    Accounts t lines reports answered { s with phase := .draining } := by
  have htree := h.tree
  rw [hreading] at htree
  exact ⟨h.handled, h.lines, h.replies, htree, nofun, h.peak, h.writer, nofun⟩

/-- A report waits like any other reply. -/
theorem report (h : Accounts t lines reports answered s) (hreading : s.phase = .reading) (reply : Reply) :
    Accounts t lines (reports ++ [reply]) answered { s with waiting := s.waiting ++ [reply] } := by
  refine ⟨h.handled, h.lines, ?_, h.tree, ?_, h.peak, h.writer, h.served⟩
  · rw [← List.append_assoc, ← List.append_assoc]
    exact h.replies.append_right _
  · intro hover
    simp [hreading] at hover

/-- A reply that is written leaves the channel. -/
theorem write (h : Accounts t lines reports answered s) {reply : Reply} {rest : List Reply} (hqueued : s.queued = reply :: rest) :
    Accounts t lines reports answered { s with queued := rest, written := s.written ++ [reply] } := by
  refine ⟨h.handled, h.lines, ?_, h.tree, ?_, h.peak, h.writer, h.served⟩
  · have hreplies := h.replies
    rw [hqueued] at hreplies
    simpa using hreplies
  · intro hover
    have hempty := (h.drained hover).2.2
    rw [hqueued] at hempty
    cases hempty

/-- A session that ends has nothing under way, and closes the agents. -/
theorem leave (h : Accounts t lines reports answered s) : Accounts t lines reports answered s.leave := by
  rcases s.leave_cases with hsame | ⟨⟨hdraining, hrunning, hwaiting, -⟩, ⟨hfailed, -⟩ | ⟨-, hqueued, hnext⟩⟩
  · rwa [hsame]
  · rw [h.writer] at hfailed
    cases hfailed
  · have htree := h.tree
    rw [hdraining, if_neg nofun] at htree
    rw [hnext]
    refine ⟨h.handled, h.lines, h.replies, ?_, fun _ => ⟨hrunning, hwaiting, hqueued⟩, h.peak, h.writer, nofun⟩
    rw [if_pos rfl, ← htree]

/-- An end of a handler that is noticed changes no account. -/
theorem reap (h : Accounts t lines reports answered s) : Accounts t lines reports answered { s with reaped := s.reaped + 1 } :=
  ⟨h.handled, h.lines, h.replies, h.tree, h.drained, h.peak, h.writer, h.served⟩

end Accounts

/-! ## Steps and runs -/

theorem phase_handOver (s : Session) (place : Nat) : (s.handOver place).phase = s.phase := by
  rcases s.handOver_cases place with hnext | ⟨_, -, ⟨-, hnext⟩ | ⟨-, -, hnext⟩⟩ <;> rw [hnext]

theorem phase_answer (s : Session) (number : Nat) (surroundings : Surroundings) (now : Int) :
    (s.answer number surroundings now).phase = s.phase := by
  rcases s.answer_cases number surroundings now with hnext | ⟨_, -, -, hnext⟩ <;> rw [hnext]

/-- A session reads on unless an event stops it. -/
theorem phase_step_of_reading {s : Session} (h : s.phase = .reading) (e : SessionEvent) :
    (s.step e).phase = .reading ↔ e.stops = false := by
  cases e with
  | read line =>
    rw [step, if_pos h]
    cases line with
    | unreadable => simp [read, SessionEvent.stops, InputLine.isText]
    | text line =>
      cases hblank : Text.isBlank line <;> simp [read, accept, hblank, h, SessionEvent.stops, InputLine.isText]
  | inputEnds => simp [step, h, SessionEvent.stops]
  | shutDown => simp [step, h, SessionEvent.stops]
  | answer => simp [step, phase_answer, h, SessionEvent.stops]
  | handOver => simp [step, phase_handOver, h, SessionEvent.stops]
  | finish => simp [step, phase_handOver, phase_answer, h, SessionEvent.stops]
  | reap =>
    rw [step]
    split <;> simp [h, SessionEvent.stops]
  | write =>
    rw [step]
    split <;> simp [h, SessionEvent.stops]
  | writeFails =>
    rw [step]
    split <;> simp [h, SessionEvent.stops]
  | leave => simp [step, leave, h, SessionEvent.stops]

/-- A session that has stopped reads no more. -/
theorem phase_step_of_not_reading {s : Session} (h : s.phase ≠ .reading) (e : SessionEvent) : (s.step e).phase ≠ .reading := by
  cases e with
  | read line => rwa [step, if_neg h]
  | inputEnds => rwa [step, if_neg h]
  | shutDown => rwa [step, if_neg h]
  | answer => rwa [step, phase_answer]
  | handOver => rwa [step, phase_handOver]
  | finish => rwa [step, phase_handOver, phase_answer]
  | reap =>
    rw [step]
    split <;> exact h
  | write =>
    rw [step]
    split <;> exact h
  | writeFails =>
    rw [step]
    split <;> exact h
  | leave =>
    rw [step]
    rcases s.leave_cases with hnext | ⟨-, ⟨-, hnext⟩ | ⟨-, -, hnext⟩⟩ <;> rw [hnext]
    · exact h
    · exact nofun
    · exact nofun

/-- A session reads as long as nothing stopped it. -/
theorem phase_run_eq_reading_iff (t : SchedulerTree) (events : List SessionEvent) :
    (({ tree := t } : Session).run events).phase = .reading ↔ SessionEvent.stop? events = none := by
  induction events using List.reverseRecOn with
  | nil => exact ⟨fun _ => rfl, fun _ => rfl⟩
  | append_singleton events e ih =>
    rw [run_concat]
    cases hstop : SessionEvent.stop? events with
    | none =>
      rw [phase_step_of_reading (ih.mpr hstop), SessionEvent.stop?_concat hstop]
      cases e.stops <;> simp
    | some stop =>
      have hnot : (({ tree := t } : Session).run events).phase ≠ .reading := by
        rw [Ne, ih, hstop]
        exact nofun
      simp [phase_step_of_not_reading hnot, SessionEvent.stop?_concat_of_stop hstop]

variable {t : SchedulerTree} {lines : List String} {reports : List Reply} {answered : List Handling} {s : Session}

/-- What handlers, channel and writer do keeps the accounts. A handler that answers has its line handled next. -/
theorem Accounts.work (h : Accounts t lines reports answered s) {e : SessionEvent} (hread : ∀ line, e ≠ .read line)
    (hstops : e.stops = false) (hwrites : e ≠ .writeFails) :
    ∃ handlings, Accounts t lines reports (answered ++ handlings) (s.step e) ∧ (handlings.map (·.turn)).Sublist e.turn?.toList := by
  have hsame : ∀ {s'}, Accounts t lines reports answered s' → ∃ handlings,
      Accounts t lines reports (answered ++ handlings) s' ∧ (handlings.map (·.turn)).Sublist e.turn?.toList := by
    intro s' h'
    exact ⟨[], by rwa [List.append_nil], List.nil_sublist _⟩
  have hanswers : ∀ {number surroundings now}, e.turn? = some (number, surroundings, now) → ∃ handlings,
      Accounts t lines reports (answered ++ handlings) (s.answer number surroundings now) ∧
        (handlings.map (·.turn)).Sublist e.turn?.toList := by
    intro number surroundings now hturn
    obtain ⟨handlings, h', rfl | ⟨line, rfl⟩⟩ := h.answer number surroundings now
    · exact ⟨[], h', List.nil_sublist _⟩
    · rw [hturn]
      exact ⟨_, h', List.Sublist.refl _⟩
  cases e with
  | read line => exact absurd rfl (hread line)
  | inputEnds => cases hstops
  | shutDown => cases hstops
  | answer number surroundings now => exact hanswers rfl
  | handOver place => exact hsame (h.handOver place)
  | finish number surroundings now =>
    obtain ⟨handlings, h', hturn⟩ := hanswers rfl
    exact ⟨handlings, h'.handOver _, hturn⟩
  | reap =>
    rw [step]
    split
    · exact hsame h.reap
    · exact hsame h
  | write =>
    rw [step]
    split
    · rename_i hqueued
      exact hsame (h.write hqueued)
    · exact hsame h
  | writeFails => exact absurd rfl hwrites
  | leave => exact hsame h.leave

/-- A session that reads accepts lines and reports why it stops. -/
theorem Accounts.reads (h : Accounts t lines reports answered s) (hreading : s.phase = .reading) {e : SessionEvent}
    (he : (∃ line, e = .read line) ∨ e.stops = true) :
    Accounts t (lines ++ e.line?.toList) (reports ++ e.reports) answered (s.step e) := by
  cases e with
  | read line =>
    rw [step, if_pos hreading]
    cases line with
    | unreadable =>
      have hreport := (h.report hreading .unreadableInput).handOver s.waiting.length
      have hline : (SessionEvent.read .unreadable).line?.toList = [] := rfl
      rw [hline, List.append_nil]
      exact hreport.stop ((phase_handOver _ _).trans hreading)
    | text line =>
      cases hblank : Text.isBlank line with
      | true => simpa [read, hblank, SessionEvent.line?, InputLine.command?, SessionEvent.reports] using h
      | false => simpa [read, hblank, SessionEvent.line?, InputLine.command?, SessionEvent.reports] using h.accept hreading line
  | inputEnds => simpa [step, hreading, SessionEvent.line?, SessionEvent.reports] using h.stop hreading
  | shutDown => simpa [step, hreading, SessionEvent.line?, SessionEvent.reports] using h.stop hreading
  | _ => simp [SessionEvent.stops] at he

/-- A session that has stopped reading takes no notice of its input. -/
theorem step_of_not_reading (h : s.phase ≠ .reading) {e : SessionEvent} (he : (∃ line, e = .read line) ∨ e.stops = true) :
    s.step e = s := by
  cases e with
  | read line => rw [step, if_neg h]
  | inputEnds => rw [step, if_neg h]
  | shutDown => rw [step, if_neg h]
  | _ => simp [SessionEvent.stops] at he

/-- A step of a session keeps its accounts. -/
theorem Accounts.step {events : List SessionEvent} (h : Accounts t (SessionEvent.accepted events) (SessionEvent.reported events) answered s)
    (hphase : s.phase = .reading ↔ SessionEvent.stop? events = none) {e : SessionEvent} (hwrites : e ≠ .writeFails) :
    ∃ handlings, Accounts t (SessionEvent.accepted (events ++ [e])) (SessionEvent.reported (events ++ [e])) (answered ++ handlings)
        (s.step e) ∧ (handlings.map (·.turn)).Sublist e.turn?.toList := by
  by_cases hinput : (∃ line, e = .read line) ∨ e.stops = true
  · refine ⟨[], ?_, List.nil_sublist _⟩
    rw [List.append_nil]
    cases hstop : SessionEvent.stop? events with
    | none =>
      rw [SessionEvent.accepted_concat hstop, SessionEvent.reported_concat hstop]
      exact h.reads (hphase.mpr hstop) hinput
    | some stop =>
      rw [SessionEvent.accepted_concat_of_stop hstop, SessionEvent.reported_concat_of_stop hstop, step_of_not_reading _ hinput]
      · exact h
      · rw [Ne, hphase, hstop]
        exact nofun
  · obtain ⟨hread, hstops⟩ := not_or.mp hinput
    rw [Bool.not_eq_true] at hstops
    have hread : ∀ line, e ≠ .read line := not_exists.mp hread
    have hline : e.line? = none ∧ e.reports = [] := by
      cases e with
      | read line => exact absurd rfl (hread line)
      | _ => exact ⟨rfl, rfl⟩
    have hsame : SessionEvent.accepted (events ++ [e]) = SessionEvent.accepted events ∧
        SessionEvent.reported (events ++ [e]) = SessionEvent.reported events := by
      cases hstop : SessionEvent.stop? events with
      | none => simp [SessionEvent.accepted_concat hstop, SessionEvent.reported_concat hstop, hline]
      | some stop => exact ⟨SessionEvent.accepted_concat_of_stop hstop e, SessionEvent.reported_concat_of_stop hstop e⟩
    rw [hsame.1, hsame.2]
    exact h.work hread hstops hwrites

/-- What a run of a session has done: it reads as long as nothing stopped it, accepted the lines that came before, and its handlers
answered in the order of their turns. -/
theorem run_accounts (t : SchedulerTree) {events : List SessionEvent} (hwrites : .writeFails ∉ events) :
    let s := ({ tree := t } : Session).run events
    (s.phase = .reading ↔ SessionEvent.stop? events = none) ∧
      ∃ answered, Accounts t (SessionEvent.accepted events) (SessionEvent.reported events) answered s ∧
        (answered.map (·.turn)).Sublist (events.filterMap (·.turn?)) := by
  refine ⟨phase_run_eq_reading_iff t events, ?_⟩
  induction events using List.reverseRecOn with
  | nil => exact ⟨[], Accounts.start t, List.Sublist.refl _⟩
  | append_singleton events e ih =>
    rw [List.mem_append, not_or, List.mem_singleton] at hwrites
    obtain ⟨answered, h, hturns⟩ := ih hwrites.1
    obtain ⟨handlings, h', hturn⟩ := h.step (phase_run_eq_reading_iff t events) (Ne.symm hwrites.2)
    rw [run_concat]
    refine ⟨_, h', ?_⟩
    rw [List.map_append, List.filterMap_append]
    refine hturns.append ?_
    cases hlast : e.turn? <;> simpa [hlast] using hturn

end Session

end PlacementTree
