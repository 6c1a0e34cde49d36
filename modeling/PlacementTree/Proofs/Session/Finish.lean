import PlacementTree.Proofs.Session.Replies

/-!
# A session that stops comes to an end

Once a session has stopped reading, its handlers, the channel and the writer can always go on: each step leaves less to do
(`Session.work`), a full channel included, until the session ends. What it has written then are the replies to the lines it accepted, one
for each, and every agent of the tree is closed (`Session.answers_each_line_once`).
-/

namespace PlacementTree

namespace Session

/-- What a session that has stopped reading has yet to do: a handler answers, its reply is handed over and written, its end is noticed. -/
def work (s : Session) : Nat := 3 * s.running.length + 2 * s.waiting.length + s.queued.length + s.inFlight

variable {s : Session}

/-- How a session leaves. -/
def lastPhase (s : Session) : Phase := if s.writerFailed then .failed else .finished

/-- A session that drains can leave, or do some of its work. -/
theorem exists_step (hphase : s.phase = .draining) :
    ∃ e, ((∀ line, e ≠ .read line) ∧ e ≠ .inputEnds) ∧ e ≠ .writeFails ∧
      ((s.step e).phase = s.lastPhase ∨
        (s.step e).phase = .draining ∧ (s.step e).writerFailed = s.writerFailed ∧ (s.step e).work < s.work) := by
  cases hrunning : s.running with
  | cons handler rest =>
    let surroundings := Surroundings.steady s.tree.fleet fun _ _ _ => []
    refine ⟨.answer handler.number surroundings 0, by simp, by simp, Or.inr ⟨?_, ?_, ?_⟩⟩
    · rw [step, phase_answer, hphase]
    · simp [step, answer, hrunning]
    · simp [step, answer, hrunning, work, inFlight]
      omega
  | nil =>
    cases hwaiting : s.waiting with
    | cons reply rest =>
      by_cases hroom : s.writerFailed = true ∨ s.queued.length < channelCapacity
      · refine ⟨.handOver 0, by simp, by simp, Or.inr ⟨by rw [step, phase_handOver, hphase], ?_⟩⟩
        cases hwriter : s.writerFailed with
        | true => simp [step, handOver, hwaiting, hwriter, work, inFlight]
        | false =>
          have hroom : s.queued.length < channelCapacity := by simpa [hwriter] using hroom
          simp [step, handOver, hwaiting, hwriter, hroom, work, inFlight]
          omega
      · -- The writer makes room.
        cases hqueued : s.queued with
        | nil => simp [hqueued, channelCapacity] at hroom
        | cons first queued =>
          refine ⟨.write, by simp, by simp, Or.inr ⟨?_, ?_, ?_⟩⟩ <;> simp [step, hqueued, hphase, work, inFlight]
    | nil =>
      cases hqueued : s.queued with
      | cons first queued =>
        refine ⟨.write, by simp, by simp, Or.inr ⟨?_, ?_, ?_⟩⟩ <;> simp [step, hqueued, hphase, work, inFlight]
      | nil =>
        by_cases hflight : s.inFlight = 0
        · refine ⟨.leave, by simp, by simp, Or.inl ?_⟩
          cases hwriter : s.writerFailed <;> simp [step, leave, hphase, hrunning, hwaiting, hqueued, hflight, hwriter, lastPhase]
        · have hended : s.reaped < s.handled := by
            rw [inFlight] at hflight
            omega
          refine ⟨.reap, by simp, by simp, Or.inr ⟨?_, ?_, ?_⟩⟩
          · simp [step, hrunning, hwaiting, hended, hphase]
          · simp [step, hrunning, hwaiting, hended]
          · simp [step, hrunning, hwaiting, hended, work, inFlight]
            omega

/-- A session that drains can come to its end. -/
theorem exists_end (hphase : s.phase = .draining) :
    ∃ more, (∀ e ∈ more, ((∀ line, e ≠ .read line) ∧ e ≠ .inputEnds) ∧ e ≠ .writeFails) ∧ (s.run more).phase = s.lastPhase := by
  induction hn : s.work using Nat.strongRecOn generalizing s with
  | ind n ih =>
    obtain ⟨e, hinput, hwrites, hlast | ⟨hphase', hwriter, hless⟩⟩ := exists_step hphase
    · refine ⟨[e], ?_, hlast⟩
      intro e' he'
      obtain rfl := List.mem_singleton.mp he'
      exact ⟨hinput, hwrites⟩
    · obtain ⟨more, hmore, hlast⟩ := ih _ (hn ▸ hless) hphase' rfl
      rw [lastPhase, hwriter] at hlast
      exact ⟨e :: more, List.forall_mem_cons.mpr ⟨⟨hinput, hwrites⟩, hmore⟩, hlast⟩

/-- While its writer works this is without a failure. -/
theorem exists_finish (hphase : s.phase = .draining) (hwriter : s.writerFailed = false) :
    ∃ more, (∀ e ∈ more, ((∀ line, e ≠ .read line) ∧ e ≠ .inputEnds) ∧ e ≠ .writeFails) ∧ (s.run more).phase = .finished := by
  obtain ⟨more, hmore, hlast⟩ := exists_end hphase
  rw [lastPhase, hwriter] at hlast
  exact ⟨more, hmore, hlast⟩

/-- A serve loop answers every accepted command exactly once. For any input, and handlers, shutdown and writer in any order, as long as
the output takes all writes: the accepted lines are the first of the lines that are not blank, and all those up to the first that is no text
unless the session was shut down before; when it is over, it has written the reply of handling each of them, one for a line, and a report if
it stopped at a line that is no text; and the agents are closed. A session that has stopped reading can always come to its end. -/
theorem answers_each_line_once (t : SchedulerTree) (bytes : List UInt8) {events : List SessionEvent}
    (hreads : SessionEvent.Reads (InputLine.ofStream bytes) events) (hwrites : .writeFails ∉ events) :
    let s := ({ tree := t } : Session).run events
    let lines := SessionEvent.accepted events
    let commands := InputLine.commands (InputLine.ofStream bytes)
    (lines <+: commands ∧ commands <+: (InputLine.ofStream bytes).filterMap InputLine.command? ∧
        ∀ e, SessionEvent.stop? events = some e → e ≠ .shutDown → lines = commands) ∧
      (s.handled = lines.length ∧ s.peak ≤ s.handled) ∧
      (s.phase = .finished → ∃ answered : List Handling,
        (answered.map (·.toHandler)).Perm (numbered lines) ∧
          (answered.map (·.turn)).Sublist (events.filterMap (·.turn?)) ∧
          s.written.Perm ((t.answerAll answered).1 ++ SessionEvent.reported events) ∧
          List.Forall₂ (fun h reply => Reply.Answers h.line reply) answered (t.answerAll answered).1 ∧
          s.tree = (t.answerAll answered).2.close ∧
          ∀ ref a, s.tree.fleet.agent? ref = some a → a.closed = true) ∧
      (s.phase ≠ .reading → ∃ more, SessionEvent.Reads (InputLine.ofStream bytes) (events ++ more) ∧ .writeFails ∉ more ∧
        (s.run more).phase = .finished) := by
  intro s lines commands
  obtain ⟨hphase, answered, h, hturns⟩ := run_accounts t hwrites
  refine ⟨⟨SessionEvent.accepted_prefix hreads, InputLine.commands_prefix _, fun e => SessionEvent.accepted_eq hreads⟩,
    ⟨h.handled, h.peak⟩, ?_, ?_⟩
  · intro hfinished
    obtain ⟨hrunning, hwaiting, hqueued⟩ := h.drained hfinished
    have hlines := h.lines
    have hreplies := h.replies
    have htree : s.tree = (t.answerAll answered).2.close := h.tree.trans (if_pos hfinished)
    rw [hrunning, List.append_nil] at hlines
    rw [hwaiting, hqueued, List.append_nil, List.append_nil] at hreplies
    refine ⟨answered, hlines, hturns, hreplies, t.answerAll_answers answered, htree, ?_⟩
    intro ref a ha
    rw [htree, SchedulerTree.close, Fleet.agent?_close] at ha
    obtain ⟨a', -, rfl⟩ := Option.map_eq_some_iff.mp ha
    rfl
  · intro hstopped
    cases hphase : s.phase with
    | reading => exact absurd hphase hstopped
    | failed => exact absurd hphase h.served
    | finished => exact ⟨[], by rwa [List.append_nil], List.not_mem_nil, hphase⟩
    | draining =>
      obtain ⟨more, hmore, hfinished⟩ := exists_finish hphase h.writer
      exact ⟨more, hreads.append fun e he => (hmore e he).1, fun hin => (hmore _ hin).2 rfl, hfinished⟩

/-- Two lines that are handled at the same time: the second one asks for too much and is answered first, and each reply has the id of its
own line. -/
theorem answers_each_line_once_out_of_order :
    let small := "\x7b\"type\":\"place\",\"id\":\"a\",\"demand\":\x7b\"cpu\":1,\"memory_mb\":256\x7d\x7d"
    let large := "\x7b\"type\":\"place\",\"id\":\"b\",\"demand\":\x7b\"cpu\":8,\"memory_mb\":256\x7d\x7d"
    let bytes := [small, large].flatMap fun line => line.toByteArray.data.toList ++ [10]
    let entry : HostEntry := { id := "h", cpuCount := 4, memoryMb := 1024 }
    let t : SchedulerTree :=
      { rootId := "r", root := .scheduler "r" { limit := 1, hopLatency := 0 } [.agent ⟨0⟩] [], registry := [("h", ⟨0⟩)],
        fleet := { ratios := OvercommitRatios.none, transfer := { value := 0.5 }, agents := [HostAgent.ofSnapshot entry.snapshot 4 []] },
        defaultTimeout := 1000 }
    let surroundings := Surroundings.steady t.fleet fun _ _ _ => []
    let events : List SessionEvent :=
      [.read (.text small), .read (.text large), .inputEnds, .finish 1 surroundings 5, .finish 0 surroundings 6, .reap, .reap, .write,
        .write, .leave]
    let s := ({ tree := t } : Session).run events
    SessionEvent.Reads (InputLine.ofStream bytes) events ∧ .writeFails ∉ events ∧ SessionEvent.accepted events = [small, large] ∧
      s.phase = .finished ∧ s.handled = 2 ∧ s.peak = 2 ∧
      ∃ answered : List Handling, answered.map (·.turn) = [(1, surroundings, 5), (0, surroundings, 6)] ∧
        s.written.Perm (t.answerAll answered).1 ∧ ∃ resp, s.written = [.decision "b" .unschedulable, .decision "a" (.placed resp)] := by
  intro small large bytes entry t surroundings events s
  have hlines : InputLine.ofStream bytes = [.text small, .text large] :=
    InputLine.ofStream_texts (by decide +kernel) (by decide +kernel)
  have hreads : SessionEvent.Reads (InputLine.ofStream bytes) events := ⟨_, hlines, _, rfl, rfl, trivial⟩
  have hwrites : .writeFails ∉ events := by simp [events]
  have haccepted : SessionEvent.accepted events = [small, large] := by decide +kernel
  let resp : PlacementResponse :=
    { score := { candidateId := "h", cpuScore := ⟨0x3fe8000000000000⟩, memoryScore := ⟨0x3fe8000000000000⟩,
                 combined := ⟨0x3fe8000000000000⟩, freeMemoryMb := ⟨0x4088000000000000⟩ }
      path := ["r", "h"] }
  obtain ⟨hfinished, hpeak, hwritten⟩ : s.phase = .finished ∧ s.peak = 2 ∧
      s.written = [.decision "b" .unschedulable, .decision "a" (.placed resp)] := by
    decide +kernel
  obtain ⟨-, ⟨hhandled, -⟩, hends, -⟩ := answers_each_line_once t bytes hreads hwrites
  obtain ⟨answered, hanswered, hturns, hreplies, -⟩ := hends hfinished
  have hcount : answered.length = 2 := by
    rw [haccepted] at hanswered
    simpa [numbered] using hanswered.length_eq
  refine ⟨hreads, hwrites, haccepted, hfinished, by rw [hhandled, haccepted]; rfl, hpeak, answered, ?_, ?_, resp, hwritten⟩
  · exact hturns.eq_of_length (by rw [List.length_map, hcount]; rfl)
  · have hreported : SessionEvent.reported events = [] := rfl
    rwa [hreported, List.append_nil] at hreplies

end Session

end PlacementTree
