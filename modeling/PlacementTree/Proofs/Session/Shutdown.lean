import PlacementTree.Proofs.Node.Answer
import PlacementTree.Proofs.Session.Finish

/-!
# What a session leaves behind

However a session ends, all lines that it accepted have been handled then (`Session.Handles`). Its end does not wait for the replies to
be written, so this needs no writer that works. But the agents are closed last: a session that ends with the failure of its writer ends
before that and leaves them as it found them (`Session.agents_outlive_failed_writer`). They are closed exactly if the session finishes
without such a failure (`Session.closes_agents_unless_writer_failed`).
-/

namespace PlacementTree

namespace SchedulerTree

/-- What closes nobody leaves every agent open or closed as it was. -/
theorem Outcome.map_closed {t t' : SchedulerTree} {e : TreeEvent} (h : Outcome t e t') (he : e.closes = false) (ref : AgentRef) :
    (t'.fleet.agent? ref).map (·.closed) = (t.fleet.agent? ref).map (·.closed) := by
  cases h with
  | same => rfl
  | ratios => rfl
  | @takes _ taken a snapshot _ ha =>
    rw [Fleet.agent?_setAgent ha]
    by_cases heq : ref = taken
    · rw [if_pos heq, heq, ha, Option.map_some, Option.map_some]
    · rw [if_neg heq]
  | closesHost hcloses => cases he.symm.trans hcloses
  | closesAll hcloses => cases he.symm.trans hcloses

/-- A reply leaves the tree as it is, or as a delivery makes it. -/
theorem reply_snd (t : SchedulerTree) (s : Surroundings) (now : Int) (line : String) :
    (t.reply s now line).2 = t ∨ ∃ snapshot, (t.reply s now line).2 = t.step (.deliver snapshot) := by
  unfold reply
  cases Command.read? line with
  | none => exact Or.inl rfl
  | some command =>
    cases command with
    | place => exact Or.inl rfl
    | snapshot snapshot =>
      refine Or.inr ⟨snapshot, ?_⟩
      simp only [obey, step]
      cases t.updateSnapshot snapshot <;> rfl

/-- Handling lines closes and opens no agent. -/
theorem map_closed_answerAll (t : SchedulerTree) (handlings : List Handling) (ref : AgentRef) :
    ((t.answerAll handlings).2.fleet.agent? ref).map (·.closed) = (t.fleet.agent? ref).map (·.closed) := by
  induction handlings using List.reverseRecOn with
  | nil => rfl
  | append_singleton handlings h ih =>
    rw [answerAll_concat, ← ih, answerNext]
    rcases (t.answerAll handlings).2.reply_snd h.surroundings h.now h.line with hsame | ⟨snapshot, hstep⟩
    · rw [hsame]
    · rw [hstep]
      exact ((t.answerAll handlings).2.step_outcome (.deliver snapshot)).map_closed rfl ref

end SchedulerTree

namespace Session

/-- A session that is over, with or without a failure. -/
def Over (s : Session) : Prop := s.phase = .finished ∨ s.phase = .failed

/-- What a session that started on a tree has done about the lines it accepted, whatever becomes of the replies. The handlings are in the
order of their answers. -/
structure Handles (t : SchedulerTree) (lines : List String) (answered : List Handling) (s : Session) : Prop where
  handled : s.handled = lines.length
  lines : (answered.map (·.toHandler) ++ s.running).Perm (numbered lines)
  tree : s.tree = if s.phase = .finished then (t.answerAll answered).2.close else (t.answerAll answered).2
  done : s.Over → s.running = [] ∧ s.waiting = [] ∧ s.inFlight = 0
  failed : s.phase = .failed → s.writerFailed = true

/-- What is done elsewhere than with the handlers and the tree. -/
structure Spares (s s' : Session) : Prop where
  tree : s'.tree = s.tree
  phase : s'.phase = s.phase
  running : s'.running = s.running
  handled : s'.handled = s.handled
  reaped : s'.reaped = s.reaped
  waiting : s.waiting = [] → s'.waiting = []
  writerFailed : s.writerFailed = true → s'.writerFailed = true

namespace Handles

variable {t : SchedulerTree} {lines : List String} {answered : List Handling} {s s' : Session}

/-- A session starts with nothing done. -/
theorem start (t : SchedulerTree) : Handles t [] [] { tree := t } :=
  ⟨rfl, List.Perm.refl _, rfl, fun hover => Or.elim hover nofun nofun, nofun⟩

/-- What spares the handlers and the tree changes nothing about what they have done. -/
theorem spares (h : Handles t lines answered s) (hs : s.Spares s') : Handles t lines answered s' := by
  refine ⟨hs.handled.trans h.handled, hs.running.symm ▸ h.lines, ?_, ?_, ?_⟩
  · rw [hs.tree, hs.phase, h.tree]
  · intro hover
    rw [Over, hs.phase] at hover
    obtain ⟨hrunning, hwaiting, hflight⟩ := h.done hover
    refine ⟨hs.running.trans hrunning, hs.waiting hwaiting, ?_⟩
    rwa [inFlight, hs.handled, hs.reaped]
  · intro hfailed
    exact hs.writerFailed (h.failed (hs.phase.symm.trans hfailed))

/-- A session that stops reading goes on with what is under way. -/
theorem stop (h : Handles t lines answered s) (hreading : s.phase = .reading) :
    Handles t lines answered { s with phase := .draining } := by
  have htree := h.tree
  rw [hreading] at htree
  exact ⟨h.handled, h.lines, htree, fun hover => Or.elim hover nofun nofun, nofun⟩

/-- A report waits like any other reply. -/
theorem report (h : Handles t lines answered s) (hreading : s.phase = .reading) (reply : Reply) :
    Handles t lines answered { s with waiting := s.waiting ++ [reply] } := by
  refine ⟨h.handled, h.lines, h.tree, ?_, h.failed⟩
  rintro (hover | hover) <;> cases hreading.symm.trans hover

/-- A line that is accepted gets the next number and a handler. -/
theorem accept (h : Handles t lines answered s) (hreading : s.phase = .reading) (line : String) :
    Handles t (lines ++ [line]) answered (s.accept line) := by
  have hphase : (s.accept line).phase = .reading := hreading
  refine ⟨?_, ?_, ?_, ?_, ?_⟩
  · rw [Session.accept, h.handled, List.length_append, List.length_singleton]
  · rw [Session.accept, h.handled]
    exact perm_numbered_of_accept h.lines line
  · exact h.tree
  · rintro (hover | hover) <;> cases hphase.symm.trans hover
  · intro hfailed
    cases hphase.symm.trans hfailed

/-- A handler that answers has its line handled next. -/
theorem answer (h : Handles t lines answered s) (number : Nat) (surroundings : Surroundings) (now : Int) :
    ∃ handlings, Handles t lines (answered ++ handlings) (s.answer number surroundings now) ∧
      (handlings.map (·.turn)).Sublist [(number, surroundings, now)] := by
  rcases s.answer_cases number surroundings now with hsame | ⟨handler, hin, rfl, hnext⟩
  · exact ⟨[], by rwa [hsame, List.append_nil], List.nil_sublist _⟩
  · have hnot : ¬s.Over := by
      intro hover
      rw [(h.done hover).1] at hin
      cases hin
    obtain ⟨hfinished, hfailed⟩ := not_or.mp hnot
    have htree := h.tree
    rw [if_neg hfinished] at htree
    let handling : Handling := { handler with surroundings, now }
    have hanswered := t.answerAll_concat answered handling
    rw [SchedulerTree.answerNext, ← htree] at hanswered
    refine ⟨[handling], ?_, List.Sublist.refl _⟩
    rw [hnext]
    refine ⟨h.handled, perm_numbered_of_answer hin h.lines, ?_, fun hover => absurd hover hnot, fun hover => absurd hover hfailed⟩
    rw [hanswered, if_neg hfinished]

/-- An end of a handler is noticed only while there is one. -/
theorem reap (h : Handles t lines answered s) (hended : s.reaped < s.handled) :
    Handles t lines answered { s with reaped := s.reaped + 1 } := by
  refine ⟨h.handled, h.lines, h.tree, ?_, h.failed⟩
  intro hover
  have hflight := (h.done hover).2.2
  rw [inFlight] at hflight
  omega

/-- A session that ends has nothing under way. It closes the agents unless the writer failed. -/
theorem leave (h : Handles t lines answered s) : Handles t lines answered s.leave := by
  rcases s.leave_cases with hsame | ⟨hdone, hleft⟩
  · rwa [hsame]
  · have htree := h.tree
    rw [hdone.1, if_neg nofun] at htree
    rcases hleft with ⟨hfailed, hnext⟩ | ⟨-, -, hnext⟩ <;> rw [hnext]
    · exact ⟨h.handled, h.lines, by rw [if_neg nofun, ← htree], fun _ => hdone.2, fun _ => hfailed⟩
    · exact ⟨h.handled, h.lines, by rw [if_pos rfl, ← htree], fun _ => hdone.2, nofun⟩

end Handles

/-- Handing a reply over concerns neither the handlers nor the tree. -/
theorem spares_handOver (s : Session) (place : Nat) : s.Spares (s.handOver place) := by
  have hsome : ∀ {reply}, s.waiting[place]? = some reply → s.waiting ≠ [] := by
    intro reply hreply hnil
    rw [hnil] at hreply
    cases hreply
  rcases s.handOver_cases place with hnext | ⟨reply, hreply, ⟨-, hnext⟩ | ⟨-, -, hnext⟩⟩ <;> rw [hnext]
  · exact ⟨rfl, rfl, rfl, rfl, rfl, id, id⟩
  · exact ⟨rfl, rfl, rfl, rfl, rfl, fun hnil => absurd hnil (hsome hreply), id⟩
  · exact ⟨rfl, rfl, rfl, rfl, rfl, fun hnil => absurd hnil (hsome hreply), id⟩

/-! ## Steps and runs -/

variable {t : SchedulerTree} {lines : List String} {answered : List Handling} {s : Session}

/-- A session that reads takes the line of an event, if it has one. -/
theorem Handles.read (h : Handles t lines answered s) (hreading : s.phase = .reading) (line : InputLine) :
    Handles t (lines ++ line.command?.toList) answered (s.read line) := by
  cases line with
  | unreadable =>
    have hoffered : Handles t lines answered (s.offer .unreadableInput) :=
      (h.report hreading .unreadableInput).spares (spares_handOver _ _)
    rw [InputLine.command?, Option.toList_none, List.append_nil]
    exact hoffered.stop ((phase_handOver _ _).trans hreading)
  | text line =>
    cases hblank : Text.isBlank line with
    | true => simpa [Session.read, InputLine.command?, hblank] using h
    | false => simpa [Session.read, InputLine.command?, hblank] using h.accept hreading line

/-- A step of a session adds the line that it accepts and the handling of the handler that it lets answer. -/
theorem Handles.step (h : Handles t lines answered s) (e : SessionEvent) :
    ∃ handlings, Handles t (lines ++ if s.phase = .reading then e.line?.toList else []) (answered ++ handlings) (s.step e) ∧
      (handlings.map (·.turn)).Sublist e.turn?.toList := by
  have hsame : e.line? = none → (lines ++ if s.phase = .reading then e.line?.toList else []) = lines := by
    intro hline
    rw [hline, Option.toList_none, ite_self, List.append_nil]
  have hquiet : ∀ {s'}, e.line? = none → Handles t lines answered s' → ∃ handlings,
      Handles t (lines ++ if s.phase = .reading then e.line?.toList else []) (answered ++ handlings) s' ∧
        (handlings.map (·.turn)).Sublist e.turn?.toList := by
    intro s' hline h'
    refine ⟨[], ?_, List.nil_sublist _⟩
    rwa [hsame hline, List.append_nil]
  cases e with
  | read line =>
    refine ⟨[], ?_, List.nil_sublist _⟩
    rw [Session.step, List.append_nil]
    split
    · rename_i hreading
      exact h.read hreading line
    · rwa [List.append_nil]
  | inputEnds | shutDown =>
    apply hquiet rfl
    rw [Session.step]
    split
    · exact h.stop ‹_›
    · exact h
  | answer number surroundings now =>
    obtain ⟨handlings, h', hturn⟩ := h.answer number surroundings now
    exact ⟨handlings, (hsame rfl).symm ▸ h', hturn⟩
  | handOver place => exact hquiet rfl (h.spares (s.spares_handOver place))
  | finish number surroundings now =>
    obtain ⟨handlings, h', hturn⟩ := h.answer number surroundings now
    exact ⟨handlings, (hsame rfl).symm ▸ h'.spares (spares_handOver _ _), hturn⟩
  | reap =>
    apply hquiet rfl
    rw [Session.step]
    split
    · exact h.reap (by omega)
    · exact h
  | write =>
    apply hquiet rfl
    rw [Session.step]
    split
    · exact h.spares ⟨rfl, rfl, rfl, rfl, rfl, id, id⟩
    · exact h
  | writeFails =>
    apply hquiet rfl
    rw [Session.step]
    split
    · exact h
    · exact h.spares ⟨rfl, rfl, rfl, rfl, rfl, fun _ => rfl, fun _ => rfl⟩
  | leave => exact hquiet rfl h.leave

/-- What a run of a session has done about its lines. -/
theorem run_handles (t : SchedulerTree) (events : List SessionEvent) :
    ∃ answered, Handles t (SessionEvent.accepted events) answered (({ tree := t } : Session).run events) ∧
      (answered.map (·.turn)).Sublist (events.filterMap (·.turn?)) := by
  induction events using List.reverseRecOn with
  | nil => exact ⟨[], Handles.start t, List.Sublist.refl _⟩
  | append_singleton events e ih =>
    obtain ⟨answered, h, hturns⟩ := ih
    have haccepted : SessionEvent.accepted (events ++ [e]) = SessionEvent.accepted events ++
        if (({ tree := t } : Session).run events).phase = .reading then e.line?.toList else [] := by
      split
      · rename_i hreading
        exact SessionEvent.accepted_concat ((phase_run_eq_reading_iff t events).mp hreading) e
      · rename_i hreading
        rw [phase_run_eq_reading_iff] at hreading
        obtain ⟨stop, hstop⟩ := Option.ne_none_iff_exists'.mp hreading
        rw [SessionEvent.accepted_concat_of_stop hstop, List.append_nil]
    obtain ⟨handlings, h', hturn⟩ := h.step e
    rw [run_concat, haccepted]
    refine ⟨answered ++ handlings, h', ?_⟩
    rw [List.map_append, List.filterMap_append]
    refine hturns.append ?_
    cases hlast : e.turn? <;> simpa [hlast] using hturn

/-! ## The end of a session -/

/-- A writer fails only by an event that says so. -/
theorem writeFails_of_writerFailed {events : List SessionEvent} (h : (({ tree := t } : Session).run events).writerFailed = true) :
    .writeFails ∈ events := by
  by_contra hwrites
  obtain ⟨-, answered, haccounts, -⟩ := run_accounts t hwrites
  rw [haccounts.writer] at h
  cases h

/-- However a session is stopped and its output behaves, once it is over every line that it accepted has been handled, by handlers that
have all ended, and the tree is what handling them made of it, closed or not. If the session finished, every agent is closed and refuses
what is not expired. If it left with a failure, that is one of the writer, and every agent is open or closed as it was before the first
line. A session that has stopped reading can always come to its end, and then leaves in the one way or the other as its writer did not
fail or did. -/
theorem closes_agents_unless_writer_failed (t : SchedulerTree) (events : List SessionEvent) :
    let s := ({ tree := t } : Session).run events
    (s.Over → (s.running = [] ∧ s.waiting = [] ∧ s.inFlight = 0) ∧
        ∃ answered : List Handling, (answered.map (·.toHandler)).Perm (numbered (SessionEvent.accepted events)) ∧
          (answered.map (·.turn)).Sublist (events.filterMap (·.turn?)) ∧
          s.tree = if s.phase = .finished then (t.answerAll answered).2.close else (t.answerAll answered).2) ∧
      (s.phase = .finished → ∀ ref a, s.tree.fleet.agent? ref = some a → a.closed = true ∧
        ∀ ratios transfer (r : PlacementRequest) now, r.expired now = false →
          a.answer ratios transfer r now = .failed (.unavailable a.id .shutDown)) ∧
      (s.phase = .failed → .writeFails ∈ events ∧
        ∀ ref, (s.tree.fleet.agent? ref).map (·.closed) = (t.fleet.agent? ref).map (·.closed)) ∧
      (s.phase ≠ .reading → ∃ more, (∀ e ∈ more, ((∀ line, e ≠ .read line) ∧ e ≠ .inputEnds) ∧ e ≠ .writeFails) ∧
        (s.run more).Over ∧ (s.phase = .draining → ((s.run more).phase = .failed ↔ s.writerFailed = true))) := by
  intro s
  obtain ⟨answered, h, hturns⟩ := run_handles t events
  refine ⟨?_, ?_, ?_, ?_⟩
  · intro hover
    have hdone := h.done hover
    have hlines := h.lines
    rw [hdone.1, List.append_nil] at hlines
    exact ⟨hdone, answered, hlines, hturns, h.tree⟩
  · intro hfinished ref a ha
    have htree : s.tree = (t.answerAll answered).2.close := h.tree.trans (if_pos hfinished)
    rw [htree, SchedulerTree.close, Fleet.agent?_close] at ha
    obtain ⟨a', -, rfl⟩ := Option.map_eq_some_iff.mp ha
    exact ⟨rfl, fun ratios transfer r now hexpired => HostAgent.answer_of_closed rfl ratios transfer hexpired⟩
  · intro hfailed
    refine ⟨writeFails_of_writerFailed (h.failed hfailed), fun ref => ?_⟩
    have htree : s.tree = (t.answerAll answered).2 := h.tree.trans (if_neg (by simp [s, hfailed]))
    rw [htree, t.map_closed_answerAll]
  · intro hstopped
    cases hphase : s.phase with
    | reading => exact absurd hphase hstopped
    | finished => exact ⟨[], by simp, Or.inl hphase, by simp⟩
    | failed => exact ⟨[], by simp, Or.inr hphase, by simp⟩
    | draining =>
      obtain ⟨more, hmore, hlast⟩ := exists_end hphase
      refine ⟨more, hmore, ?_, fun _ => ?_⟩
      · rw [Over, hlast, lastPhase]
        cases s.writerFailed <;> simp
      · rw [hlast, lastPhase]
        cases s.writerFailed <;> simp

/-- Input that is no text, and an output that fails at the report of it: the session is over, and the one host of the tree serves on. -/
theorem agents_outlive_failed_writer :
    let inv : Inventory := { root := "r", schedulers := [⟨"r", ["h"], []⟩], hosts := [{ id := "h", cpuCount := 4, memoryMb := 1024 }] }
    let events : List SessionEvent := [.read .unreadable, .writeFails, .leave]
    SessionEvent.Reads (InputLine.ofStream [255]) events ∧
      ∃ t a, SchedulerTree.ofInventory inv {} [] = .ok t ∧
        let s := ({ tree := t } : Session).run events
        s.phase = .failed ∧ s.tree.host? "h" = some a ∧
          ∀ ratios transfer (r : PlacementRequest) now, r.expired now = false →
            a.answer ratios transfer r now = .decided (a.decision ratios transfer r) := by
  intro inv events
  have hlines : InputLine.ofStream [255] = [.unreadable] := by decide +kernel
  obtain ⟨t, a, ht, ha, hopen⟩ : ∃ t a, SchedulerTree.ofInventory inv {} [] = .ok t ∧ t.host? "h" = some a ∧ a.closed = false :=
    ⟨_, _, rfl, rfl, rfl⟩
  exact ⟨⟨[], hlines, trivial⟩, t, a, ht, rfl, ha, fun ratios transfer r now => HostAgent.answer_of_open hopen ratios transfer⟩

end Session

end PlacementTree
