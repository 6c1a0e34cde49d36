import PlacementTree.Session

/-!
# A session does not depend on the ratios of its tree

A request sees the ratios of its surroundings, and a snapshot is delivered whatever the ratios are. So whoever changes the ratios of the
tree while a session runs changes nothing else, now or later (`Session.run_setRatios`), and the session itself leaves them alone
(`Session.ratios_step`).
-/

namespace PlacementTree

namespace SchedulerTree

variable (t : SchedulerTree) (ratios : OvercommitRatios)

theorem setHost_setRatios (id : String) (a : HostAgent) : (t.setRatios ratios).setHost id a = (t.setHost id a).setRatios ratios := by
  have href : (t.setRatios ratios).ref? id = t.ref? id := rfl
  unfold setHost
  rw [href]
  cases t.ref? id <;> rfl

/-- A snapshot is delivered whatever the ratios are. -/
theorem updateSnapshot_setRatios (snapshot : ResourceSnapshot) :
    (t.setRatios ratios).updateSnapshot snapshot =
      (t.updateSnapshot snapshot).map fun (next, notices) => (next.setRatios ratios, notices) := by
  have hhost : (t.setRatios ratios).host? snapshot.hostId = t.host? snapshot.hostId := rfl
  unfold updateSnapshot
  rw [hhost]
  cases t.host? snapshot.hostId with
  | none => rfl
  | some a =>
    cases h : a.updateSnapshot snapshot with
    | error cause => simp [Except.map, h]
    | ok taken => simp [Except.map, h, setHost_setRatios]

/-- A line is answered whatever the ratios are. -/
theorem reply_setRatios (s : Surroundings) (now : Int) (line : String) :
    (t.setRatios ratios).reply s now line = ((t.reply s now line).1, (t.reply s now line).2.setRatios ratios) := by
  unfold reply
  cases Command.read? line with
  | none => rfl
  | some command =>
    cases command with
    | place => rfl
    | snapshot snapshot =>
      simp only [obey, updateSnapshot_setRatios]
      cases t.updateSnapshot snapshot <;> rfl

end SchedulerTree

namespace Session

variable (s : Session) (ratios : OvercommitRatios)

theorem handOver_setRatios (place : Nat) : (s.setRatios ratios).handOver place = (s.handOver place).setRatios ratios := by
  unfold handOver setRatios
  split
  · rename_i hplace
    simp [hplace]
  · rename_i reply hreply
    simp only [hreply]
    split
    · rfl
    · split <;> rfl

theorem answer_setRatios (number : Nat) (surroundings : Surroundings) (now : Int) :
    (s.setRatios ratios).answer number surroundings now = (s.answer number surroundings now).setRatios ratios := by
  unfold answer
  have hrunning : (s.setRatios ratios).running = s.running := rfl
  rw [hrunning]
  cases s.running.find? (·.number == number) with
  | none => rfl
  | some handler =>
    have htree : (s.setRatios ratios).tree = s.tree.setRatios ratios := rfl
    simp only [htree, SchedulerTree.reply_setRatios]
    rfl

theorem leave_setRatios : (s.setRatios ratios).leave = s.leave.setRatios ratios := by
  by_cases hdone : s.phase = .draining ∧ s.running.isEmpty ∧ s.waiting.isEmpty ∧ s.inFlight = 0
  · have hleft : (s.setRatios ratios).leave = if s.writerFailed then { s.setRatios ratios with phase := .failed }
        else if s.queued.isEmpty then { s.setRatios ratios with phase := .finished, tree := (s.tree.setRatios ratios).close }
        else s.setRatios ratios := if_pos hdone
    have hright : s.leave = if s.writerFailed then { s with phase := .failed }
        else if s.queued.isEmpty then { s with phase := .finished, tree := s.tree.close } else s := if_pos hdone
    rw [hleft, hright]
    by_cases hfailed : s.writerFailed = true
    · rw [if_pos hfailed, if_pos hfailed]
      rfl
    · rw [if_neg hfailed, if_neg hfailed]
      by_cases hqueued : s.queued.isEmpty = true
      · rw [if_pos hqueued, if_pos hqueued]
        rfl
      · rw [if_neg hqueued, if_neg hqueued]
  · have hleft : (s.setRatios ratios).leave = s.setRatios ratios := if_neg hdone
    have hright : s.leave = s := if_neg hdone
    rw [hleft, hright]

/-- A line is read whatever the ratios are. -/
theorem read_setRatios (line : InputLine) : (s.setRatios ratios).read line = (s.read line).setRatios ratios := by
  cases line with
  | text line =>
    simp only [read]
    split <;> rfl
  | unreadable =>
    have hoffer : (s.setRatios ratios).offer .unreadableInput = (s.offer .unreadableInput).setRatios ratios :=
      handOver_setRatios { s with waiting := s.waiting ++ [.unreadableInput] } ratios s.waiting.length
    rw [read, hoffer]
    rfl

/-- A step is the same whatever the ratios are. -/
theorem step_setRatios (e : SessionEvent) : (s.setRatios ratios).step e = (s.step e).setRatios ratios := by
  have hphase : (s.setRatios ratios).phase = s.phase := rfl
  have hqueued : (s.setRatios ratios).queued = s.queued := rfl
  cases e with
  | read line =>
    simp only [step, hphase, read_setRatios]
    split <;> rfl
  | inputEnds =>
    simp only [step, hphase]
    split <;> rfl
  | shutDown =>
    simp only [step, hphase]
    split <;> rfl
  | answer number surroundings now => exact s.answer_setRatios ratios number surroundings now
  | handOver place => exact s.handOver_setRatios ratios place
  | finish number surroundings now =>
    simp only [step, answer_setRatios, handOver_setRatios]
    rfl
  | reap =>
    have hcount : ((s.setRatios ratios).reaped + (s.setRatios ratios).running.length + (s.setRatios ratios).waiting.length <
        (s.setRatios ratios).handled) = (s.reaped + s.running.length + s.waiting.length < s.handled) := rfl
    simp only [step, hcount]
    split <;> rfl
  | write =>
    simp only [step, hqueued]
    split <;> rfl
  | writeFails =>
    simp only [step, hqueued]
    split <;> rfl
  | leave => exact s.leave_setRatios ratios

/-- A run is the same whatever the ratios are. -/
theorem run_setRatios (events : List SessionEvent) : (s.setRatios ratios).run events = (s.run events).setRatios ratios := by
  induction events generalizing s with
  | nil => rfl
  | cons e events ih =>
    have hstep := ih (s.step e)
    rw [← step_setRatios] at hstep
    exact hstep

/-- A step leaves the ratios alone. -/
theorem ratios_step (e : SessionEvent) : (s.step e).tree.fleet.ratios = s.tree.fleet.ratios := by
  have hstep : s.step e = (s.step e).setRatios s.tree.fleet.ratios := s.step_setRatios s.tree.fleet.ratios e
  rw [hstep]
  rfl

end Session

end PlacementTree
