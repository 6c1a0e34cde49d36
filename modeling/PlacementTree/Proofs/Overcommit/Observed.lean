import Mathlib.Data.List.Basic
import PlacementTree.Proofs.Overcommit.Range

/-!
# What the follower of a feed observes

Values that are published between two turns of the follower overwrite each other, and one that is refused may overwrite one that is not. So
what is in force does not follow from what was published alone, but from what the follower observed of it: the ratios in force, once it is
done with all that it took up, are those found in the beginning with every observed value put over them in order
(`OvercommitFeed.settled_foldl_run`). Of the published values it observes some, in order (`OvercommitFeed.observed_sublist`); the first one
is the value present when it starts (`OvercommitFeed.observed_of_fresh`), and the last one is never among those it misses
(`OvercommitFeed.getLast?_observed`).
-/

namespace PlacementTree

/-- The ratios after settings were put over others: what the settings say, or the others if one of the values is out of range. -/
def OvercommitSettings.over (settings : OvercommitSettings) (found : OvercommitRatios) : OvercommitRatios :=
  if OutOfRange settings.cpu ∨ OutOfRange settings.memory then found else settings.asRatios

/-- The planned writes lead exactly there. -/
theorem OvercommitSettings.foldl_writesFrom_eq_over (settings : OvercommitSettings) (found : OvercommitRatios) :
    ((settings.writesFrom found).toOption.getD []).foldl OvercommitRatios.write found = settings.over found := by
  have hratios := settings.ratios_eq
  unfold OvercommitSettings.over
  by_cases hcpu : OutOfRange settings.cpu
  · rw [if_pos hcpu] at hratios
    rw [if_pos (Or.inl hcpu), OvercommitSettings.writesFrom, hratios]
    rfl
  · by_cases hmemory : OutOfRange settings.memory
    · rw [if_neg hcpu, if_pos hmemory] at hratios
      rw [if_pos (Or.inr hmemory), OvercommitSettings.writesFrom, hratios]
      rfl
    · rw [if_neg hcpu, if_neg hmemory] at hratios
      rw [if_neg (not_or.mpr ⟨hcpu, hmemory⟩)]
      exact OvercommitSettings.foldl_writesFrom hratios found

namespace OvercommitFeed

variable {f f' : OvercommitFeed} {r r' : OvercommitRatios} {e : FeedEvent}

/-- The value that the follower takes up by an event, given the feed before and after it. -/
def takenUp (f f' : OvercommitFeed) : List OvercommitSettings := if f.held.isSome then [] else f'.held.toList

/-- The values that the follower observes, in order. -/
def observed : OvercommitFeed × OvercommitRatios → List FeedEvent → List OvercommitSettings
  | _, [] => []
  | state, e :: events => takenUp state.1 (FeedEvent.run state e).1 ++ observed (FeedEvent.run state e) events

theorem observed_append (state : OvercommitFeed × OvercommitRatios) (events more : List FeedEvent) :
    observed state (events ++ more) = observed state events ++ observed (events.foldl FeedEvent.run state) more := by
  induction events generalizing state with
  | nil => rfl
  | cons e events ih => rw [List.cons_append, observed, observed, ih, List.append_assoc, List.foldl_cons]

/-- A value that stays as it is was not taken up. -/
theorem takenUp_of_held_eq (h : f'.held = f.held) : takenUp f f' = [] := by
  rw [takenUp, h]
  cases f.held <;> rfl

/-- A value that the follower did not hold before was. -/
theorem takenUp_of_held_eq_none {settings : OvercommitSettings} (hnone : f.held = none) (hsome : f'.held = some settings) :
    takenUp f f' = [settings] := by
  rw [takenUp, hnone, hsome]
  rfl

/-! ## Every round puts the value observed over what is in force -/

/-- The ratios in force once the follower is done with what it has taken up. -/
def settled (f : OvercommitFeed) (r : OvercommitRatios) : OvercommitRatios :=
  match f.held with
  | some settings => settings.over r
  | none => f.target r

theorem settled_of_held {settings : OvercommitSettings} (h : f.held = some settings) (r : OvercommitRatios) :
    f.settled r = settings.over r := by
  rw [settled, h]

theorem settled_of_held_eq_none (h : f.held = none) (r : OvercommitRatios) : f.settled r = f.target r := by
  rw [settled, h]

/-- A follower that has taken up nothing has all it observed in force. -/
theorem settled_of_idle (h : f.adopting = false) (r : OvercommitRatios) : f.settled r = r := by
  obtain ⟨hheld, hplanned⟩ := adopting_eq_false_iff.mp h
  rw [settled_of_held_eq_none hheld, target, hplanned]
  rfl

/-- An event leaves it where the follower gets to, but for a value that it takes up. -/
theorem Turn.settled (h : Turn f r e f' r') (hcurrent : Current f r) :
    f'.settled r' = (takenUp f f').foldl (fun found settings => settings.over found) (f.settled r) := by
  cases h with
  | observes _ hheld hplanned =>
    have hidle : f.settled r = r := settled_of_idle (adopting_eq_false_iff.mpr ⟨hheld, hplanned⟩) r
    rw [takenUp_of_held_eq_none hheld rfl, hidle]
    rfl
  | @plans settings _ hheld =>
    have htaken : takenUp f { f with held := none, planned := (settings.writesFrom r).toOption.getD [] } = [] := by
      rw [takenUp, hheld]
      rfl
    rw [htaken, settled_of_held hheld]
    exact settings.foldl_writesFrom_eq_over r
  | @writes w ws _ hplanned =>
    have hheld : f.held = none := hcurrent.held_of_planned hplanned
    rw [takenUp_of_held_eq, settled_of_held_eq_none, target_write hplanned, settled_of_held_eq_none hheld]
    · rfl
    · exact hheld
    · rfl
  | publishes | stops | leaves | rests => rw [takenUp_of_held_eq] <;> rfl

/-- So does a run: every value it observes is put over what was in force. -/
theorem settled_foldl_run (hcurrent : Current f r) (events : List FeedEvent) :
    (events.foldl FeedEvent.run (f, r)).1.settled (events.foldl FeedEvent.run (f, r)).2 =
      (observed (f, r) events).foldl (fun found settings => settings.over found) (f.settled r) := by
  induction events generalizing f r with
  | nil => rfl
  | cons e events ih =>
    have hturn := turn_run f r e
    rw [List.foldl_cons, observed, List.foldl_append, ← hturn.settled hcurrent]
    exact ih (hcurrent.turn hturn)

/-- Between two times at which the follower has taken up nothing, what was in force gets all it observed put over it. -/
theorem foldl_run_of_idle (hcurrent : Current f r) (hidle : f.adopting = false) {events : List FeedEvent}
    (hafter : (events.foldl FeedEvent.run (f, r)).1.adopting = false) :
    (events.foldl FeedEvent.run (f, r)).2 = (observed (f, r) events).foldl (fun found settings => settings.over found) r := by
  have hrun := settled_foldl_run hcurrent events
  rwa [settled_of_idle hafter, settled_of_idle hidle] at hrun

/-! ## Which values are observed -/

/-- The value published last, unless it was observed. -/
def overdue (f : OvercommitFeed) : List OvercommitSettings := if f.unseen then [f.latest] else []

/-- An event takes up what is overdue, or leaves it and may replace it by what is published. -/
theorem Turn.overdue (h : Turn f r e f' r') :
    (takenUp f f' ++ f'.overdue).Sublist (f.overdue ++ (e.published? f.publishing).toList) := by
  cases h with
  | publishes _ hpublished =>
    rw [takenUp_of_held_eq, hpublished]
    · cases hunseen : f.unseen <;> simp [OvercommitFeed.overdue, hunseen]
    · rfl
  | observes hnone hheld _ hunseen => simp [takenUp, OvercommitFeed.overdue, hnone, hheld, hunseen]
  | plans hnone hheld => simp [takenUp, OvercommitFeed.overdue, hnone, hheld]
  | writes hnone | stops hnone | leaves hnone | rests hnone =>
    rw [takenUp_of_held_eq, hnone]
    · exact List.sublist_append_left _ _
    · rfl

/-- The follower observes some of the published values, in order. -/
theorem observed_sublist (f : OvercommitFeed) (r : OvercommitRatios) (events : List FeedEvent) :
    (observed (f, r) events).Sublist (f.overdue ++ FeedEvent.published f.publishing events) := by
  induction events generalizing f r with
  | nil => exact List.nil_sublist _
  | cons e events ih =>
    have hrest := ih (FeedEvent.run (f, r) e).1 (FeedEvent.run (f, r) e).2
    rw [publishing_run] at hrest
    rw [observed, FeedEvent.published, ← List.append_assoc]
    refine (hrest.append_left _).trans ?_
    rw [← List.append_assoc]
    exact (turn_run f r e).overdue.append_right _

/-- An event that leaves nothing unseen leaves the value published last as the one observed last. -/
theorem Turn.getLast?_observed (h : Turn f r e f' r') {before : List OvercommitSettings}
    (hbefore : f.unseen = false → before.getLast? = some f.latest) (hseen : f'.unseen = false) :
    (before ++ takenUp f f').getLast? = some f'.latest := by
  cases h with
  | publishes => cases hseen
  | observes _ hheld => rw [takenUp_of_held_eq_none hheld rfl, List.getLast?_concat]
  | plans _ hheld =>
    rw [takenUp, hheld, Option.isSome_some, if_pos rfl, List.append_nil]
    exact hbefore hseen
  | writes | stops | leaves | rests =>
    rw [takenUp_of_held_eq, List.append_nil]
    · exact hbefore hseen
    · rfl

/-- With nothing left unseen, the value observed last is the one published last. -/
theorem getLast?_observed (before : List OvercommitSettings) (hbefore : f.unseen = false → before.getLast? = some f.latest)
    (events : List FeedEvent) (hseen : (events.foldl FeedEvent.run (f, r)).1.unseen = false) :
    (before ++ observed (f, r) events).getLast? = some (events.foldl FeedEvent.run (f, r)).1.latest := by
  induction events generalizing f r before with
  | nil =>
    rw [observed, List.append_nil]
    exact hbefore hseen
  | cons e events ih =>
    rw [observed, ← List.append_assoc]
    exact ih _ (fun hnow => (turn_run f r e).getLast?_observed hbefore hnow) hseen

/-! ## The beginning -/

/-- A feed whose follower has not observed anything yet. -/
structure Fresh (f : OvercommitFeed) : Prop where
  held : f.held = none
  planned : f.planned = []
  unseen : f.unseen = true
  following : f.following = true

theorem Fresh.start (initial : OvercommitSettings) : (start initial).Fresh := ⟨rfl, rfl, rfl, rfl⟩

/-- It stays so as long as the follower does not observe. -/
theorem Fresh.run (h : f.Fresh) (he : e ≠ .follow .observe) : (FeedEvent.run (f, r) e).1.Fresh := by
  cases e with
  | publish settings =>
    simp only [FeedEvent.run, publish]
    split
    · exact ⟨h.held, h.planned, rfl, h.following⟩
    · exact h
  | stop => exact ⟨h.held, h.planned, h.unseen, h.following⟩
  | follow turn =>
    cases turn with
    | observe => exact absurd rfl he
    | plan =>
      simp only [FeedEvent.run, follow, h.held]
      exact h
    | write =>
      simp only [FeedEvent.run, follow, h.planned]
      exact h
    | leave =>
      simp only [FeedEvent.run, follow, atRest, h.following, h.unseen, Bool.not_true, Bool.and_false, Bool.or_self, Bool.false_and]
      exact h

theorem Fresh.foldl_run (h : f.Fresh) {before : List FeedEvent} (hbefore : .follow .observe ∉ before) :
    (before.foldl FeedEvent.run (f, r)).1.Fresh ∧ observed (f, r) before = [] := by
  induction before generalizing f r with
  | nil => exact ⟨h, rfl⟩
  | cons e before ih =>
    have he : e ≠ .follow .observe := fun heq => hbefore (heq ▸ List.mem_cons_self)
    have hnext : (FeedEvent.run (f, r) e).1.Fresh := h.run he
    obtain ⟨hfresh, hnothing⟩ := ih (r := (FeedEvent.run (f, r) e).2) hnext fun hmem => hbefore (List.mem_cons_of_mem _ hmem)
    refine ⟨hfresh, ?_⟩
    rw [observed, takenUp_of_held_eq (hnext.held.trans h.held.symm)]
    exact hnothing

/-- Its first turn takes up the value published last before it. -/
theorem observed_of_fresh (h : f.Fresh) {before : List FeedEvent} (hbefore : .follow .observe ∉ before) (after : List FeedEvent) :
    (observed (f, r) (before ++ .follow .observe :: after)).head? =
      some ((FeedEvent.published f.publishing before).getLastD f.latest) := by
  obtain ⟨hfresh, hnothing⟩ : (before.foldl FeedEvent.run (f, r)).1.Fresh ∧ observed (f, r) before = [] := h.foldl_run hbefore
  rw [observed_append, hnothing, List.nil_append, observed, ← latest_foldl_run f r before]
  simp [takenUp, FeedEvent.run, follow, adopting, hfresh.held, hfresh.planned, hfresh.unseen, hfresh.following]

/-! ## The end -/

/-- Nobody publishes again. -/
theorem publishing_foldl_run_of_stopped (hstopped : f.publishing = false) (events : List FeedEvent) :
    (events.foldl FeedEvent.run (f, r)).1.publishing = false := by
  induction events generalizing f r with
  | nil => exact hstopped
  | cons e events ih =>
    have hnext : (FeedEvent.run (f, r) e).1.publishing = false := by rw [publishing_run, hstopped, Bool.false_and]
    exact ih hnext

/-- Once nobody publishes any more, a follower that has begun nothing ends with its next round. -/
theorem following_settle (h : Current f r) (hidle : f.adopting = false) (hstopped : f.publishing = false) :
    (f.settle r).1.following = false := by
  have hrest := atRest_settle h hidle
  have hpublishing : (([.observe, .plan, .write, .write].map FeedEvent.follow).foldl FeedEvent.run (f, r)).1.publishing = false :=
    publishing_foldl_run_of_stopped hstopped _
  have hround : f.settle r = (([.observe, .plan, .write, .write].map FeedEvent.follow).foldl FeedEvent.run (f, r)).1.follow
      (([.observe, .plan, .write, .write].map FeedEvent.follow).foldl FeedEvent.run (f, r)).2 .leave := rfl
  rw [hround, follow_leave] at hrest ⊢
  generalize (([.observe, .plan, .write, .write].map FeedEvent.follow).foldl FeedEvent.run (f, r)).1 = g at hpublishing hrest ⊢
  -- Leaving is the last turn of the round, so if the follower has nothing to do after it then it had nothing to do before.
  cases hbefore : g.atRest with
  | false => simp [hbefore] at hrest
  | true => simp [hpublishing]

/-- A feed whose follower is gone does not change any more, and the ratios do not change through it. -/
theorem Current.foldl_run_of_gone (h : Current f r) (hgone : f.following = false) (events : List FeedEvent) :
    events.foldl FeedEvent.run (f, r) = (f, r) := by
  obtain ⟨hheld, hplanned, hunseen, hpublishing⟩ := h.gone hgone
  have hstep (e : FeedEvent) : FeedEvent.run (f, r) e = (f, r) := by
    obtain ⟨latest, held, planned, unseen, publishing, following⟩ := f
    simp only at hheld hplanned hunseen hpublishing hgone
    subst hheld hplanned hunseen hpublishing hgone
    cases e with
    | publish settings => rfl
    | stop => rfl
    | follow turn => cases turn <;> rfl
  induction events with
  | nil => rfl
  | cons e events ih => rw [List.foldl_cons, hstep, ih]

/-- Left alone, the follower ends once nobody publishes any more. -/
theorem following_settle_settle (h : Current f r) (hstopped : f.publishing = false) :
    ((f.settle r).1.settle (f.settle r).2).1.following = false :=
  following_settle h.settle (adopting_settle h) (publishing_foldl_run_of_stopped hstopped (round.map .follow))

/-- Whatever is published, and whenever the follower gets its turns: a round in which it observes one value leaves that in force if both of
its ratios are in range, and otherwise what was in force before. Whenever there is nothing left for it to do, it has observed the value
published last, which is then in force if it is in range. What it observes are some of the values, in order, beginning with the one
present at its first turn. If nobody publishes any more then left alone it ends; it ends with nothing unseen, and from then on nothing
changes. -/
theorem observes_first_and_last (initial : OvercommitSettings) (r : OvercommitRatios) (events : List FeedEvent) :
    let s := events.foldl FeedEvent.run (start initial, r)
    let seen := observed (start initial, r) events
    let last := (FeedEvent.published true events).getLastD initial
    (∀ (turns : List FeedEvent) (value : OvercommitSettings), s.1.adopting = false → observed s turns = [value] →
        (turns.foldl FeedEvent.run s).1.adopting = false →
        (turns.foldl FeedEvent.run s).2 = if OutOfRange value.cpu ∨ OutOfRange value.memory then s.2 else value.asRatios) ∧
      (s.1.atRest = true →
        seen.getLast? = some last ∧ (¬OutOfRange last.cpu → ¬OutOfRange last.memory → s.2 = last.asRatios)) ∧
      seen.Sublist (initial :: FeedEvent.published true events) ∧
      (∀ before after, .follow .observe ∉ before → events = before ++ .follow .observe :: after →
        seen.head? = some ((FeedEvent.published true before).getLastD initial)) ∧
      (s.1.publishing = false → (((round ++ round).map .follow).foldl FeedEvent.run s).1.following = false) ∧
      (s.1.following = false → s.1.publishing = false ∧ s.1.atRest = true ∧ ∀ later : List FeedEvent, later.foldl FeedEvent.run s = s) := by
  intro s seen last
  have hcurrent : Current s.1 s.2 := (Current.start initial r).foldl_run events
  have hlatest : s.1.latest = last := latest_foldl_run (start initial) r events
  refine ⟨fun turns value hidle hround hafter => ?_, fun hrest => ⟨?_, fun hcpu hmemory => ?_⟩, observed_sublist (start initial) r events,
    ?_, fun hstopped => ?_, fun hgone => ⟨(hcurrent.gone hgone).2.2.2, ?_, hcurrent.foldl_run_of_gone hgone⟩⟩
  · have hrun := foldl_run_of_idle hcurrent hidle hafter
    rw [hround] at hrun
    exact hrun
  · have hseen : s.1.unseen = false := by
      rcases atRest_iff.mp hrest with hgone | ⟨-, -, hseen⟩
      · exact (hcurrent.gone hgone).2.2.1
      · exact hseen
    have hfirst : (start initial).unseen = false → ([] : List OvercommitSettings).getLast? = some (start initial).latest := nofun
    rw [← hlatest]
    exact getLast?_observed [] hfirst events hseen
  · have hratios : last.ratios = .ok last.asRatios := by rw [last.ratios_eq, if_neg hcpu, if_neg hmemory]
    rw [← hlatest] at hratios ⊢
    exact hcurrent.eq_of_atRest hrest hratios
  · rintro before after hbefore rfl
    exact observed_of_fresh (Fresh.start initial) hbefore after
  · rw [List.map_append, List.foldl_append]
    exact following_settle_settle hcurrent hstopped
  · rw [atRest, hgone]
    rfl

end OvercommitFeed

end PlacementTree
