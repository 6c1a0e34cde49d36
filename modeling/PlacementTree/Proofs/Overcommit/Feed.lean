import Mathlib.Data.List.Basic
import PlacementTree.Feed
import PlacementTree.Proofs.Overcommit.Adopt

/-!
# What a feed puts in force

A feed keeps only the value published last, so the follower misses some. It never invents or reorders any: what it has yet to do is to
make the writes it has planned, to adopt the value it holds and to observe the one it has not seen, in this order, and a step of it
only does the first of these (`OvercommitFeed.applied_sublist`). Nor does it stop before the last: once it has nothing left to do,
the value published last is in force (`OvercommitFeed.Current`), and left alone it gets there (`OvercommitFeed.settle_settle_atRest`).
-/

namespace PlacementTree

/-- The ratios that settings say. -/
def OvercommitSettings.asRatios (settings : OvercommitSettings) : OvercommitRatios := { cpu := settings.cpu, memory := settings.memory }

/-- Settings that are ratios as they are. -/
def OvercommitSettings.Valid (settings : OvercommitSettings) : Prop := settings.ratios = .ok settings.asRatios

/-- Adopting takes at most two writes. -/
theorem OvercommitSettings.length_writesFrom_le (settings : OvercommitSettings) (seen : OvercommitRatios) :
    ((settings.writesFrom seen).toOption.getD []).length ≤ 2 := by
  unfold OvercommitSettings.writesFrom
  cases settings.ratios with
  | error cause => simp [Except.map, Except.toOption]
  | ok next =>
    simp only [Except.map, Except.toOption, Option.getD_some]
    cases next.cpu != seen.cpu <;> cases next.memory != seen.memory <;> simp

namespace FeedEvent

/-- The settings that an event publishes, if somebody may still publish. -/
def published? (publishing : Bool) : FeedEvent → Option OvercommitSettings
  | .publish settings => if publishing then some settings else none
  | _ => none

/-- Whether by an event nobody publishes any more. -/
def stops : FeedEvent → Bool
  | .stop => true
  | _ => false

/-- The settings that events publish, in order. -/
def published : Bool → List FeedEvent → List OvercommitSettings
  | _, [] => []
  | publishing, e :: events => (e.published? publishing).toList ++ published (publishing && !e.stops) events

end FeedEvent

namespace OvercommitFeed

variable {f f' : OvercommitFeed} {r r' : OvercommitRatios} {e : FeedEvent}

/-- The ratios in force once the planned writes are made. -/
def target (f : OvercommitFeed) (r : OvercommitRatios) : OvercommitRatios := f.planned.foldl OvercommitRatios.write r

/-- A planned write leads to the same ratios. -/
theorem target_write {w : RatioWrite} {ws : List RatioWrite} (h : f.planned = w :: ws) :
    target { f with planned := ws } (r.write w) = f.target r := by
  rw [target, target, h, List.foldl_cons]

theorem adopting_eq_false_iff : f.adopting = false ↔ f.held = none ∧ f.planned = [] := by
  simp [adopting]

theorem atRest_iff : f.atRest = true ↔ f.following = false ∨ f.held = none ∧ f.planned = [] ∧ f.unseen = false := by
  simp [atRest, adopting_eq_false_iff, and_assoc]

/-! ## What one event does -/

/-- What an event makes of a feed and the ratios in force: it publishes settings, it is a step of the follower, or nobody publishes
any more, or nothing happens. -/
inductive Turn (f : OvercommitFeed) (r : OvercommitRatios) (e : FeedEvent) : OvercommitFeed → OvercommitRatios → Prop where
  | publishes {settings : OvercommitSettings} : f.publishing = true → e.published? f.publishing = some settings →
      Turn f r e { f with latest := settings, unseen := true } r
  | observes : e.published? f.publishing = none → f.held = none → f.planned = [] → f.unseen = true →
      Turn f r e { f with held := some f.latest, unseen := false } r
  | plans {settings : OvercommitSettings} : e.published? f.publishing = none → f.held = some settings →
      Turn f r e { f with held := none, planned := (settings.writesFrom r).toOption.getD [] } r
  | writes {w : RatioWrite} {ws : List RatioWrite} : e.published? f.publishing = none → f.planned = w :: ws →
      Turn f r e { f with planned := ws } (r.write w)
  | stops : e.published? f.publishing = none → Turn f r e { f with publishing := false } r
  | leaves : e.published? f.publishing = none → f.atRest = true → f.publishing = false → Turn f r e { f with following := false } r
  | rests : e.published? f.publishing = none → Turn f r e f r

/-- Every event does one of these. -/
theorem turn_run (f : OvercommitFeed) (r : OvercommitRatios) (e : FeedEvent) :
    Turn f r e (FeedEvent.run (f, r) e).1 (FeedEvent.run (f, r) e).2 := by
  cases e with
  | publish settings =>
    by_cases hpublishing : f.publishing = true
    · rw [FeedEvent.run, publish, if_pos hpublishing]
      exact Turn.publishes hpublishing (if_pos hpublishing)
    · rw [FeedEvent.run, publish, if_neg hpublishing]
      exact Turn.rests (if_neg hpublishing)
  | stop => exact Turn.stops rfl
  | follow turn =>
    cases turn with
    | observe =>
      simp only [FeedEvent.run, follow]
      split
      · rename_i hturn
        simp only [Bool.and_eq_true, Bool.not_eq_true', adopting_eq_false_iff] at hturn
        obtain ⟨⟨-, hheld, hplanned⟩, hunseen⟩ := hturn
        exact Turn.observes rfl hheld hplanned hunseen
      · exact Turn.rests rfl
    | plan =>
      simp only [FeedEvent.run, follow]
      split
      · rename_i hheld
        exact Turn.plans rfl hheld
      · exact Turn.rests rfl
    | write =>
      simp only [FeedEvent.run, follow]
      split
      · rename_i hplanned
        exact Turn.writes rfl hplanned
      · exact Turn.rests rfl
    | leave =>
      simp only [FeedEvent.run, follow]
      split
      · rename_i hleaves
        simp only [Bool.and_eq_true, Bool.not_eq_true'] at hleaves
        exact Turn.leaves rfl hleaves.1 hleaves.2
      · exact Turn.rests rfl

/-- Somebody goes on publishing unless the event is that nobody does any more. -/
theorem publishing_run (f : OvercommitFeed) (r : OvercommitRatios) (e : FeedEvent) :
    (FeedEvent.run (f, r) e).1.publishing = (f.publishing && !e.stops) := by
  cases e with
  | publish settings =>
    simp only [FeedEvent.run, publish, FeedEvent.stops]
    split <;> simp
  | stop => simp [FeedEvent.run, stop, FeedEvent.stops]
  | follow turn =>
    cases turn <;> simp only [FeedEvent.run, follow, FeedEvent.stops] <;> split <;> simp

theorem Turn.latest (h : Turn f r e f' r') : f'.latest = (e.published? f.publishing).getD f.latest := by
  cases h with
  | publishes _ hpublished => rw [hpublished, Option.getD_some]
  | observes hnone | plans hnone | writes hnone | stops hnone | leaves hnone | rests hnone => rw [hnone, Option.getD_none]

/-- The value at hand after a run is the last one that was published. -/
theorem latest_foldl_run (f : OvercommitFeed) (r : OvercommitRatios) (events : List FeedEvent) :
    (events.foldl FeedEvent.run (f, r)).1.latest = (FeedEvent.published f.publishing events).getLastD f.latest := by
  induction events generalizing f r with
  | nil => rfl
  | cons e events ih =>
    rw [List.foldl_cons, ih, (turn_run f r e).latest, publishing_run, FeedEvent.published]
    cases e.published? f.publishing with
    | none => rfl
    | some settings => rw [Option.toList_some, List.singleton_append, List.getLastD_cons, Option.getD_some]

/-! ## The value published last gets into force -/

/-- A feed whose follower is up to date or on its way: it adopts one value at a time, and one that is gone left nothing undone. If
there is nothing left to see and to plan, the value published last is in force as soon as the planned writes are made. -/
structure Current (f : OvercommitFeed) (r : OvercommitRatios) : Prop where
  single : f.held ≠ none → f.planned = []
  short : f.planned.length ≤ 2
  inForce : f.unseen = true ∨ f.held = some f.latest ∨
    f.held = none ∧ ∀ ratios, f.latest.ratios = .ok ratios → f.target r = ratios
  gone : f.following = false → f.held = none ∧ f.planned = [] ∧ f.unseen = false ∧ f.publishing = false

/-- A new feed is. -/
theorem Current.start (initial : OvercommitSettings) (r : OvercommitRatios) : Current (start initial) r :=
  ⟨fun hheld => absurd rfl hheld, Nat.zero_le 2, Or.inl rfl, nofun⟩

/-- A follower that has writes to make holds no value. -/
theorem Current.held_of_planned (h : Current f r) {w : RatioWrite} {ws : List RatioWrite} (hplanned : f.planned = w :: ws) :
    f.held = none := by
  by_contra hsome
  have hnil := h.single hsome
  rw [hplanned] at hnil
  cases hnil

/-- An event keeps it so. -/
theorem Current.turn (h : Current f r) (hturn : Turn f r e f' r') : Current f' r' := by
  cases hturn with
  | publishes hpublishing =>
    -- A follower that is gone would miss the value, but it only goes when nobody publishes any more.
    refine ⟨h.single, h.short, Or.inl rfl, fun hfollowing => ?_⟩
    have hstopped := (h.gone hfollowing).2.2.2
    rw [hpublishing] at hstopped
    cases hstopped
  | observes _ hheld hplanned hunseen =>
    refine ⟨fun _ => hplanned, h.short, Or.inr (Or.inl rfl), fun hfollowing => ?_⟩
    have hseen := (h.gone hfollowing).2.2.1
    rw [hunseen] at hseen
    cases hseen
  | @plans settings _ hheld =>
    refine ⟨fun hsome => absurd rfl hsome, settings.length_writesFrom_le r, ?_, fun hfollowing => ?_⟩
    · rcases h.inForce with hunseen | hlatest | ⟨hnone, -⟩
      · exact Or.inl hunseen
      · rw [hheld] at hlatest
        obtain rfl := Option.some.inj hlatest
        exact Or.inr (Or.inr ⟨rfl, fun ratios hratios => OvercommitSettings.foldl_writesFrom hratios r⟩)
      · rw [hheld] at hnone
        cases hnone
    · have hnone := (h.gone hfollowing).1
      rw [hheld] at hnone
      cases hnone
  | writes _ hplanned =>
    have hheld := h.held_of_planned hplanned
    refine ⟨fun hsome => absurd hheld hsome, ?_, ?_, fun hfollowing => ?_⟩
    · have hshort := h.short
      rw [hplanned, List.length_cons] at hshort
      exact Nat.le_of_succ_le hshort
    · have hinForce := h.inForce
      rw [← target_write hplanned] at hinForce
      exact hinForce
    · have hnil := (h.gone hfollowing).2.1
      rw [hplanned] at hnil
      cases hnil
  | stops =>
    refine ⟨h.single, h.short, h.inForce, fun hfollowing => ?_⟩
    obtain ⟨hheld, hplanned, hunseen, -⟩ := h.gone hfollowing
    exact ⟨hheld, hplanned, hunseen, rfl⟩
  | leaves _ hrest hstopped =>
    refine ⟨h.single, h.short, h.inForce, fun _ => ?_⟩
    rcases atRest_iff.mp hrest with hfollowing | ⟨hheld, hplanned, hunseen⟩
    · exact h.gone hfollowing
    · exact ⟨hheld, hplanned, hunseen, hstopped⟩
  | rests => exact h

/-- A run keeps it so. -/
theorem Current.foldl_run (h : Current f r) (events : List FeedEvent) :
    Current (events.foldl FeedEvent.run (f, r)).1 (events.foldl FeedEvent.run (f, r)).2 := by
  induction events generalizing f r with
  | nil => exact h
  | cons e events ih => exact ih (h.turn (turn_run f r e))

/-- Once the follower has nothing left to do, the value published last is in force if it is accepted. -/
theorem Current.eq_of_atRest (h : Current f r) (hrest : f.atRest = true) {ratios : OvercommitRatios}
    (hlatest : f.latest.ratios = .ok ratios) : r = ratios := by
  obtain ⟨hheld, hplanned, hunseen⟩ : f.held = none ∧ f.planned = [] ∧ f.unseen = false := by
    rcases atRest_iff.mp hrest with hfollowing | hdone
    · obtain ⟨hheld, hplanned, hunseen, -⟩ := h.gone hfollowing
      exact ⟨hheld, hplanned, hunseen⟩
    · exact hdone
  rcases h.inForce with hyet | hyet | ⟨-, htarget⟩
  · rw [hunseen] at hyet
    cases hyet
  · rw [hheld] at hyet
    cases hyet
  · rw [← htarget ratios hlatest, target, hplanned]
    rfl

/-! ## Nothing else ever does -/

/-- The ratios in force if the follower is done with a value by an event, given the feed before and after it. -/
def finished (f f' : OvercommitFeed) (r' : OvercommitRatios) : List OvercommitRatios :=
  if f.adopting && !f'.adopting then [r'] else []

/-- The ratios in force after each value that the follower was done with. -/
def applied : OvercommitFeed × OvercommitRatios → List FeedEvent → List OvercommitRatios
  | _, [] => []
  | state, e :: events =>
    finished state.1 (FeedEvent.run state e).1 (FeedEvent.run state e).2 ++ applied (FeedEvent.run state e) events

/-- What is still to come into force, in order: where the planned writes lead, the value observed and the one not seen. -/
def due (f : OvercommitFeed) (r : OvercommitRatios) : List OvercommitRatios :=
  (if f.planned.isEmpty then [] else [f.target r]) ++
    (f.held.toList ++ if f.unseen then [f.latest] else []).map OvercommitSettings.asRatios

theorem finished_of_adopting_eq (h : f'.adopting = f.adopting) (r' : OvercommitRatios) : finished f f' r' = [] := by
  rw [finished, h, Bool.and_not_self, if_neg Bool.false_ne_true]

/-- Whatever neither ends an adoption nor changes what is due leaves it due. -/
theorem finished_due_of_idle (hadopting : f'.adopting = f.adopting) (hdue : f'.due r' = f.due r) (more : List OvercommitRatios) :
    (finished f f' r' ++ f'.due r').Sublist (f.due r ++ more) := by
  rw [finished_of_adopting_eq hadopting, hdue]
  exact List.sublist_append_left _ _

/-- A follower that holds no value after a turn of adopting either is done or still owes where its writes lead. -/
theorem finished_append_due (hadopting : f.adopting = true) (hheld : f'.held = none) :
    finished f f' r' ++ f'.due r' = f'.target r' :: if f'.unseen then [f'.latest.asRatios] else [] := by
  cases hplanned : f'.planned with
  | nil =>
    have hdone : f'.adopting = false := adopting_eq_false_iff.mpr ⟨hheld, hplanned⟩
    have htarget : f'.target r' = r' := by
      rw [target, hplanned]
      rfl
    cases hunseen : f'.unseen <;> simp [finished, due, hadopting, hdone, htarget, hheld, hplanned, hunseen]
  | cons w ws => cases hunseen : f'.unseen <;> simp [finished, adopting, due, hheld, hplanned, hunseen]

/-- A feed of values that are ratios. -/
structure Sound (f : OvercommitFeed) : Prop where
  latest : f.latest.Valid
  held : ∀ settings ∈ f.held, settings.Valid

/-- An event that publishes ratios, if anything, keeps it so. -/
theorem Sound.turn (h : f.Sound) (hturn : Turn f r e f' r') (hvalid : ∀ settings ∈ e.published? f.publishing, settings.Valid) :
    f'.Sound := by
  cases hturn with
  | publishes _ hpublished => exact ⟨hvalid _ hpublished, h.held⟩
  | observes =>
    refine ⟨h.latest, fun settings heq => ?_⟩
    rw [← Option.some.inj heq]
    exact h.latest
  | plans => exact ⟨h.latest, nofun⟩
  | writes | stops | leaves | rests => exact ⟨h.latest, h.held⟩

/-- An event does what is due first, or it leaves that and may add what it publishes, in place of a value not seen. -/
theorem Turn.finished_due (h : Turn f r e f' r') (hsound : f.Sound) (hcurrent : Current f r) :
    (finished f f' r' ++ f'.due r').Sublist (f.due r ++ (e.published? f.publishing).toList.map OvercommitSettings.asRatios) := by
  cases h with
  | @publishes settings _ hpublished =>
    have hquiet : finished f { f with latest := settings, unseen := true } r = [] := finished_of_adopting_eq rfl r
    rw [hquiet, hpublished]
    cases hunseen : f.unseen <;> simp [due, target, hunseen]
  | observes hnone hheld hplanned hunseen => simp [finished, adopting, due, hnone, hheld, hplanned, hunseen]
  | @plans settings hnone hheld =>
    have hplanned : f.planned = [] := hcurrent.single (by simp [hheld])
    have hadopting : f.adopting = true := by simp [adopting, hheld]
    -- Whether any write was planned or not, the held value is what the writes lead to.
    have htarget : target { f with held := none, planned := (settings.writesFrom r).toOption.getD [] } r = settings.asRatios :=
      OvercommitSettings.foldl_writesFrom (hsound.held _ hheld) r
    rw [finished_append_due hadopting rfl, htarget, hnone]
    cases hunseen : f.unseen <;> simp [due, hheld, hplanned, hunseen]
  | @writes w ws hnone hplanned =>
    have hheld : f.held = none := hcurrent.held_of_planned hplanned
    have hadopting : f.adopting = true := by simp [adopting, hplanned]
    have hsplit : finished f { f with planned := ws } (r.write w) ++ due { f with planned := ws } (r.write w) =
        target { f with planned := ws } (r.write w) :: if f.unseen then [f.latest.asRatios] else [] :=
      finished_append_due hadopting hheld
    rw [hsplit, target_write hplanned, hnone]
    cases hunseen : f.unseen <;> simp [due, hheld, hplanned, hunseen]
  | stops | leaves | rests => exact finished_due_of_idle rfl rfl _

/-- If all that was published are ratios, the follower puts some of them in force, in order. -/
theorem applied_sublist (hsound : f.Sound) (hcurrent : Current f r) (events : List FeedEvent)
    (hvalid : ∀ settings ∈ FeedEvent.published f.publishing events, settings.Valid) :
    (applied (f, r) events).Sublist
      (f.due r ++ (FeedEvent.published f.publishing events).map OvercommitSettings.asRatios) := by
  induction events generalizing f r with
  | nil => exact List.nil_sublist _
  | cons e events ih =>
    rw [FeedEvent.published, ← publishing_run f r e] at hvalid ⊢
    have hturn := turn_run f r e
    have hnow : ∀ settings ∈ e.published? f.publishing, settings.Valid := fun settings hmem =>
      hvalid settings (List.mem_append_left _ (Option.mem_toList.mpr hmem))
    have hrest := ih (hsound.turn hturn hnow) (hcurrent.turn hturn) fun settings hmem =>
      hvalid settings (List.mem_append_right _ hmem)
    rw [List.map_append, ← List.append_assoc]
    refine List.Sublist.trans (hrest.append_left _) ?_
    rw [← List.append_assoc]
    exact (hturn.finished_due hsound hcurrent).append_right _

/-! ## Left alone, the follower gets there -/

theorem unseen_follow_observe (hidle : f.adopting = false) (hfollowing : f.following = true) (r : OvercommitRatios) :
    (f.follow r .observe).1.unseen = false := by
  simp only [follow, hidle, hfollowing]
  split
  · rfl
  · rename_i hunseen
    simpa using hunseen

theorem following_follow_observe (f : OvercommitFeed) (r : OvercommitRatios) : (f.follow r .observe).1.following = f.following := by
  simp only [follow]
  split <;> rfl

theorem held_follow_plan (f : OvercommitFeed) (r : OvercommitRatios) : (f.follow r .plan).1.held = none := by
  simp only [follow]
  split
  · rfl
  · assumption

theorem unseen_follow_plan (f : OvercommitFeed) (r : OvercommitRatios) : (f.follow r .plan).1.unseen = f.unseen := by
  simp only [follow]
  split <;> rfl

theorem following_follow_plan (f : OvercommitFeed) (r : OvercommitRatios) : (f.follow r .plan).1.following = f.following := by
  simp only [follow]
  split <;> rfl

theorem follow_write (f : OvercommitFeed) (r : OvercommitRatios) : (f.follow r .write).1 = { f with planned := f.planned.tail } := by
  simp only [follow]
  split
  · rename_i hplanned
    rw [hplanned, List.tail_cons]
  · rename_i hplanned
    rw [hplanned, List.tail_nil, ← hplanned]

theorem follow_leave (f : OvercommitFeed) (r : OvercommitRatios) :
    (f.follow r .leave).1 = { f with following := f.following && !(f.atRest && !f.publishing) } := by
  simp only [follow]
  cases f.atRest && !f.publishing <;> simp

/-- A round leaves a follower that is up to date or on its way so. -/
theorem Current.settle (h : Current f r) : Current (f.settle r).1 (f.settle r).2 := h.foldl_run (round.map .follow)

/-- A round ends what the follower has begun: nothing is held once it has planned, and at most two writes are left. -/
theorem adopting_settle (h : Current f r) : (f.settle r).1.adopting = false := by
  have hplan := (h.turn (turn_run f r (.follow .observe))).turn (turn_run _ _ (.follow .plan))
  have hshort : ((f.follow r .observe).1.follow (f.follow r .observe).2 .plan).1.planned.length ≤ 2 := hplan.short
  rw [adopting_eq_false_iff]
  simp only [OvercommitFeed.settle, round, List.foldl_cons, List.foldl_nil, follow_leave, follow_write, held_follow_plan, true_and]
  refine List.eq_nil_of_length_eq_zero ?_
  rw [List.length_tail, List.length_tail]
  omega

/-- After a round of a follower that has begun nothing there is nothing left to do. -/
theorem atRest_settle (h : Current f r) (hidle : f.adopting = false) : (f.settle r).1.atRest = true := by
  obtain ⟨hheld, hplanned⟩ := adopting_eq_false_iff.mp (adopting_settle h)
  rw [atRest_iff]
  cases hfollowing : f.following with
  | false =>
    refine Or.inl ?_
    simp only [OvercommitFeed.settle, round, List.foldl_cons, List.foldl_nil, follow_leave, follow_write, following_follow_plan,
      following_follow_observe, hfollowing, Bool.false_and]
  | true =>
    refine Or.inr ⟨hheld, hplanned, ?_⟩
    simp only [OvercommitFeed.settle, round, List.foldl_cons, List.foldl_nil, follow_leave, follow_write, unseen_follow_plan,
      unseen_follow_observe hidle hfollowing]

/-- Two rounds are enough: the first may only end what was begun before. -/
theorem settle_settle_atRest (h : Current f r) : ((f.settle r).1.settle (f.settle r).2).1.atRest = true :=
  atRest_settle h.settle (adopting_settle h)

end OvercommitFeed

end PlacementTree
