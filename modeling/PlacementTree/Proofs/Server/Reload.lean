import PlacementTree.Proofs.Overcommit.Feed
import PlacementTree.Proofs.SchedulerTree.OfInventory
import PlacementTree.Proofs.Session.Ratios
import PlacementTree.Server

/-!
# Reloading is all or nothing

A hang-up publishes the overcommit settings of a file that is accepted as a whole, and does nothing at all on any other file. So what
happens to the feed of a server is what its accepted files publish and what its follower does (`Server.run_policy`), and all it ever
puts in force are settings that were accepted. The session goes on as if nobody reloaded, apart from the ratios of its tree
(`Server.run_session`).
-/

namespace PlacementTree

/-- The overcommit settings of a file, if there is one, it says a configuration, and that is in range as a whole. -/
def OvercommitSettings.ofFile? (content : Option String) : Option OvercommitSettings :=
  content.bind fun text => (AgentConfig.read? text).bind fun c => if c.validate.isOk then some c.overcommit else none

/-- The settings that a hang-up counts are those of the file. -/
theorem acceptedSettings?_eq (content : Option String) : acceptedSettings? content = OvercommitSettings.ofFile? content := by
  unfold acceptedSettings? OvercommitSettings.ofFile?
  cases content with
  | none => rfl
  | some text =>
    simp only [Option.map_some, Option.bind_some, AgentConfig.parse]
    cases AgentConfig.read? text with
    | none => rfl
    | some c =>
      simp only [Option.bind_some]
      cases c.validate <;> rfl

/-- The settings of an accepted configuration are ratios. -/
theorem AgentConfig.valid_overcommit {c : AgentConfig} (h : c.validate = .ok ()) : c.overcommit.Valid := AgentConfig.ratios_of_validate h

/-- So are those of a file that is accepted. -/
theorem OvercommitSettings.valid_of_ofFile? {content : Option String} {settings : OvercommitSettings}
    (h : ofFile? content = some settings) : settings.Valid := by
  obtain ⟨text, -, h⟩ := Option.bind_eq_some_iff.mp h
  obtain ⟨c, -, h⟩ := Option.bind_eq_some_iff.mp h
  cases hvalid : c.validate with
  | error cause =>
    rw [hvalid] at h
    cases h
  | ok =>
    rw [hvalid] at h
    rw [← Option.some.inj h]
    exact AgentConfig.valid_overcommit hvalid

namespace ServerEvent

/-- What happens to the session. -/
def session? : ServerEvent → Option SessionEvent
  | .session e => some e
  | _ => none

/-- What happens to the feed, given whether there is a configuration file. -/
def feed? (hasConfigFile : Bool) : ServerEvent → Option FeedEvent
  | .session _ => none
  | .hangUp content => if hasConfigFile then (OvercommitSettings.ofFile? content).map .publish else none
  | .stopReloading => some .stop
  | .follow turn => some (.follow turn)

def endsReloading : ServerEvent → Bool
  | .stopReloading => true
  | _ => false

/-- The settings of the file of a hang-up, if that is accepted. -/
def accepted? : ServerEvent → Option OvercommitSettings
  | .hangUp content => OvercommitSettings.ofFile? content
  | _ => none

/-- The settings of the files that are read on hang-ups and accepted, in order. -/
def accepted (hasConfigFile : Bool) (events : List ServerEvent) : List OvercommitSettings :=
  if hasConfigFile then (events.takeWhile fun e => !e.endsReloading).filterMap accepted? else []

theorem valid_of_accepted {hasConfigFile : Bool} {events : List ServerEvent} {settings : OvercommitSettings}
    (h : settings ∈ accepted hasConfigFile events) : settings.Valid := by
  unfold accepted at h
  split at h
  · obtain ⟨e, -, haccepted⟩ := List.mem_filterMap.mp h
    cases e with
    | hangUp content => exact OvercommitSettings.valid_of_ofFile? haccepted
    | session | stopReloading | follow => cases haccepted
  · cases h

theorem accepted_cons (hasConfigFile : Bool) (e : ServerEvent) (events : List ServerEvent) :
    accepted hasConfigFile (e :: events) =
      (if hasConfigFile then e.accepted? else none).toList ++ accepted (hasConfigFile && !e.endsReloading) events := by
  cases hasConfigFile with
  | false => rfl
  | true =>
    cases e with
    | hangUp content => cases h : OvercommitSettings.ofFile? content <;> simp [accepted, accepted?, endsReloading, h]
    | stopReloading => simp [accepted, endsReloading, accepted?]
    | session event => rfl
    | follow turn => rfl

theorem of_feed?_eq_none {hasConfigFile : Bool} {e : ServerEvent} (h : e.feed? hasConfigFile = none) :
    (hasConfigFile = true → e.accepted? = none) ∧ e.endsReloading = false := by
  cases e with
  | session => exact ⟨fun _ => rfl, rfl⟩
  | hangUp content =>
    refine ⟨fun hfile => ?_, rfl⟩
    have hrefused : OvercommitSettings.ofFile? content = none := by simpa [feed?, hfile] using h
    exact hrefused
  | stopReloading | follow => cases h

theorem of_feed?_eq_some {hasConfigFile : Bool} {e : ServerEvent} {event : FeedEvent} (h : e.feed? hasConfigFile = some event)
    (publishing : Bool) :
    event.published? publishing = (if hasConfigFile && publishing then e.accepted? else none) ∧ event.stops = e.endsReloading := by
  cases e with
  | session => cases h
  | hangUp content =>
    cases hasConfigFile with
    | false => cases h
    | true =>
      obtain ⟨settings, hsettings, rfl⟩ := Option.map_eq_some_iff.mp h
      simp [FeedEvent.published?, FeedEvent.stops, accepted?, endsReloading, hsettings]
  | stopReloading =>
    obtain rfl := Option.some.inj h
    simp [FeedEvent.published?, FeedEvent.stops, accepted?, endsReloading]
  | follow turn =>
    obtain rfl := Option.some.inj h
    simp [FeedEvent.published?, FeedEvent.stops, accepted?, endsReloading]

/-- The settings of the accepted files are what is published. -/
theorem published_feed? (hasConfigFile publishing : Bool) (events : List ServerEvent) :
    FeedEvent.published publishing (events.filterMap (feed? hasConfigFile)) = accepted (hasConfigFile && publishing) events := by
  induction events generalizing publishing with
  | nil => cases hasConfigFile <;> cases publishing <;> rfl
  | cons e events ih =>
    rw [accepted_cons]
    cases hfeed : e.feed? hasConfigFile with
    | none =>
      obtain ⟨haccepted, hgoesOn⟩ := of_feed?_eq_none hfeed
      rw [List.filterMap_cons_none hfeed, ih, hgoesOn]
      cases hasConfigFile with
      | false => rfl
      | true => simp [haccepted rfl]
    | some event =>
      obtain ⟨hpublished, hstops⟩ := of_feed?_eq_some hfeed publishing
      rw [List.filterMap_cons_some hfeed, FeedEvent.published, ih, hpublished, hstops, Bool.and_assoc]

end ServerEvent

namespace Server

/-! ## The feed of a server -/

/-- The feed and the ratios in force. -/
def policy (s : Server) : OvercommitFeed × OvercommitRatios := (s.feed, s.ratios)

theorem policy_fst (s : Server) : s.policy.1 = s.feed := rfl

theorem policy_snd (s : Server) : s.policy.2 = s.ratios := rfl

/-- A hang-up with a file that is not accepted, or with none to read, does nothing at all. -/
theorem step_hangUp_of_refused (s : Server) {content : Option String}
    (h : s.hasConfigFile = true → OvercommitSettings.ofFile? content = none) : s.step (.hangUp content) = s := by
  simp only [step, reload]
  split
  · rename_i hfile
    simp only [OvercommitFeed.hangUp, acceptedSettings?_eq, h hfile]
  · rfl

theorem hasConfigFile_step (s : Server) (e : ServerEvent) : (s.step e).hasConfigFile = s.hasConfigFile := by
  cases e with
  | hangUp content =>
    simp only [step, reload]
    split <;> rfl
  | session | stopReloading | follow => rfl

theorem hasConfigFile_run (s : Server) (events : List ServerEvent) : (s.run events).hasConfigFile = s.hasConfigFile := by
  induction events generalizing s with
  | nil => rfl
  | cons e events ih => exact (ih (s.step e)).trans (s.hasConfigFile_step e)

/-- An event does to the feed and the ratios what it publishes, and what the follower does. -/
theorem step_policy (s : Server) (e : ServerEvent) :
    (s.step e).policy = (e.feed? s.hasConfigFile).toList.foldl FeedEvent.run s.policy := by
  cases e with
  | session event =>
    have hratios : (s.step (.session event)).ratios = s.ratios := s.session.ratios_step event
    simp only [policy, hratios, ServerEvent.feed?]
    rfl
  | hangUp content =>
    simp only [step, reload, ServerEvent.feed?]
    split
    · simp only [policy, ratios, OvercommitFeed.hangUp, acceptedSettings?_eq]
      cases OvercommitSettings.ofFile? content <;> rfl
    · rfl
  | stopReloading => rfl
  | follow turn => rfl

/-- A run does to the feed and the ratios what its accepted files publish, and what the follower does. -/
theorem run_policy (s : Server) (events : List ServerEvent) :
    (s.run events).policy = (events.filterMap (ServerEvent.feed? s.hasConfigFile)).foldl FeedEvent.run s.policy := by
  induction events generalizing s with
  | nil => rfl
  | cons e events ih =>
    have hrest := ih (s.step e)
    rw [hasConfigFile_step, step_policy] at hrest
    rw [run, List.foldl_cons]
    cases hfeed : e.feed? s.hasConfigFile with
    | none =>
      rw [List.filterMap_cons_none hfeed]
      rw [hfeed] at hrest
      exact hrest
    | some event =>
      rw [List.filterMap_cons_some hfeed]
      rw [hfeed] at hrest
      exact hrest

theorem settle_policy (s : Server) : s.settle.policy = s.feed.settle s.ratios := by
  rw [settle, run_policy]
  rfl

/-- Left alone, the follower of a server comes to rest. -/
theorem settle_settle_atRest (s : Server) (h : s.feed.Current s.ratios) : s.settle.settle.feed.atRest = true := by
  rw [← policy_fst s.settle.settle, settle_policy, ← policy_fst s.settle, ← policy_snd s.settle, settle_policy]
  exact OvercommitFeed.settle_settle_atRest h

/-- The ratios in force after each value that the follower was done with. -/
def applied (s : Server) : List ServerEvent → List OvercommitRatios
  | [] => []
  | e :: events => s.feed.finished (s.step e).feed (s.step e).ratios ++ (s.step e).applied events

/-- They are those of the feed. -/
theorem applied_eq (s : Server) (events : List ServerEvent) :
    s.applied events = OvercommitFeed.applied s.policy (events.filterMap (ServerEvent.feed? s.hasConfigFile)) := by
  induction events generalizing s with
  | nil => rfl
  | cons e events ih =>
    have hstep := s.step_policy e
    rw [applied, ih, hasConfigFile_step]
    cases hfeed : e.feed? s.hasConfigFile with
    | none =>
      rw [hfeed] at hstep
      have hsame : (s.step e).feed = s.feed := congrArg Prod.fst hstep
      rw [List.filterMap_cons_none hfeed, OvercommitFeed.finished_of_adopting_eq (by rw [hsame]), List.nil_append, hstep]
      rfl
    | some event =>
      rw [hfeed] at hstep
      have hfeed' : (s.step e).feed = (FeedEvent.run s.policy event).1 := congrArg Prod.fst hstep
      have hratios : (s.step e).ratios = (FeedEvent.run s.policy event).2 := congrArg Prod.snd hstep
      rw [List.filterMap_cons_some hfeed, OvercommitFeed.applied, hfeed', hratios, hstep]
      rfl

/-! ## The session of a server -/

/-- An event does to the session what it says, and may change the ratios of its tree. -/
theorem step_session (s : Server) (e : ServerEvent) :
    (s.step e).session = (s.session.run e.session?.toList).setRatios (s.step e).ratios := by
  cases e with
  | session event => rfl
  | hangUp content =>
    have hsession : (s.step (.hangUp content)).session = s.session := by
      simp only [step, reload]
      split <;> rfl
    rw [ratios, hsession]
    rfl
  | stopReloading => rfl
  | follow turn => rfl

/-- A session goes on as if nobody reloaded, but for the ratios of its tree. -/
theorem run_session (s : Server) (events : List ServerEvent) :
    (s.run events).session = (s.session.run (events.filterMap ServerEvent.session?)).setRatios (s.run events).ratios := by
  induction events generalizing s with
  | nil => rfl
  | cons e events ih =>
    have hrest := ih (s.step e)
    rw [step_session, Session.run_setRatios] at hrest
    have hevents : s.session.run ((e :: events).filterMap ServerEvent.session?) =
        (s.session.run e.session?.toList).run (events.filterMap ServerEvent.session?) := by
      cases he : e.session? with
      | none => rw [List.filterMap_cons_none he]; rfl
      | some event => rw [List.filterMap_cons_some he]; rfl
    rw [hevents]
    exact hrest

/-! ## Reloading -/

section Launch

variable (t : SchedulerTree) (config : AgentConfig) (hasConfigFile : Bool) (events : List ServerEvent)

theorem run_launch_policy : ((launch t config hasConfigFile).run events).policy =
    (events.filterMap (ServerEvent.feed? hasConfigFile)).foldl FeedEvent.run
      (OvercommitFeed.start config.overcommit, t.fleet.ratios) := run_policy _ events

/-- The follower of a server is up to date or on its way. -/
theorem run_launch_current :
    OvercommitFeed.Current ((launch t config hasConfigFile).run events).feed ((launch t config hasConfigFile).run events).ratios := by
  have hrun := (OvercommitFeed.Current.start config.overcommit t.fleet.ratios).foldl_run
    (events.filterMap (ServerEvent.feed? hasConfigFile))
  rw [← run_launch_policy] at hrun
  exact hrun

/-- The settings published last are those of the last accepted file. -/
theorem run_launch_latest : ((launch t config hasConfigFile).run events).feed.latest =
    (ServerEvent.accepted hasConfigFile events).getLastD config.overcommit := by
  have hrun := OvercommitFeed.latest_foldl_run (OvercommitFeed.start config.overcommit) t.fleet.ratios
    (events.filterMap (ServerEvent.feed? hasConfigFile))
  rw [← run_launch_policy] at hrun
  refine hrun.trans ?_
  have hpublishing : (OvercommitFeed.start config.overcommit).publishing = true := rfl
  have hfirst : (OvercommitFeed.start config.overcommit).latest = config.overcommit := rfl
  rw [hpublishing, hfirst, ServerEvent.published_feed?, Bool.and_true]

/-- What the follower puts in force are settings of the configuration and of accepted files. -/
theorem launch_applied (hconfig : config.overcommit.Valid) : ((launch t config hasConfigFile).applied events).Sublist
    ((config.overcommit :: ServerEvent.accepted hasConfigFile events).map OvercommitSettings.asRatios) := by
  have hsound : (OvercommitFeed.start config.overcommit).Sound := ⟨hconfig, nofun⟩
  have hpublished : FeedEvent.published (OvercommitFeed.start config.overcommit).publishing
      (events.filterMap (ServerEvent.feed? hasConfigFile)) = ServerEvent.accepted hasConfigFile events := by
    rw [ServerEvent.published_feed?]
    exact congrArg (ServerEvent.accepted · events) (Bool.and_true hasConfigFile)
  have happlied := OvercommitFeed.applied_sublist hsound (OvercommitFeed.Current.start config.overcommit t.fleet.ratios)
    (events.filterMap (ServerEvent.feed? hasConfigFile))
  rw [hpublished] at happlied
  rw [applied_eq]
  exact happlied fun settings hmem => ServerEvent.valid_of_accepted hmem

end Launch

/-- Whatever a server that was started from an accepted configuration goes through, whenever its follower has nothing left to do the
ratios in force are the settings of the last file that was accepted, and left alone the follower gets there. A file that is refused
changes nothing. The ratios put in force one after another are some of those of the configuration and the accepted files, in
order. And of the session, its tree included, nothing but these ratios depends on any of this. -/
theorem reload_all_or_nothing {inv : Inventory} {config : AgentConfig} {listeners : List String} {t : SchedulerTree}
    (h : SchedulerTree.ofInventory inv config listeners = .ok t) (hasConfigFile : Bool) (events : List ServerEvent) :
    let s := (launch t config hasConfigFile).run events
    let accepted := ServerEvent.accepted hasConfigFile events
    (s.feed.atRest = true → s.ratios = (accepted.getLastD config.overcommit).asRatios) ∧
      s.settle.settle.feed.atRest = true ∧
      (∀ content, (hasConfigFile = true → OvercommitSettings.ofFile? content = none) → s.step (.hangUp content) = s) ∧
      ((launch t config hasConfigFile).applied events).Sublist ((config.overcommit :: accepted).map OvercommitSettings.asRatios) ∧
      s.session = (({ tree := t } : Session).run (events.filterMap ServerEvent.session?)).setRatios s.ratios := by
  intro s accepted
  have hconfig : config.overcommit.Valid := AgentConfig.valid_overcommit (SchedulerTree.validate_of_ofInventory h).2
  have hcurrent := run_launch_current t config hasConfigFile events
  have hfile : s.hasConfigFile = hasConfigFile := hasConfigFile_run _ events
  refine ⟨fun hrest => ?_, s.settle_settle_atRest hcurrent, fun content hrefused => ?_,
    launch_applied t config hasConfigFile events hconfig, run_session (launch t config hasConfigFile) events⟩
  · have hlast : (accepted.getLastD config.overcommit).Valid := by
      rcases List.mem_cons.mp (@List.getLastD_mem_cons _ accepted config.overcommit) with hnone | hsome
      · rw [hnone]
        exact hconfig
      · exact ServerEvent.valid_of_accepted hsome
    rw [← run_launch_latest t config hasConfigFile events] at hlast ⊢
    exact hcurrent.eq_of_atRest hrest hlast
  · exact s.step_hangUp_of_refused fun hs => hrefused (hfile ▸ hs)

/-- A file that doubles the cpu and then one that asks for more but has a fan-out of zero: the cpu stays doubled. -/
theorem reload_all_or_nothing_zero_fanout :
    let inv : Inventory := { root := "r", schedulers := [⟨"r", [], []⟩], hosts := [] }
    let events : List ServerEvent :=
      [.hangUp (some "[agent]\ncpu_overcommit = 2.0\n"), .hangUp (some "[agent]\ncpu_overcommit = 3.0\n[scheduler]\nfanout = 0\n")]
    ∃ t, SchedulerTree.ofInventory inv {} [] = .ok t ∧
      ((launch t {} true).run events).settle.settle.ratios = { cpu := 2.0, memory := 1.0 } := by
  intro inv events
  obtain ⟨t, ht⟩ : ∃ t, SchedulerTree.ofInventory inv {} [] = .ok t := ⟨_, rfl⟩
  refine ⟨t, ht, ?_⟩
  have hrest := (reload_all_or_nothing ht true events).2.1
  let rounds : List ServerEvent := OvercommitFeed.round.map .follow ++ OvercommitFeed.round.map .follow
  have hrun : (launch t {} true).run (events ++ rounds) = ((launch t {} true).run events).settle.settle := by
    rw [settle, settle, run, run, run, run, ← List.foldl_append, ← List.foldl_append]
  have haccepted : ServerEvent.accepted true (events ++ rounds) = [{ cpu := 2.0, memory := 1.0 }] := by decide +kernel
  have hratios := (reload_all_or_nothing ht true (events ++ rounds)).1
  rw [hrun, haccepted] at hratios
  exact hratios hrest

end Server

end PlacementTree
