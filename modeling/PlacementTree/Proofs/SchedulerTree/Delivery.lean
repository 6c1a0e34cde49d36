import PlacementTree.Proofs.SchedulerTree.Run

/-!
# What an agent has met

An event concerns an agent only by the id of its host: a snapshot of that host replaces the one it has, and it is closed with its
host or with the tree (`HostAgent.meet`). After a row of events every agent is what the events of its own host made of it
(`SchedulerTree.agent?_after`). So it holds the last snapshot delivered for its host, if there was one (`TreeEvent.latest?`,
`HostAgent.meetAll_eq`), whatever happened to others or to the policy in between.

The argument needs that an agent is found under its own id and no other, which a tree keeps of the inventory it was built from.
-/

namespace PlacementTree

namespace TreeEvent

/-- The snapshot that an event delivers, unless it comes to the agent of another host, which refuses it. -/
def delivered? : TreeEvent → Option ResourceSnapshot
  | .deliver snapshot => some snapshot
  | .deliverTo host snapshot => if snapshot.hostId = host then some snapshot else none
  | _ => none

/-- Whether an event closes the agent of a host. -/
def closesAgent (host : String) : TreeEvent → Bool
  | .closeHost host' => host' == host
  | .close => true
  | _ => false

/-- The snapshot that an event delivers for a host. -/
def deliveredFor? (host : String) (e : TreeEvent) : Option ResourceSnapshot := e.delivered?.filter (·.hostId == host)

/-- The last snapshot delivered for a host. -/
def latest? (events : List TreeEvent) (host : String) : Option ResourceSnapshot := (events.filterMap (deliveredFor? host)).getLast?

theorem deliveredFor?_deliverTo (host' host : String) (s : ResourceSnapshot) :
    (deliverTo host s).deliveredFor? host' = if s.hostId = host ∧ host = host' then some s else none := by
  rw [deliveredFor?, delivered?]
  by_cases hid : s.hostId = host
  · by_cases heq : host = host' <;> simp [Option.filter, hid, heq]
  · simp [hid]

theorem hostId_of_deliveredFor? {host : String} {e : TreeEvent} {s : ResourceSnapshot} (h : e.deliveredFor? host = some s) :
    s.hostId = host := by
  rw [deliveredFor?, Option.filter_eq_some_iff] at h
  exact eq_of_beq h.2

/-- The last snapshot delivered for a host is one of it. -/
theorem hostId_of_latest? {events : List TreeEvent} {host : String} {s : ResourceSnapshot} (h : latest? events host = some s) :
    s.hostId = host := by
  obtain ⟨e, -, he⟩ := List.mem_filterMap.mp (List.mem_of_getLast? h)
  exact hostId_of_deliveredFor? he

/-- The last of a row of events counts if it delivers something for the host. -/
theorem latest?_concat (events : List TreeEvent) (e : TreeEvent) (host : String) :
    latest? (events ++ [e]) host = (e.deliveredFor? host).or (latest? events host) := by
  rw [latest?, List.filterMap_append, latest?]
  cases h : e.deliveredFor? host <;> simp [h]

/-- An event that closes an agent is one that closes agents. -/
theorem closes_of_closesAgent {host : String} {e : TreeEvent} (h : e.closesAgent host = true) : e.closes = true := by
  cases e with
  | closeHost => rfl
  | close => rfl
  | _ => cases h

end TreeEvent

namespace HostAgent

/-- What an event makes of an agent. -/
def meet (a : HostAgent) (e : TreeEvent) : HostAgent :=
  { a with snapshot := (e.deliveredFor? a.id).getD a.snapshot, closed := a.closed || e.closesAgent a.id }

/-- What a row of events makes of an agent. -/
def meetAll (a : HostAgent) (events : List TreeEvent) : HostAgent := events.foldl meet a

/-- An agent has the last snapshot delivered for its host, and is closed if its host ever was. -/
theorem meetAll_eq (a : HostAgent) (events : List TreeEvent) :
    a.meetAll events =
      { a with
        snapshot := (TreeEvent.latest? events a.id).getD a.snapshot
        closed := a.closed || events.any (TreeEvent.closesAgent a.id) } := by
  induction events using List.reverseRecOn with
  | nil => simp [meetAll, TreeEvent.latest?]
  | append_singleton events e ih =>
    have hlast : a.meetAll (events ++ [e]) = (a.meetAll events).meet e := List.foldl_concat ..
    rw [hlast, ih, meet, TreeEvent.latest?_concat]
    cases e.deliveredFor? a.id <;> simp [Bool.or_assoc]

/-- What has nothing to do with the host leaves its agent as it is. -/
theorem meet_eq_self {a : HostAgent} {e : TreeEvent} (hdelivered : e.deliveredFor? a.id = none)
    (hcloses : e.closesAgent a.id = false) : a.meet e = a := by
  rw [meet, hdelivered, hcloses, Option.getD_none, Bool.or_false]

/-- An agent takes what is delivered through the tree if it is a snapshot of its host. -/
theorem meet_deliver (a : HostAgent) (s : ResourceSnapshot) :
    a.meet (.deliver s) = if s.hostId = a.id then { a with snapshot := s } else a := by
  by_cases hid : s.hostId = a.id
  · simp [meet, TreeEvent.deliveredFor?, TreeEvent.delivered?, TreeEvent.closesAgent, Option.filter, hid]
  · rw [if_neg hid]
    refine meet_eq_self ?_ rfl
    simp [TreeEvent.deliveredFor?, TreeEvent.delivered?, Option.filter, hid]

end HostAgent

namespace SchedulerTree

variable {t : SchedulerTree} {inv : Inventory} {c : AgentConfig}

/-- The agent of a host is the one with its id. -/
theorem Mirrors.host?_eq_some_iff (hm : t.Mirrors inv c) {host : String} {a : HostAgent} :
    t.host? host = some a ↔ a.id = host ∧ ∃ ref, t.ref? host = some ref ∧ t.fleet.agent? ref = some a := by
  rw [host?, Option.bind_eq_some_iff]
  constructor
  · rintro ⟨ref, href, ha⟩
    obtain ⟨a', ha', hid⟩ := Option.map_eq_some_iff.mp ((hm.agents host ref).mpr href)
    rw [ha, Option.some.injEq] at ha'
    exact ⟨ha' ▸ hid, ref, href, ha⟩
  · exact fun h => h.2

/-- Every agent of the tree is found under its id. -/
theorem Mirrors.ref?_of_agent? (hm : t.Mirrors inv c) {ref : AgentRef} {a : HostAgent} (ha : t.fleet.agent? ref = some a) :
    t.ref? a.id = some ref := by
  refine (hm.agents a.id ref).mp ?_
  rw [Fleet.name?, ha]
  rfl

/-- A host is found exactly if it is one of the inventory that can be reached. -/
theorem Mirrors.exists_host?_iff (hm : t.Mirrors inv c) {host : String} :
    (∃ a, t.host? host = some a) ↔ inv.Reached host ∧ host ∈ inv.hostIds := by
  rw [← hm.hostIds, mem_hostIds_iff]
  constructor
  · rintro ⟨a, ha⟩
    obtain ⟨-, ref, href, -⟩ := hm.host?_eq_some_iff.mp ha
    exact ⟨ref, href⟩
  · rintro ⟨ref, href⟩
    obtain ⟨a, ha, hid⟩ := Option.map_eq_some_iff.mp ((hm.agents host ref).mpr href)
    exact ⟨a, hm.host?_eq_some_iff.mpr ⟨hid, ref, href, ha⟩⟩

/-- Changing the agent of a host changes the one agent with its id. -/
theorem Mirrors.agent?_setHost (hm : t.Mirrors inv c) {host : String} {a : HostAgent} (ha : t.host? host = some a)
    (change : HostAgent → HostAgent) (ref : AgentRef) :
    (t.setHost host (change a)).fleet.agent? ref = (t.fleet.agent? ref).map fun a' => if a'.id = host then change a' else a' := by
  obtain ⟨hid, found, hfound, hagent⟩ := hm.host?_eq_some_iff.mp ha
  rw [setHost_eq hfound, Fleet.agent?_setAgent hagent]
  by_cases heq : ref = found
  · rw [if_pos heq, heq, hagent, Option.map_some, if_pos hid]
  · rw [if_neg heq]
    cases hother : t.fleet.agent? ref with
    | none => rfl
    | some a' =>
      have hne : a'.id ≠ host := by
        rintro rfl
        exact heq (Option.some.inj ((hm.ref?_of_agent? hother).symm.trans hfound))
      rw [Option.map_some, if_neg hne]

/-- No agent has the id of a host that is not found. -/
theorem Mirrors.id_ne_of_host?_eq_none (hm : t.Mirrors inv c) {host : String} (hnone : t.host? host = none) {ref : AgentRef}
    {a : HostAgent} (ha : t.fleet.agent? ref = some a) : a.id ≠ host := by
  rintro rfl
  rw [hm.host?_eq_some_iff.mpr ⟨rfl, ref, hm.ref?_of_agent? ha, ha⟩] at hnone
  cases hnone

/-- What changes no agent of a fleet may be applied to each of them. -/
theorem agent?_eq_map {f : Fleet} {ref : AgentRef} {change : HostAgent → HostAgent}
    (h : ∀ a, f.agent? ref = some a → change a = a) : f.agent? ref = (f.agent? ref).map change := by
  cases ha : f.agent? ref with
  | none => rfl
  | some a => rw [Option.map_some, h a ha]

/-- A delivery is met by the agent of its host, if it is one of that host. -/
theorem Mirrors.agent?_deliverTo (hm : t.Mirrors inv c) (host : String) (snapshot : ResourceSnapshot) (ref : AgentRef) :
    (t.deliverTo host snapshot).fleet.agent? ref = (t.fleet.agent? ref).map (·.meet (.deliverTo host snapshot)) := by
  unfold deliverTo
  cases ha : t.host? host with
  | none =>
    apply agent?_eq_map
    intro a hagent
    refine HostAgent.meet_eq_self ?_ rfl
    rw [TreeEvent.deliveredFor?_deliverTo, if_neg fun h => hm.id_ne_of_host?_eq_none ha hagent h.2.symm]
  | some a =>
    obtain ⟨hida, -⟩ := hm.host?_eq_some_iff.mp ha
    by_cases hid : snapshot.hostId = a.id
    · simp only [HostAgent.updateSnapshot, if_pos hid]
      rw [hm.agent?_setHost ha fun a => { a with snapshot }]
      apply Option.map_congr
      intro a' _
      rw [HostAgent.meet, TreeEvent.deliveredFor?_deliverTo]
      by_cases heq : a'.id = host
      · rw [if_pos heq, if_pos ⟨hid.trans hida, heq.symm⟩]
        simp [TreeEvent.closesAgent]
      · rw [if_neg heq, if_neg fun h => heq h.2.symm]
        simp [TreeEvent.closesAgent]
    · simp only [HostAgent.updateSnapshot, if_neg hid]
      apply agent?_eq_map
      intro a' _
      refine HostAgent.meet_eq_self ?_ rfl
      rw [TreeEvent.deliveredFor?_deliverTo, if_neg fun h => hid (h.1.trans hida.symm)]

/-- A close of a host is met by its agent. -/
theorem Mirrors.agent?_closeHost (hm : t.Mirrors inv c) (host : String) (ref : AgentRef) :
    (t.closeHost host).fleet.agent? ref = (t.fleet.agent? ref).map (·.meet (.closeHost host)) := by
  unfold closeHost
  cases ha : t.host? host with
  | none =>
    apply agent?_eq_map
    intro a hagent
    exact HostAgent.meet_eq_self rfl (beq_eq_false_iff_ne.mpr (Ne.symm (hm.id_ne_of_host?_eq_none ha hagent)))
  | some a =>
    refine (hm.agent?_setHost ha HostAgent.close ref).trans ?_
    apply Option.map_congr
    intro a' _
    by_cases heq : a'.id = host
    · simp [HostAgent.meet, HostAgent.close, TreeEvent.deliveredFor?, TreeEvent.delivered?, TreeEvent.closesAgent, heq]
    · have hother : (host == a'.id) = false := beq_eq_false_iff_ne.mpr fun h => heq h.symm
      simp [HostAgent.meet, TreeEvent.deliveredFor?, TreeEvent.delivered?, TreeEvent.closesAgent, heq, hother]

/-- Changing the policy concerns no agent. -/
theorem agent?_setRatiosIfOk (t : SchedulerTree) (result : Except PlacementError OvercommitRatios) (ref : AgentRef) :
    (t.setRatiosIfOk result).fleet.agent? ref = t.fleet.agent? ref := by
  cases result <;> rfl

/-- An event is met by each agent, wherever it stands. -/
theorem Mirrors.agent?_step (hm : t.Mirrors inv c) (e : TreeEvent) (ref : AgentRef) :
    (t.step e).fleet.agent? ref = (t.fleet.agent? ref).map (·.meet e) := by
  have hnothing : (∀ a : HostAgent, a.meet e = a) → t.fleet.agent? ref = (t.fleet.agent? ref).map (·.meet e) :=
    fun h => agent?_eq_map fun a _ => h a
  cases e with
  | deliver snapshot =>
    have hsame : (TreeEvent.deliver snapshot).delivered? = (TreeEvent.deliverTo snapshot.hostId snapshot).delivered? := by
      rw [TreeEvent.delivered?, TreeEvent.delivered?, if_pos rfl]
    rw [step_deliver, hm.agent?_deliverTo]
    apply Option.map_congr
    intro a _
    simp only [HostAgent.meet, TreeEvent.deliveredFor?, hsame]
    rfl
  | deliverTo host snapshot => exact hm.agent?_deliverTo host snapshot ref
  | setCpu ratio => exact (agent?_setRatiosIfOk t _ ref).trans (hnothing fun a => HostAgent.meet_eq_self rfl rfl)
  | setMemory ratio => exact (agent?_setRatiosIfOk t _ ref).trans (hnothing fun a => HostAgent.meet_eq_self rfl rfl)
  | adopt settings => exact (agent?_setRatiosIfOk t _ ref).trans (hnothing fun a => HostAgent.meet_eq_self rfl rfl)
  | place => exact hnothing fun a => HostAgent.meet_eq_self rfl rfl
  | closeHost host => exact hm.agent?_closeHost host ref
  | close =>
    rw [step, close, Fleet.agent?_close]
    apply Option.map_congr
    intro a _
    simp [HostAgent.meet, HostAgent.close, TreeEvent.deliveredFor?, TreeEvent.delivered?, TreeEvent.closesAgent]

/-- After a row of events each agent has met them all. -/
theorem Mirrors.agent?_after (hm : t.Mirrors inv c) (events : List TreeEvent) (ref : AgentRef) :
    (t.after events).fleet.agent? ref = (t.fleet.agent? ref).map (·.meetAll events) := by
  induction events generalizing t with
  | nil =>
    exact agent?_eq_map fun a _ => rfl
  | cons e events ih =>
    refine (ih (hm.of_keeps (t.step_outcome e).keeps)).trans ?_
    rw [hm.agent?_step, Option.map_map]
    rfl

/-- The agent of a host has met all events. -/
theorem Mirrors.host?_after (hm : t.Mirrors inv c) (events : List TreeEvent) (host : String) :
    (t.after events).host? host = (t.host? host).map (·.meetAll events) := by
  have hsame : (t.after events).ref? host = t.ref? host := (t.keeps_after events).ref? host
  rw [host?, host?, hsame, Option.map_bind]
  exact congrArg (Option.bind _) (funext fun ref => hm.agent?_after events ref)

end SchedulerTree

end PlacementTree
