import PlacementTree.Proofs.SchedulerTree.OfInventory

/-!
# A tree in use

What may happen to a tree is a `TreeEvent`, and `SchedulerTree.after` is the tree after a row of events. An event changes the
ratios, one agent or, when the tree is closed, all of them (`SchedulerTree.step_outcome`); all that is said of every reachable state
follows from this case by case.

The nodes, the registry, the transfer ratio, the timeout and the ids of the agents stay (`SchedulerTree.Keeps`), so a tree mirrors
its inventory as long as it is used (`SchedulerTree.Mirrors.after`). Every agent keeps a snapshot of its own host
(`SchedulerTree.own_snapshots`), and without a close it stays open (`SchedulerTree.open_agents`).
-/

namespace PlacementTree

/-- What may happen to a tree: a snapshot is delivered through the tree or straight to the agent of a host, the policy is changed,
a request is placed, or agents are closed. -/
inductive TreeEvent where
  | deliver (snapshot : ResourceSnapshot)
  | deliverTo (host : String) (snapshot : ResourceSnapshot)
  | setCpu (ratio : Float)
  | setMemory (ratio : Float)
  | adopt (settings : OvercommitSettings)
  | place (request : PlacementRequest) (surroundings : Surroundings) (now : Int)
  | closeHost (host : String)
  | close

/-- Whether the event closes agents. -/
def TreeEvent.closes : TreeEvent → Bool
  | .closeHost _ => true
  | .close => true
  | _ => false

namespace SchedulerTree

/-- Let the agent of a host take a snapshot, or leave the tree as it is if there is none or it refuses. -/
def deliverTo (t : SchedulerTree) (host : String) (snapshot : ResourceSnapshot) : SchedulerTree :=
  match t.host? host with
  | none => t
  | some a =>
    match a.updateSnapshot snapshot with
    | .ok (a, _) => t.setHost host a
    | .error _ => t

/-- Close the agent of a host if there is one. -/
def closeHost (t : SchedulerTree) (host : String) : SchedulerTree :=
  match t.host? host with
  | none => t
  | some a => t.setHost host a.close

/-- Put ratios in force unless they were refused. -/
def setRatiosIfOk (t : SchedulerTree) : Except PlacementError OvercommitRatios → SchedulerTree
  | .ok ratios => t.setRatios ratios
  | .error _ => t

/-- One event. A placement changes nothing, and what is refused changes nothing. -/
def step (t : SchedulerTree) : TreeEvent → SchedulerTree
  | .deliver snapshot =>
    match t.updateSnapshot snapshot with
    | .ok (t, _) => t
    | .error _ => t
  | .deliverTo host snapshot => t.deliverTo host snapshot
  | .setCpu ratio => t.setRatiosIfOk (t.fleet.ratios.setCpu ratio)
  | .setMemory ratio => t.setRatiosIfOk (t.fleet.ratios.setMemory ratio)
  | .adopt settings => t.setRatiosIfOk ((t.fleet.ratios.adopt settings).map (·.1))
  | .place _ _ _ => t
  | .closeHost host => t.closeHost host
  | .close => t.close

/-- The tree after a row of events. -/
def after (t : SchedulerTree) (events : List TreeEvent) : SchedulerTree := events.foldl step t

/-- Delivering through the tree is delivering to the agent of the described host. -/
theorem step_deliver (t : SchedulerTree) (snapshot : ResourceSnapshot) :
    t.step (.deliver snapshot) = t.deliverTo snapshot.hostId snapshot := by
  simp only [step, updateSnapshot, deliverTo]
  cases ha : t.host? snapshot.hostId with
  | none => simp
  | some a => cases h : a.updateSnapshot snapshot <;> simp [Except.map, h]

/-- What an event may make of a tree. -/
inductive Outcome (t : SchedulerTree) (e : TreeEvent) : SchedulerTree → Prop where
  | same : Outcome t e t
  | ratios (ratios : OvercommitRatios) : Outcome t e (t.setRatios ratios)
  | takes {host : String} {ref : AgentRef} {a : HostAgent} {snapshot : ResourceSnapshot} :
      t.ref? host = some ref → t.fleet.agent? ref = some a → snapshot.hostId = a.id →
        Outcome t e { t with fleet := t.fleet.setAgent ref { a with snapshot } }
  | closesHost {host : String} {ref : AgentRef} {a : HostAgent} :
      e.closes = true → t.ref? host = some ref → t.fleet.agent? ref = some a →
        Outcome t e { t with fleet := t.fleet.setAgent ref a.close }
  | closesAll : e.closes = true → Outcome t e t.close

/-- Replacing the agent of a host puts the new one into its place. -/
theorem setHost_eq {t : SchedulerTree} {host : String} {ref : AgentRef} (href : t.ref? host = some ref) (a : HostAgent) :
    t.setHost host a = { t with fleet := t.fleet.setAgent ref a } := by
  rw [setHost, href]

/-- Delivering changes nothing, or the agent of the host has the snapshot, which is one of its host. -/
theorem deliverTo_outcome (t : SchedulerTree) (e : TreeEvent) (host : String) (snapshot : ResourceSnapshot) :
    Outcome t e (t.deliverTo host snapshot) := by
  unfold deliverTo
  cases ha : t.host? host with
  | none => exact Outcome.same
  | some a =>
    obtain ⟨ref, href, hagent⟩ := Option.bind_eq_some_iff.mp ha
    by_cases hid : snapshot.hostId = a.id
    · simp only [HostAgent.updateSnapshot, if_pos hid, setHost_eq href]
      exact Outcome.takes href hagent hid
    · simp only [HostAgent.updateSnapshot, if_neg hid]
      exact Outcome.same

/-- Closing a host changes nothing, or closes its agent. -/
theorem closeHost_outcome (t : SchedulerTree) (host : String) : Outcome t (.closeHost host) (t.closeHost host) := by
  unfold closeHost
  cases ha : t.host? host with
  | none => exact Outcome.same
  | some a =>
    obtain ⟨ref, href, hagent⟩ := Option.bind_eq_some_iff.mp ha
    simp only [setHost_eq href]
    exact Outcome.closesHost rfl href hagent

/-- Changing the policy changes nothing, or puts ratios in force. -/
theorem setRatiosIfOk_outcome (t : SchedulerTree) (e : TreeEvent) (result : Except PlacementError OvercommitRatios) :
    Outcome t e (t.setRatiosIfOk result) := by
  cases result with
  | error => exact Outcome.same
  | ok ratios => exact Outcome.ratios ratios

/-- Every event does one of these. -/
theorem step_outcome (t : SchedulerTree) (e : TreeEvent) : Outcome t e (t.step e) := by
  cases e with
  | deliver snapshot =>
    rw [step_deliver]
    exact t.deliverTo_outcome _ snapshot.hostId snapshot
  | deliverTo host snapshot => exact t.deliverTo_outcome _ host snapshot
  | setCpu ratio => exact t.setRatiosIfOk_outcome _ _
  | setMemory ratio => exact t.setRatiosIfOk_outcome _ _
  | adopt settings => exact t.setRatiosIfOk_outcome _ _
  | place => exact Outcome.same
  | closeHost host => exact t.closeHost_outcome host
  | close => exact Outcome.closesAll rfl

/-! ## What stays -/

/-- The second tree has the nodes of the first, its registrations, its settings and agents of the same ids. -/
structure Keeps (t t' : SchedulerTree) : Prop where
  rootId : t'.rootId = t.rootId
  root : t'.root = t.root
  registry : t'.registry = t.registry
  defaultTimeout : t'.defaultTimeout = t.defaultTimeout
  transfer : t'.fleet.transfer = t.fleet.transfer
  names : ∀ ref, t'.fleet.name? ref = t.fleet.name? ref

theorem Keeps.refl (t : SchedulerTree) : t.Keeps t := ⟨rfl, rfl, rfl, rfl, rfl, fun _ => rfl⟩

theorem Keeps.trans {t t' t'' : SchedulerTree} (h : t.Keeps t') (h' : t'.Keeps t'') : t.Keeps t'' :=
  ⟨h'.rootId.trans h.rootId, h'.root.trans h.root, h'.registry.trans h.registry,
    h'.defaultTimeout.trans h.defaultTimeout, h'.transfer.trans h.transfer,
    fun ref => (h'.names ref).trans (h.names ref)⟩

/-- Registrations lead where they led. -/
theorem Keeps.ref? {t t' : SchedulerTree} (h : t.Keeps t') (id : String) : t'.ref? id = t.ref? id := by
  unfold SchedulerTree.ref?
  rw [h.registry]

/-- A tree that keeps all this of one that mirrors an inventory mirrors it too. -/
theorem Mirrors.of_keeps {t t' : SchedulerTree} {inv : Inventory} {c : AgentConfig} (h : t.Mirrors inv c) (hk : t.Keeps t') :
    t'.Mirrors inv c := by
  have hname : t'.fleet.name? = t.fleet.name? := funext hk.names
  have hhosts : t'.hostIds = t.hostIds := by
    unfold SchedulerTree.hostIds
    rw [hk.registry]
  constructor
  · rw [hk.rootId]
    exact h.rootId
  · rw [hk.root]
    exact h.nodes.mono fun id ref href => (hk.ref? id).trans href
  · rw [hk.root, hname]
    exact h.ids
  · rw [hk.root, hname]
    exact h.idsNodup
  · rw [hhosts]
    exact h.hostIds
  · rw [hhosts]
    exact h.hostIdsNodup
  · intro ref
    simp only [hk.root, hk.ref?]
    exact h.refs ref
  · rw [hk.root]
    exact h.refsNodup
  · intro id ref
    rw [hname, hk.ref?]
    exact h.agents id ref
  · rw [hk.transfer]
    exact h.transfer
  · rw [hk.defaultTimeout]
    exact h.defaultTimeout

end SchedulerTree

/-- What is found in a place after an agent was put there or elsewhere. -/
theorem Fleet.agent?_setAgent {f : Fleet} {ref ref' : AgentRef} {a b : HostAgent} (ha : f.agent? ref = some a) :
    (f.setAgent ref b).agent? ref' = if ref' = ref then some b else f.agent? ref' := by
  unfold Fleet.agent? at ha ⊢
  obtain ⟨hlt, -⟩ := List.getElem?_eq_some_iff.mp ha
  simp only [setAgent, List.getElem?_set]
  by_cases h : ref' = ref
  · simp [h, hlt]
  · have hne : ref.index ≠ ref'.index := fun heq => h (by cases ref; cases ref'; simp_all)
    simp [h, hne]

/-- Closing all agents closes each in its place. -/
theorem Fleet.agent?_close (f : Fleet) (ref : AgentRef) : f.close.agent? ref = (f.agent? ref).map (·.close) := by
  simp [agent?, close]

/-- An agent of the same id in the place of another changes no id. -/
theorem Fleet.name?_setAgent {f : Fleet} {ref : AgentRef} {a b : HostAgent} (ha : f.agent? ref = some a) (hid : b.id = a.id)
    (ref' : AgentRef) : (f.setAgent ref b).name? ref' = f.name? ref' := by
  unfold name?
  rw [agent?_setAgent ha]
  by_cases h : ref' = ref
  · rw [if_pos h, h, ha, Option.map_some, Option.map_some, hid]
  · rw [if_neg h]

namespace SchedulerTree

/-- No event changes what stays. -/
theorem Outcome.keeps {t t' : SchedulerTree} {e : TreeEvent} (h : Outcome t e t') : t.Keeps t' := by
  cases h with
  | same => exact Keeps.refl t
  | ratios => exact ⟨rfl, rfl, rfl, rfl, rfl, fun _ => rfl⟩
  | takes _ ha => exact ⟨rfl, rfl, rfl, rfl, rfl, Fleet.name?_setAgent ha rfl⟩
  | closesHost _ _ ha => exact ⟨rfl, rfl, rfl, rfl, rfl, Fleet.name?_setAgent ha rfl⟩
  | closesAll =>
    refine ⟨rfl, rfl, rfl, rfl, rfl, ?_⟩
    intro ref
    rw [close, Fleet.name?, Fleet.agent?_close, Option.map_map]
    rfl

/-- What holds of a tree and is preserved by every event of a row holds after the row. -/
theorem after_induction {P : SchedulerTree → Prop} {Q : TreeEvent → Prop} (hstep : ∀ t e, Q e → P t → P (t.step e))
    {t : SchedulerTree} (h : P t) {events : List TreeEvent} (hq : ∀ e ∈ events, Q e) : P (t.after events) := by
  induction events generalizing t with
  | nil => exact h
  | cons e events ih =>
    rw [after, List.foldl_cons]
    exact ih (hstep t e (hq e List.mem_cons_self) h) fun e' he' => hq e' (List.mem_cons_of_mem _ he')

/-- No row of events changes what stays. -/
theorem keeps_after (t : SchedulerTree) (events : List TreeEvent) : t.Keeps (t.after events) :=
  after_induction (P := fun t' => t.Keeps t') (Q := fun _ => True) (fun t' e _ h => h.trans (t'.step_outcome e).keeps) (Keeps.refl t)
    fun _ _ => trivial

/-- A tree mirrors its inventory as long as it is used. -/
theorem Mirrors.after {t : SchedulerTree} {inv : Inventory} {c : AgentConfig} (h : t.Mirrors inv c) (events : List TreeEvent) :
    (t.after events).Mirrors inv c := h.of_keeps (t.keeps_after events)

/-! ## Snapshots and open agents -/

/-- Whatever is preserved when an agent takes a snapshot of its host, and when it is closed, all agents have after an event. -/
theorem Outcome.agents {P : HostAgent → Prop} {t t' : SchedulerTree} {e : TreeEvent} (ho : Outcome t e t')
    (htake : ∀ a (snapshot : ResourceSnapshot), P a → snapshot.hostId = a.id → P { a with snapshot })
    (hclose : e.closes = true → ∀ a, P a → P a.close) (h : ∀ ref a, t.fleet.agent? ref = some a → P a) :
    ∀ ref a, t'.fleet.agent? ref = some a → P a := by
  have hset : ∀ {ref : AgentRef} {a b : HostAgent}, t.fleet.agent? ref = some a → P b →
      ∀ ref' a', (t.fleet.setAgent ref b).agent? ref' = some a' → P a' := by
    intro ref a b ha hb ref' a' ha'
    rw [Fleet.agent?_setAgent ha] at ha'
    by_cases heq : ref' = ref
    · rw [if_pos heq] at ha'
      exact Option.some.inj ha' ▸ hb
    · rw [if_neg heq] at ha'
      exact h ref' a' ha'
  cases ho with
  | same => exact h
  | ratios => exact h
  | @takes _ ref a snapshot _ ha hid => exact hset ha (htake a snapshot (h ref a ha) hid)
  | @closesHost _ ref a hc _ ha => exact hset ha (hclose hc a (h ref a ha))
  | closesAll hc =>
    intro ref a ha
    rw [close, Fleet.agent?_close] at ha
    obtain ⟨b, hb, rfl⟩ := Option.map_eq_some_iff.mp ha
    exact hclose hc b (h ref b hb)

/-- Every agent keeps a snapshot of its own host, whatever happens. -/
theorem own_snapshots {t : SchedulerTree} (h : ∀ ref a, t.fleet.agent? ref = some a → a.snapshot.hostId = a.id)
    (events : List TreeEvent) : ∀ ref a, (t.after events).fleet.agent? ref = some a → a.snapshot.hostId = a.id :=
  after_induction (P := fun t => ∀ ref a, t.fleet.agent? ref = some a → a.snapshot.hostId = a.id) (Q := fun _ => True)
    (fun t e _ h => (t.step_outcome e).agents (fun _ _ _ hid => hid) (fun _ _ ha => ha) h) h fun _ _ => trivial

/-- Without a close every agent stays open. -/
theorem open_agents {t : SchedulerTree} (h : ∀ ref a, t.fleet.agent? ref = some a → a.closed = false) {events : List TreeEvent}
    (hopen : ∀ e ∈ events, e.closes = false) : ∀ ref a, (t.after events).fleet.agent? ref = some a → a.closed = false :=
  after_induction (P := fun t => ∀ ref a, t.fleet.agent? ref = some a → a.closed = false) (Q := fun e => e.closes = false)
    (fun t e he h => (t.step_outcome e).agents (fun _ _ ha _ => ha) (fun hc => absurd hc (by simp [he])) h) h hopen

end SchedulerTree

end PlacementTree
