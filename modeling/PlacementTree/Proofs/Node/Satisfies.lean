import PlacementTree.Proofs.Node.Below
import PlacementTree.Proofs.SchedulerTree.Run

/-!
# Pruning never hides a host

A node says that it meets a constraint exactly if some host below it does when it is looked at (`Node.satisfies_iff`), at any depth and
in any tree, whether the host is an agent, stands behind a connection or is ranked by a scheduler. So a node is eligible for a list of
constraints exactly if each of them is met by some host below (`Node.eligible_iff`), not necessarily by one host; and no node on the
way to a host that meets all of them is ever passed over.
-/

namespace PlacementTree

/-- A host that stands right at a node, by the constraints it meets. A scheduler with children knows hosts through them only. -/
inductive Node.HostAt (f : Fleet) : Node → (Constraint → Bool) → Prop where
  | agent {ref : AgentRef} {a : HostAgent} : f.agent? ref = some a → HostAt f (.host ref) a.snapshot.satisfies
  | peer (child : Child) : HostAt f (.peer child) child.satisfies
  | ranked {id : String} {limits : FanoutLimits} {hosts : List LocalHost} {host : LocalHost} {snapshot : ResourceSnapshot} :
      host ∈ hosts → host.snapshot? f = some snapshot → HostAt f (.scheduler id limits hosts []) snapshot.satisfies

/-- A host at a position below a node, as the surroundings show it there. -/
def Node.HostBelow (s : Surroundings) (position : Position) (node : Node) (p : Position) (meets : Constraint → Bool) : Prop :=
  ∃ below, node.at? p = some below ∧ below.HostAt (s.fleet (position ++ p)) meets

namespace Node

variable {s : Surroundings} {position : Position} {meets : Constraint → Bool}

/-- There is at most one host below a node that is no scheduler: at the node itself. -/
theorem hostBelow_leaf_iff (node : Node) (hleaf : ∀ id limits hosts nodes, node ≠ .scheduler id limits hosts nodes) {p : Position} :
    node.HostBelow s position p meets ↔ p = [] ∧ node.HostAt (s.fleet position) meets := by
  constructor
  · rintro ⟨below, hbelow, hhost⟩
    cases p with
    | nil =>
      rw [at?_nil, Option.some.injEq] at hbelow
      rw [List.append_nil] at hhost
      exact ⟨rfl, hbelow ▸ hhost⟩
    | cons i p =>
      obtain ⟨id, limits, hosts, nodes, -, heq, -⟩ := at?_cons_eq_some_iff.mp hbelow
      exact absurd heq (hleaf id limits hosts nodes)
  · rintro ⟨rfl, hhost⟩
    exact ⟨node, at?_nil node, by rwa [List.append_nil]⟩

/-- The hosts below a scheduler with children are those below its children. -/
theorem hostBelow_asks_iff {id : String} {limits : FanoutLimits} {hosts : List LocalHost} {nodes : List Node} (hnodes : nodes ≠ [])
    {p : Position} :
    (Node.scheduler id limits hosts nodes).HostBelow s position p meets ↔
      ∃ i p' node, p = i :: p' ∧ nodes[i]? = some node ∧ node.HostBelow s (position ++ [i]) p' meets := by
  constructor
  · rintro ⟨below, hbelow, hhost⟩
    cases p with
    | nil =>
      rw [at?_nil, Option.some.injEq] at hbelow
      subst hbelow
      cases hhost
      exact absurd rfl hnodes
    | cons i p =>
      obtain ⟨_, _, _, _, node, ⟨⟩, hi, hp⟩ := at?_cons_eq_some_iff.mp hbelow
      exact ⟨i, p, node, rfl, hi, below, hp, by rwa [List.append_assoc]⟩
  · rintro ⟨i, p, node, rfl, hi, below, hp, hhost⟩
    refine ⟨below, at?_cons_eq_some_iff.mpr ⟨id, limits, hosts, nodes, node, rfl, hi, hp⟩, ?_⟩
    rwa [List.append_assoc] at hhost

/-- The hosts below a scheduler without children are those it ranks. -/
theorem hostBelow_ranks_iff {id : String} {limits : FanoutLimits} {hosts : List LocalHost} {p : Position} :
    (Node.scheduler id limits hosts []).HostBelow s position p meets ↔
      p = [] ∧ ∃ snapshot ∈ hosts.filterMap (·.snapshot? (s.fleet position)), snapshot.satisfies = meets := by
  constructor
  · rintro ⟨below, hbelow, hhost⟩
    cases p with
    | nil =>
      rw [at?_nil, Option.some.injEq] at hbelow
      rw [List.append_nil] at hhost
      subst hbelow
      obtain _ | _ | ⟨hmem, hsnapshot⟩ := hhost
      exact ⟨rfl, _, List.mem_filterMap.mpr ⟨_, hmem, hsnapshot⟩, rfl⟩
    | cons i p =>
      obtain ⟨_, _, _, _, node, ⟨⟩, hi, -⟩ := at?_cons_eq_some_iff.mp hbelow
      cases hi
  · rintro ⟨rfl, snapshot, hmem, rfl⟩
    obtain ⟨host, hhost, hsnapshot⟩ := List.mem_filterMap.mp hmem
    refine ⟨_, at?_nil _, ?_⟩
    rw [List.append_nil]
    exact HostAt.ranked hhost hsnapshot

/-- A node meets a constraint exactly if some host below it does. -/
theorem satisfies_iff (s : Surroundings) (position : Position) (node : Node) (c : Constraint) :
    (node.child s position).satisfies c = true ↔ ∃ p meets, node.HostBelow s position p meets ∧ meets c = true := by
  induction node using Node.induction generalizing position with
  | host ref =>
    simp only [hostBelow_leaf_iff (.host ref) (by simp)]
    constructor
    · intro hsat
      rw [Node.child] at hsat
      cases ha : (s.fleet position).agent? ref with
      | none => simp [ha, danglingChild] at hsat
      | some a =>
        simp only [ha] at hsat
        exact ⟨[], _, ⟨rfl, HostAt.agent ha⟩, hsat⟩
    · rintro ⟨_, _, ⟨rfl, ⟨ha⟩⟩, hsat⟩
      simp only [Node.child, ha]
      exact hsat
  | peer child =>
    simp only [hostBelow_leaf_iff (.peer child) (by simp)]
    constructor
    · intro hsat
      exact ⟨[], _, ⟨rfl, HostAt.peer child⟩, hsat⟩
    · rintro ⟨_, _, ⟨rfl, ⟨⟩⟩, hsat⟩
      exact hsat
  | scheduler id limits hosts nodes ih =>
    by_cases hnodes : nodes = []
    · subst hnodes
      simp only [Node.child, Node.childrenFrom, satisfiedBelow, List.isEmpty_nil, if_true, List.any_eq_true, hostBelow_ranks_iff]
      constructor
      · rintro ⟨snapshot, hmem, hsat⟩
        exact ⟨[], _, ⟨rfl, snapshot, hmem, rfl⟩, hsat⟩
      · rintro ⟨_, _, ⟨rfl, snapshot, hmem, rfl⟩, hsat⟩
        exact ⟨snapshot, hmem, hsat⟩
    · have hsome : nodes.isEmpty = false := by simpa using hnodes
      simp only [Node.child, satisfiedBelow, isEmpty_childrenFrom, hsome, hostBelow_asks_iff hnodes]
      rw [if_neg Bool.false_ne_true, List.any_eq_true]
      constructor
      · rintro ⟨child, hchild, hsat⟩
        obtain ⟨i, node, hi, rfl⟩ := mem_childrenFrom.mp hchild
        obtain ⟨p, meets, hbelow, hmeets⟩ := (ih i node hi _).mp hsat
        exact ⟨_, meets, ⟨i, p, node, rfl, hi, hbelow⟩, hmeets⟩
      · rintro ⟨_, meets, ⟨i, p, node, rfl, hi, hbelow⟩, hmeets⟩
        exact ⟨_, child_mem hi, (ih i node hi _).mpr ⟨p, meets, hbelow, hmeets⟩⟩

/-- A node is eligible exactly if every constraint is met by some host below it. -/
theorem eligible_iff (s : Surroundings) (position : Position) (node : Node) (constraints : List Constraint) :
    (node.child s position).eligible constraints = true ↔
      ∀ c ∈ constraints, ∃ p meets, node.HostBelow s position p meets ∧ meets c = true := by
  simp only [Child.eligible, satisfiesAll, List.all_eq_true, satisfies_iff]

/-- Two hosts may meet together what neither meets alone. -/
example (s : Surroundings) :
    let host (datastore : String) : ResourceSnapshot :=
      { hostId := "h", rawCpu := 4, rawMemoryMb := 1024, datastores := NameSet.empty.insert datastore }
    let constraints := [Constraint.datastore "d", .datastore "e"]
    let pair := Node.scheduler "s" { limit := 1, hopLatency := 1 } [.fixed (host "d"), .fixed (host "e")] []
    (pair.child s []).eligible constraints = true ∧ satisfiesAll (host "d").satisfies constraints = false ∧
      satisfiesAll (host "e").satisfies constraints = false := by
  exact ⟨rfl, by decide, by decide⟩

/-- A node with a host below that meets all constraints is eligible. -/
theorem HostBelow.eligible {node : Node} {p : Position} (h : node.HostBelow s position p meets) {constraints : List Constraint}
    (hmeets : satisfiesAll meets constraints = true) : (node.child s position).eligible constraints = true := by
  rw [satisfiesAll, List.all_eq_true] at hmeets
  rw [eligible_iff]
  intro c hc
  exact ⟨p, meets, h, hmeets c hc⟩

/-- A host below is below every node on the way. -/
theorem HostBelow.of_append {node between : Node} {q p : Position} (h : node.HostBelow s position (q ++ p) meets)
    (hq : node.at? q = some between) : between.HostBelow s (position ++ q) p meets := by
  obtain ⟨below, hbelow, hhost⟩ := h
  rw [at?_append hq] at hbelow
  exact ⟨below, hbelow, by rwa [List.append_assoc]⟩

end Node

namespace SchedulerTree

/-- Subtree pruning never hides a matching host. After any use of a tree, every scheduler meets a constraint exactly if some host below
it meets it now; and on the way to a host that meets all constraints of a list, every node passes and every scheduler keeps the child
that leads on among those it may ask. -/
theorem pruning_keeps_hosts (t : SchedulerTree) (events : List TreeEvent) (draw : Position → Draw) :
    let s := Surroundings.steady (t.after events).fleet draw
    (∀ q id limits hosts nodes, (t.after events).root.at? q = some (.scheduler id limits hosts nodes) → ∀ c,
      ((Node.scheduler id limits hosts nodes).child s q).satisfies c = true ↔
        ∃ p meets, (Node.scheduler id limits hosts nodes).HostBelow s q p meets ∧ meets c = true) ∧
      ∀ p meets constraints, (t.after events).root.HostBelow s [] p meets → satisfiesAll meets constraints = true →
        (∀ q p', p = q ++ p' → ∃ node, (t.after events).root.at? q = some node ∧
          (node.child s q).eligible constraints = true) ∧
        ∀ q i p', p = q ++ i :: p' → ∃ id limits hosts nodes next,
          (t.after events).root.at? q = some (.scheduler id limits hosts nodes) ∧ nodes[i]? = some next ∧
            next.child s (q ++ [i]) ∈ (Node.childrenFrom s q 0 nodes).filter (·.eligible constraints) := by
  intro s
  have hpasses : ∀ p meets constraints, (t.after events).root.HostBelow s [] p meets → satisfiesAll meets constraints = true →
      ∀ q p', p = q ++ p' → ∃ node, (t.after events).root.at? q = some node ∧ (node.child s q).eligible constraints = true := by
    rintro _ meets constraints ⟨below, hbelow, hhost⟩ hmeets q p' rfl
    obtain ⟨node, hnode, -⟩ := Node.exists_at?_of_append hbelow
    exact ⟨node, hnode, (Node.HostBelow.of_append ⟨below, hbelow, hhost⟩ hnode).eligible hmeets⟩
  refine ⟨fun q id limits hosts nodes _ c => Node.satisfies_iff s q _ c, ?_⟩
  intro p meets constraints hbelow hmeets
  refine ⟨hpasses p meets constraints hbelow hmeets, ?_⟩
  rintro q i p' rfl
  obtain ⟨next, hnext, heligible⟩ := hpasses _ meets constraints hbelow hmeets (q ++ [i]) p' (by simp)
  obtain ⟨between, hq, hlast⟩ := Node.exists_at?_of_append hnext
  obtain ⟨id, limits, hosts, nodes, node, rfl, hi, hnode⟩ := Node.at?_cons_eq_some_iff.mp hlast
  rw [Node.at?_nil, Option.some.injEq] at hnode
  subst hnode
  exact ⟨id, limits, hosts, nodes, node, hq, hi, List.mem_filter.mpr ⟨Node.child_mem hi, heligible⟩⟩

/-- A host below two schedulers that is connected to a datastore while the tree is in use: the root may ask the one that ranks it. -/
theorem pruning_keeps_hosts_two_levels :
    let entry : HostEntry := { id := "h", cpuCount := 4, memoryMb := 1024 }
    let inv : Inventory := { root := "r", schedulers := [⟨"r", ["s"], []⟩, ⟨"s", [], ["h"]⟩], hosts := [entry] }
    let next := { entry.snapshot with datastores := NameSet.empty.insert "d" }
    ∃ t, ofInventory inv {} [] = .ok t ∧
      let s := Surroundings.steady (t.after [.deliver next]).fleet fun _ _ _ => []
      (t.after [.deliver next]).root.HostBelow s [] [0] next.satisfies ∧
        satisfiesAll next.satisfies [.datastore "d"] = true ∧
        ∃ id limits hosts nodes below, (t.after [.deliver next]).root.at? [] = some (.scheduler id limits hosts nodes) ∧
          nodes[0]? = some below ∧
            below.child s [0] ∈ (Node.childrenFrom s [] 0 nodes).filter (·.eligible [.datastore "d"]) := by
  intro entry inv next
  obtain ⟨t, ht, hbelow⟩ : ∃ t, ofInventory inv {} [] = .ok t ∧ (t.after [.deliver next]).root.HostBelow
      (Surroundings.steady (t.after [.deliver next]).fleet fun _ _ _ => []) [] [0] next.satisfies :=
    ⟨_, rfl, _, rfl, Node.HostAt.ranked List.mem_cons_self rfl⟩
  have hmeets : satisfiesAll next.satisfies [.datastore "d"] = true := by decide
  have hkept := ((pruning_keeps_hosts t [.deliver next] fun _ _ _ => []).2 [0] _ _ hbelow hmeets).2 [] 0 [] rfl
  exact ⟨t, ht, hbelow, hmeets, hkept⟩

end SchedulerTree

end PlacementTree
