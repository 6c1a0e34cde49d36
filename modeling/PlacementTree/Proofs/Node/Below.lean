import PlacementTree.Proofs.Node.Answer

/-!
# The nodes below a node

`Node.at?` is the node at a position below another; the positions of a tree are the rows of numbers that it gives a node for. What a
scheduler sees of the node in a place is what `Node.child` says of that node at the longer position (`Node.child_mem`).
-/

namespace PlacementTree

namespace Node

/-- What holds of all hosts and peers, and of a scheduler if it holds of its nodes, holds of every node. -/
theorem induction {motive : Node → Prop} (host : ∀ ref, motive (.host ref)) (peer : ∀ child, motive (.peer child))
    (scheduler : ∀ id limits hosts (nodes : List Node), (∀ (i : Nat) (node : Node), nodes[i]? = some node → motive node) →
      motive (.scheduler id limits hosts nodes)) : ∀ node, motive node
  | .host ref => host ref
  | .peer child => peer child
  | .scheduler id limits hosts nodes =>
    scheduler id limits hosts nodes fun i node hi =>
      have : sizeOf node < sizeOf nodes := List.sizeOf_lt_of_mem (List.mem_of_getElem? hi)
      induction host peer scheduler node
termination_by node => sizeOf node
decreasing_by
  simp only [Node.scheduler.sizeOf_spec]
  omega

/-- The node at a position below. -/
def at? : Node → Position → Option Node
  | node, [] => some node
  | .scheduler _ _ _ nodes, number :: position => (nodes[number]?).bind fun node => node.at? position
  | _, _ :: _ => none

@[simp] theorem at?_nil (node : Node) : node.at? [] = some node := by
  cases node <;> rfl

theorem at?_cons_eq_some_iff {node below : Node} {number : Nat} {position : Position} :
    node.at? (number :: position) = some below ↔
      ∃ id limits hosts nodes next, node = .scheduler id limits hosts nodes ∧ nodes[number]? = some next ∧
        next.at? position = some below := by
  cases node with
  | host => simp [at?]
  | peer => simp [at?]
  | scheduler id limits hosts nodes =>
    rw [at?, Option.bind_eq_some_iff]
    constructor
    · rintro ⟨next, hnext, hbelow⟩
      exact ⟨id, limits, hosts, nodes, next, rfl, hnext, hbelow⟩
    · rintro ⟨_, _, _, _, next, ⟨⟩, hnext, hbelow⟩
      exact ⟨next, hnext, hbelow⟩

/-- A position below a position below is a longer position. -/
theorem at?_append {node below : Node} {p q : Position} (h : node.at? p = some below) : node.at? (p ++ q) = below.at? q := by
  induction p generalizing node with
  | nil =>
    rw [at?_nil, Option.some.injEq] at h
    rw [h, List.nil_append]
  | cons number p ih =>
    obtain ⟨id, limits, hosts, nodes, next, rfl, hnext, hbelow⟩ := at?_cons_eq_some_iff.mp h
    rw [List.cons_append, at?, hnext, Option.bind_some, ih hbelow]

/-- The positions on the way to a node have nodes. -/
theorem exists_at?_of_append {node below : Node} {p q : Position} (h : node.at? (p ++ q) = some below) :
    ∃ between, node.at? p = some between ∧ between.at? q = some below := by
  induction p generalizing node with
  | nil => exact ⟨node, at?_nil node, h⟩
  | cons number p ih =>
    obtain ⟨id, limits, hosts, nodes, next, rfl, hnext, hbelow⟩ := at?_cons_eq_some_iff.mp h
    obtain ⟨between, hbetween, hq⟩ := ih hbelow
    exact ⟨between, at?_cons_eq_some_iff.mpr ⟨id, limits, hosts, nodes, next, rfl, hnext, hbetween⟩, hq⟩

/-- A scheduler sees the node in a place among its children. -/
theorem child_mem {s : Surroundings} {position : Position} {nodes : List Node} {i : Nat} {node : Node}
    (h : nodes[i]? = some node) : node.child s (position ++ [i]) ∈ Node.childrenFrom s position 0 nodes :=
  mem_childrenFrom.mpr ⟨i, node, h, rfl⟩

end Node

end PlacementTree
