import Mathlib.Data.List.Forall2
import PlacementTree.Proofs.Node.Below

/-!
# The requests a tree passes down

`Node.Receives` says which requests the nodes of a tree receive, and when, if its top is asked. No other request matters: peers may
answer everything else in any other way, and the tree answers the same (`Node.place_withPeers`).
-/

namespace PlacementTree

namespace Node

/-- A node that is asked about a request makes the node at a position below receive a request at some time. Schedulers ask the children
they pick, with the request as it is sent one hop down. -/
inductive Receives (s : Surroundings) :
    Position → Node → PlacementRequest → Int → Position → PlacementRequest → Int → Prop where
  | asked (position : Position) (node : Node) (r : PlacementRequest) (now : Int) : Receives s position node r now [] r now
  | passedOn {position : Position} {id : String} {limits : FanoutLimits} {hosts : List LocalHost} {nodes : List Node}
      {r sent : PlacementRequest} {now : Int} {i : Nat} {node : Node} {p : Position} {r' : PlacementRequest} {now' : Int} :
      r.forChild limits.hopLatency now = some sent → nodes[i]? = some node →
        node.child s (position ++ [i]) ∈
          limits.select (s.draw position) r.constraints (Node.childrenFrom s position 0 nodes) →
        Receives s (position ++ [i]) node sent now p r' now' →
          Receives s position (.scheduler id limits hosts nodes) r now (i :: p) r' now'

/-- There is a node where a request is received. -/
theorem Receives.exists_at? {s : Surroundings} {position p : Position} {node : Node} {r r' : PlacementRequest} {now now' : Int}
    (h : Receives s position node r now p r' now') : ∃ below, node.at? p = some below := by
  induction h with
  | asked position node => exact ⟨node, at?_nil node⟩
  | passedOn _ hi _ _ ih =>
    obtain ⟨below, hbelow⟩ := ih
    exact ⟨below, at?_cons_eq_some_iff.mpr ⟨_, _, _, _, _, rfl, hi, hbelow⟩⟩

/-! ## Peers that differ on other requests -/

mutual

/-- The tree with other peers, given by where a peer stands below the top. -/
def withPeers (g : Position → Child → Child) : Node → Node
  | .host ref => .host ref
  | .peer child => .peer (g [] child)
  | .scheduler id limits hosts nodes => .scheduler id limits hosts (withPeersFrom g 0 nodes)

/-- The nodes of a scheduler with other peers, the first of them at the given number. -/
def withPeersFrom (g : Position → Child → Child) (number : Nat) : List Node → List Node
  | [] => []
  | node :: nodes => node.withPeers (fun p => g (number :: p)) :: withPeersFrom g (number + 1) nodes

end

theorem withPeersFrom_eq_nil_iff {g : Position → Child → Child} {number : Nat} {nodes : List Node} :
    withPeersFrom g number nodes = [] ↔ nodes = [] := by
  cases nodes <;> simp [withPeersFrom]

/-- What relates the nodes of a scheduler to those with other peers relates what the scheduler sees of them. -/
theorem forall₂_childrenFrom {s : Surroundings} {position : Position} {g : Position → Child → Child} {R : Child → Child → Prop}
    {number : Nat} {nodes : List Node}
    (h : ∀ (i : Nat) (node : Node), nodes[i]? = some node →
      R ((node.withPeers fun p => g ((number + i) :: p)).child s (position ++ [number + i]))
        (node.child s (position ++ [number + i]))) :
    List.Forall₂ R (Node.childrenFrom s position number (withPeersFrom g number nodes))
      (Node.childrenFrom s position number nodes) := by
  induction nodes generalizing number with
  | nil => exact List.Forall₂.nil
  | cons node nodes ih =>
    refine List.Forall₂.cons (h 0 node rfl) (ih ?_)
    intro i next hi
    have hnext := h (i + 1) next hi
    rwa [Nat.add_left_comm, Nat.add_comm] at hnext

end Node

/-- Lists that agree entry by entry have the same image. -/
theorem map_eq_of_forall₂ {α β : Type} {R : α → α → Prop} {f : α → β} {l l' : List α} (h : List.Forall₂ R l l')
    (hf : ∀ a, ∀ b ∈ l', R a b → f a = f b) : l.map f = l'.map f := by
  induction h with
  | nil => rfl
  | @cons a b l l' hab _ ih =>
    rw [List.map_cons, List.map_cons, hf a b List.mem_cons_self hab,
      ih fun a b hb => hf a b (List.mem_cons_of_mem _ hb)]

/-- Entries in the places of a draw. -/
theorem forall₂_draw {α β : Type} {R : α → β → Prop} {l : List α} {l' : List β} (h : List.Forall₂ R l l') (places : List Nat) :
    List.Forall₂ R (places.filterMap (l[·]?)) (places.filterMap (l'[·]?)) := by
  have hplace : ∀ i : Nat, Option.Rel R l[i]? l'[i]? := by
    induction h with
    | nil => exact fun _ => Option.Rel.none
    | cons hab _ ih =>
      intro i
      cases i with
      | zero => exact Option.Rel.some hab
      | succ i => exact ih i
  induction places with
  | nil => exact List.Forall₂.nil
  | cons i places ih =>
    have hi := hplace i
    rw [List.filterMap_cons, List.filterMap_cons]
    cases h₁ : l[i]? <;> cases h₂ : l'[i]? <;> rw [h₁, h₂] at hi
    · exact ih
    · cases hi
    · cases hi
    · cases hi with
      | some hab => exact List.Forall₂.cons hab ih

/-- Which children are picked depends on the constraints that they meet only. -/
theorem FanoutLimits.forall₂_select {R : Child → Child → Prop} (hsat : ∀ a b, R a b → a.satisfies = b.satisfies)
    {children children' : List Child} (h : List.Forall₂ R children children') (limits : FanoutLimits) (draw : Draw)
    (constraints : List Constraint) :
    List.Forall₂ R (limits.select draw constraints children) (limits.select draw constraints children') := by
  have heligible : List.Forall₂ R (children.filter (·.eligible constraints)) (children'.filter (·.eligible constraints)) := by
    refine List.rel_filter ?_ h
    intro a b hab
    simp only [Child.eligible, hsat a b hab]
  simp only [select, heligible.length_eq]
  split
  · exact heligible
  · exact forall₂_draw heligible _

/-- Children that answer the one request they are asked about alike make the same fan-out. -/
theorem FanoutLimits.dispatch_congr {R : Child → Child → Prop} (hsat : ∀ a b, R a b → a.satisfies = b.satisfies)
    {children children' : List Child} (h : List.Forall₂ R children children') {limits : FanoutLimits} {draw : Draw}
    {r : PlacementRequest} {now : Int}
    (hasked : ∀ sent, r.forChild limits.hopLatency now = some sent → ∀ a, ∀ b ∈ limits.select draw r.constraints children',
      R a b → a.arrival sent now = b.arrival sent now) :
    limits.dispatch draw r now children = limits.dispatch draw r now children' := by
  unfold dispatch
  cases hsent : r.forChild limits.hopLatency now with
  | none => rfl
  | some sent =>
    have hselect := forall₂_select hsat h limits draw r.constraints
    have harrivals := map_eq_of_forall₂ hselect (hasked sent hsent)
    clear hasked
    dsimp only
    generalize limits.select draw r.constraints children = picked at hselect harrivals ⊢
    generalize limits.select draw r.constraints children' = picked' at hselect harrivals ⊢
    cases hselect with
    | nil => rfl
    | cons => exact congrArg (fun arrivals => Fanout.dispatched { arrivals, deadline := r.deadline }) harrivals

/-- Whether somebody below meets a constraint depends on what the children meet. -/
theorem satisfiedBelow_congr {f : Fleet} {hosts : List LocalHost} {children children' : List Child}
    (h : List.Forall₂ (fun a b => a.satisfies = b.satisfies) children children') :
    satisfiedBelow f hosts children = satisfiedBelow f hosts children' := by
  have hmap : children.map (·.satisfies) = children'.map (·.satisfies) := map_eq_of_forall₂ h fun _ _ _ hab => hab
  have hempty : children.isEmpty = children'.isEmpty := by
    cases h <;> rfl
  funext c
  have hany : ∀ l : List Child, l.any (·.satisfies c) = (l.map (·.satisfies)).any (· c) := by
    intro l
    rw [List.any_map]
    rfl
  rw [satisfiedBelow, satisfiedBelow, hempty, hany children, hany children', hmap]

namespace Node

variable {s : Surroundings} {g : Position → Child → Child}

/-- Peers that meet the same constraints make every node meet the same. -/
theorem satisfies_withPeers (hsat : ∀ p child, (g p child).satisfies = child.satisfies) (position : Position) (node : Node) :
    ((node.withPeers g).child s position).satisfies = (node.child s position).satisfies := by
  induction node using Node.induction generalizing g position with
  | host => rfl
  | peer child => exact hsat [] child
  | scheduler id limits hosts nodes ih =>
    apply satisfiedBelow_congr
    apply forall₂_childrenFrom
    intro i node hi
    exact ih i node hi (fun p child => hsat _ child) _

/-- Peers with the same ids leave every node its id. -/
theorem id_withPeers (hid : ∀ p child, (g p child).id = child.id) (position : Position) (node : Node) :
    ((node.withPeers g).child s position).id = (node.child s position).id := by
  cases node with
  | host => rfl
  | peer child => exact hid [] child
  | scheduler => rfl

/-- What a tree answers depends on what its peers answer to the requests they receive only. -/
theorem place_withPeers (hid : ∀ p child, (g p child).id = child.id)
    (hsat : ∀ p child, (g p child).satisfies = child.satisfies) {position : Position} {node : Node} {r : PlacementRequest}
    {now : Int}
    (hplace : ∀ p child r' now', node.at? p = some (.peer child) → Receives s position node r now p r' now' →
      (g p child).place r' now' = child.place r' now') :
    ((node.withPeers g).child s position).place r now = (node.child s position).place r now := by
  induction node using Node.induction generalizing g position r now with
  | host => rfl
  | peer child => exact hplace [] child r now rfl (Receives.asked _ _ _ _)
  | scheduler id limits hosts nodes ih =>
    let picked := limits.select (s.draw position) r.constraints (Node.childrenFrom s position 0 nodes)
    let Alike (a b : Child) : Prop := a.satisfies = b.satisfies ∧
      ∀ sent, r.forChild limits.hopLatency now = some sent → b ∈ picked → a.arrival sent now = b.arrival sent now
    have hbelow : List.Forall₂ Alike (Node.childrenFrom s position 0 (withPeersFrom g 0 nodes))
        (Node.childrenFrom s position 0 nodes) := by
      apply forall₂_childrenFrom
      intro i node hi
      rw [Nat.zero_add]
      refine ⟨satisfies_withPeers (fun p => hsat _) _ node, ?_⟩
      intro sent hsent hpicked
      have hsame : ((node.withPeers fun p => g (i :: p)).child s (position ++ [i])).place sent now =
          (node.child s (position ++ [i])).place sent now := by
        apply ih i node hi (fun p => hid _) (fun p => hsat _)
        intro p child r' now' hp hreceives
        refine hplace (i :: p) child r' now' ?_ (Receives.passedOn hsent hi hpicked hreceives)
        exact at?_cons_eq_some_iff.mpr ⟨id, limits, hosts, nodes, node, rfl, hi, hp⟩
      simp only [Child.arrival, hsame, id_withPeers (fun p => hid _) _ node]
    have hdispatch : limits.dispatch (s.draw position) r now (Node.childrenFrom s position 0 (withPeersFrom g 0 nodes)) =
        limits.dispatch (s.draw position) r now (Node.childrenFrom s position 0 nodes) :=
      FanoutLimits.dispatch_congr (fun _ _ h => h.1) hbelow fun sent hsent _ _ hpicked h => h.2 sent hsent hpicked
    have hempty : nodes = [] ↔ withPeersFrom g 0 nodes = [] := withPeersFrom_eq_nil_iff.symm
    simp [withPeers, Node.child, decideAtScheduler, decideByAsking, hdispatch, Node.isEmpty_childrenFrom, hempty]

end Node

end PlacementTree
