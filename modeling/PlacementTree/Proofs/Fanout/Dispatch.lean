import Mathlib.Data.List.Perm.Basic
import PlacementTree.Proofs.Node.Answer

/-!
# Whom a scheduler asks

A scheduler that passes a request on asks children in distinct places of its list, all of them eligible, and as many as there are of
them up to its limit, whatever the draw, as long as it is fair (`FanoutLimits.exists_selected`). The draws of a generator are
(`fair_drawDistinct`).

Three things decide what becomes of the request, in this order: whether the hop leaves any time, whether anybody is eligible, and whom
the draw picks (`FanoutLimits.dispatch_bounded`).
-/

namespace PlacementTree

/-! ## Drawing -/

/-- A random number up to a bound. -/
theorem randNat_zero_le (g : StdGen) (bound : Nat) : (randNat g 0 bound).1 ≤ bound := by
  simp only [randNat, Nat.not_lt_zero, gt_iff_lt, if_false, Nat.sub_zero, Nat.zero_add]
  exact Nat.le_of_lt_succ (Nat.mod_lt _ (Nat.succ_pos _))

/-- What is drawn is taken out of the list, and is as much as is wanted. -/
theorem drawFrom_perm (wanted : Nat) (left : List Nat) (g : StdGen) (hle : wanted ≤ left.length) :
    (∃ rest, ((drawFrom wanted left g).1 ++ rest).Perm left) ∧ (drawFrom wanted left g).1.length = wanted := by
  induction wanted generalizing left g with
  | zero => exact ⟨⟨left, List.Perm.refl _⟩, rfl⟩
  | succ wanted ih =>
    have hbound := randNat_zero_le g (left.length - 1)
    cases hdrawn : randNat g 0 (left.length - 1) with
    | mk i g' =>
      rw [hdrawn] at hbound
      have hi : i < left.length := by
        have : i ≤ left.length - 1 := hbound
        omega
      have hlength : wanted ≤ (left.eraseIdx i).length := by
        rw [List.length_eraseIdx_of_lt hi]
        omega
      obtain ⟨⟨rest, hperm⟩, hcount⟩ := ih (left.eraseIdx i) g' hlength
      have hstep : (drawFrom (wanted + 1) left g).1 = left[i] :: (drawFrom wanted (left.eraseIdx i) g').1 := by
        simp only [drawFrom, hdrawn, List.getElem?_eq_getElem hi]
      rw [hstep]
      exact ⟨⟨rest, (hperm.cons _).trans (List.getElem_cons_eraseIdx_perm hi)⟩, congrArg Nat.succ hcount⟩

/-- The draws of a generator are fair. -/
theorem fair_drawDistinct (g : StdGen) : Draw.Fair fun n k => (drawDistinct g n k).1 := by
  have hdrawn : ∀ n k, k ≤ n →
      (∃ rest, ((drawDistinct g n k).1 ++ rest).Perm (List.range n)) ∧ (drawDistinct g n k).1.length = k := by
    intro n k hle
    exact drawFrom_perm k (List.range n) g (by rwa [List.length_range])
  constructor
  · intro n k hle
    exact (hdrawn n k hle).2
  · intro n k hle
    obtain ⟨⟨rest, hperm⟩, -⟩ := hdrawn n k hle
    exact (hperm.nodup_iff.mpr List.nodup_range).of_append_left
  · intro n k hle i hi
    obtain ⟨⟨rest, hperm⟩, -⟩ := hdrawn n k hle
    exact List.mem_range.mp (hperm.mem_iff.mp (List.mem_append_left rest hi))

/-! ## Picking children -/

variable {draw : Draw} {limits : FanoutLimits} {constraints : List Constraint} {children : List Child}

/-- A child is eligible if it meets every constraint. -/
theorem Child.eligible_eq_true_iff {c : Child} : c.eligible constraints = true ↔ ∀ k ∈ constraints, c.satisfies k = true := by
  rw [Child.eligible, satisfiesAll, List.all_eq_true]

/-- The children to ask stand in distinct places of the list, as many as are eligible up to the limit. -/
theorem FanoutLimits.exists_selected (hdraw : draw.Fair) (limits : FanoutLimits) (constraints : List Constraint)
    (children : List Child) :
    ∃ places : List (Fin children.length), places.Nodup ∧
      places.length = min limits.limit (children.filter (·.eligible constraints)).length ∧
      limits.select draw constraints children = places.map fun i => children[i] := by
  obtain ⟨eligible, heligible, hsorted⟩ :=
    List.sublist_eq_map_getElem (List.filter_sublist : (children.filter (·.eligible constraints)).Sublist children)
  have hnodup : eligible.Nodup := hsorted.imp fun hlt => Fin.ne_of_lt hlt
  have hcount : (children.filter (·.eligible constraints)).length = eligible.length := by
    rw [heligible, List.length_map]
  simp only [select]
  rw [hcount]
  split
  · rename_i hfits
    exact ⟨eligible, hnodup, (Nat.min_eq_right hfits).symm, heligible⟩
  · rename_i hexceeds
    have hle : limits.limit ≤ eligible.length := by omega
    refine ⟨(draw eligible.length limits.limit).filterMap (eligible[·]?), ?_, ?_, ?_⟩
    · -- Distinct numbers are drawn, and no place has two of them.
      apply (hdraw.nodup _ _ hle).filterMap
      intro i j place hi hj
      obtain ⟨hi, rfl⟩ := List.getElem?_eq_some_iff.mp hi
      obtain ⟨hj, hsame⟩ := List.getElem?_eq_some_iff.mp hj
      exact (hnodup.getElem_inj_iff.mp hsame).symm
    · have hall : ∀ i ∈ draw eligible.length limits.limit, (eligible[i]?).isSome = true := by
        intro i hi
        simpa using hdraw.lt _ _ hle i hi
      rw [Nat.min_eq_left hle, List.filterMap_length_eq_length.mpr hall, hdraw.length _ _ hle]
    · rw [heligible, List.map_filterMap]
      simp

/-- A scheduler that draws from a generator picks as a fair draw does. -/
theorem Coordinator.exists_select_eq (c : Coordinator) (constraints : List Constraint) (children : List Child) :
    ∃ draw : Draw, draw.Fair ∧ (c.select constraints children).1 = c.limits.select draw constraints children :=
  ⟨_, fair_drawDistinct c.generator, rfl⟩

/-! ## Passing a request on -/

/-- A request that the hop leaves time for goes to the children that are picked, if there are any. -/
theorem FanoutLimits.dispatch_of_forChild {r sent : PlacementRequest} {now : Int} (h : r.forChild limits.hopLatency now = some sent) :
    limits.dispatch draw r now children =
      if (limits.select draw r.constraints children).isEmpty then .noEligibleChildren
      else
        .dispatched
          { arrivals := (limits.select draw r.constraints children).map (·.arrival sent now), deadline := r.deadline } := by
  rw [dispatch, h]
  cases limits.select draw r.constraints children <;> rfl

/-- Without time left for the hop it goes no further, whoever the children are. -/
theorem FanoutLimits.dispatch_eq_noBudget_iff {r : PlacementRequest} {now : Int} :
    limits.dispatch draw r now children = .noBudget ↔ r.deadline - Int.ofNat limits.hopLatency ≤ now := by
  rw [← PlacementRequest.forChild_eq_none_iff]
  cases h : r.forChild limits.hopLatency now with
  | none => simp [dispatch, h]
  | some sent =>
    rw [dispatch_of_forChild h]
    split <;> simp

/-- What becomes of a request, whatever fair draw a scheduler has. It goes no further exactly if the deadline less a hop has been reached,
whoever the children are. Otherwise there is nobody to ask exactly if no child meets all constraints. Otherwise as many children are asked
as meet them, up to the limit, which is one at least: children in distinct places of the list, each of them one that meets them, each asked
with the shortened deadline, while the deadline of the scheduler stays. All that meet the constraints are picked in order if they fit the
limit. A scheduler that draws from a generator has fair draws. -/
theorem FanoutLimits.dispatch_bounded {draw : Draw} (hdraw : draw.Fair) (fanout hopLatency : Nat) (r : PlacementRequest) (now : Int)
    (children : List Child) :
    let limits := FanoutLimits.ofSettings fanout hopLatency
    let sent : PlacementRequest := { r with deadline := r.deadline - hopLatency }
    let eligible := children.filter fun c => ∀ k ∈ r.constraints, c.satisfies k = true
    (limits.dispatch draw r now children = .noBudget ↔ sent.deadline ≤ now) ∧
      (now < sent.deadline → (limits.dispatch draw r now children = .noEligibleChildren ↔ eligible = [])) ∧
      (now < sent.deadline → eligible ≠ [] → ∃ (d : Dispatch) (places : List (Fin children.length)),
        limits.dispatch draw r now children = .dispatched d ∧ places.Nodup ∧
          places.length = min (max fanout 1) eligible.length ∧
          (∀ i ∈ places, ∀ k ∈ r.constraints, children[i].satisfies k = true) ∧
          d.arrivals = places.map (fun i => children[i].arrival sent now) ∧ d.dispatched = places.length ∧
          d.deadline = r.deadline) ∧
      (eligible.length ≤ max fanout 1 → limits.select draw r.constraints children = eligible) ∧
      ∀ generator, ∃ draw' : Draw, draw'.Fair ∧
        (Coordinator.select { limits, generator } r.constraints children).1 = limits.select draw' r.constraints children := by
  intro limits sent eligible
  have heligible : children.filter (·.eligible r.constraints) = eligible := by
    apply List.filter_congr
    intro c _
    rw [Bool.eq_iff_iff, Child.eligible_eq_true_iff, decide_eq_true_iff]
  obtain ⟨places, hnodup, hcount, hselected⟩ := limits.exists_selected hdraw r.constraints children
  rw [heligible] at hcount
  have hempty : (limits.select draw r.constraints children).isEmpty = true ↔ eligible = [] := by
    have hlimit : 0 < limits.limit := Nat.lt_of_lt_of_le Nat.one_pos (Nat.le_max_right _ _)
    rw [hselected, List.isEmpty_iff, List.map_eq_nil_iff, ← List.length_eq_zero_iff, ← List.length_eq_zero_iff, hcount]
    omega
  have hsent : now < sent.deadline → r.forChild limits.hopLatency now = some sent :=
    fun hdue => PlacementRequest.forChild_eq_some_iff.mpr ⟨hdue, rfl⟩
  refine ⟨?_, fun hdue => ?_, fun hdue hsomebody => ?_, fun hfits => ?_, fun generator => Coordinator.exists_select_eq _ _ _⟩
  · exact dispatch_eq_noBudget_iff
  · rw [dispatch_of_forChild (hsent hdue), ← hempty]
    cases (limits.select draw r.constraints children).isEmpty <;> simp
  · refine ⟨{ arrivals := places.map fun i => children[i].arrival sent now, deadline := r.deadline }, places, ?_, hnodup, hcount, ?_,
      rfl, List.length_map _, rfl⟩
    · rw [dispatch_of_forChild (hsent hdue), if_neg (by rwa [hempty]), hselected, List.map_map]
      rfl
    · intro i hi
      have hmem : children[i] ∈ limits.select draw r.constraints children := by
        rw [hselected]
        exact List.mem_map_of_mem hi
      exact Child.eligible_eq_true_iff.mp (mem_of_mem_select hmem).2
  · rw [select_of_fits (by rwa [heligible]), heligible]

/-- Of four children of one id three meet the constraint, and two of these are asked, in places of their own. -/
theorem FanoutLimits.dispatch_bounded_equal_ids :
    let child (met : Bool) : Child :=
      { id := "c", satisfies := fun _ => met, place := fun _ now => .immediate now (.decided .unschedulable) }
    let children := [child true, child false, child true, child true]
    let draw : Draw := fun n k => (drawDistinct (mkStdGen 7) n k).1
    let r := PlacementRequest.issue "w" { cpu := 1, memoryMb := 256 } [.network "n"] 0 200
    draw.Fair ∧ (0 : Int) < 200 - 10 ∧ ∃ (d : Dispatch) (places : List (Fin children.length)),
      (FanoutLimits.ofSettings 2 10).dispatch draw r 0 children = .dispatched d ∧ places.Nodup ∧ places.length = 2 ∧
        1 ∉ places ∧ d.dispatched = 2 := by
  intro child children draw r
  have hfair : draw.Fair := fair_drawDistinct (mkStdGen 7)
  obtain ⟨-, -, hasked, -⟩ := FanoutLimits.dispatch_bounded hfair 2 10 r 0 children
  obtain ⟨d, places, hd, hnodup, hcount, hmeet, -, hdispatched, -⟩ :=
    hasked (by decide) (by simp [children, child, r, PlacementRequest.issue])
  have htwo : places.length = 2 := hcount
  refine ⟨hfair, by decide, d, places, hd, hnodup, htwo, ?_, hdispatched.trans htwo⟩
  intro hin
  exact Bool.false_ne_true (hmeet 1 hin (.network "n") List.mem_cons_self)

end PlacementTree
