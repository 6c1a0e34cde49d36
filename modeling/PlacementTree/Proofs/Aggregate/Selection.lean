import Mathlib.Data.List.Nodup
import PlacementTree.Proofs.Aggregate.Winner

/-!
# The winner does not depend on order or grouping

As long as the answers of a fan-in place the workload on each host at most once (`OncePerHost`), the winner is described by the answers
alone: it is the placement that is no worse than any other (`selectWinner_eq_some_iff`). So the order in which the answers arrive makes no
difference, and neither does it whether they are compared at once or group by group, with the winners of the groups passed up by any nodes
in between (`selectWinner_groups`). Sorting the scores finds the same winner (`head?_mergeSort_eq_winner`).
-/

namespace PlacementTree

/-- Each host is placed on by one answer at most. -/
def OncePerHost (answers : List ChildAnswer) : Prop := ((answers.filterMap (·.response?)).map (·.candidateId)).Nodup

instance (answers : List ChildAnswer) : Decidable (OncePerHost answers) :=
  inferInstanceAs (Decidable ((answers.filterMap (·.response?)).map (·.candidateId)).Nodup)

/-- A response as it is seen above some nodes, the first of them the uppermost. -/
def PlacementResponse.viaAll (r : PlacementResponse) (nodes : List String) : PlacementResponse :=
  nodes.foldr (fun node r => r.via node) r

/-- What a group of answers comes to above some nodes: its winner, or that there is none. -/
def groupAnswer (group : List ChildAnswer) (nodes : List String) : ChildAnswer :=
  match selectWinner group with
  | some response => .decided (.placed (response.viaAll nodes))
  | none => .decided .unschedulable

/-- Passing a response on does not change its score. -/
@[simp]
theorem PlacementResponse.viaAll_score (r : PlacementResponse) (nodes : List String) : (r.viaAll nodes).score = r.score := by
  induction nodes with
  | nil => rfl
  | cons node nodes ih => simpa [viaAll, via] using ih

theorem mem_responses {answers : List ChildAnswer} {r : PlacementResponse} :
    r ∈ answers.filterMap (·.response?) ↔ .decided (.placed r) ∈ answers := by
  simp [List.mem_filterMap, ChildAnswer.response?_eq_some_iff]

/-- There is a winner unless nothing is placed. -/
theorem selectWinner_eq_none_iff {answers : List ChildAnswer} :
    selectWinner answers = none ↔ ∀ r, .decided (.placed r) ∉ answers := by
  rw [selectWinner, bestResponse_eq_none_iff, List.eq_nil_iff_forall_not_mem]
  simp only [mem_responses]

/-- The winner is one of the placements and no worse than any. -/
theorem selectWinner_spec {answers : List ChildAnswer} {best : PlacementResponse} (h : selectWinner answers = some best) :
    .decided (.placed best) ∈ answers ∧ ∀ r, .decided (.placed r) ∈ answers → best.score.noWorse r.score = true := by
  obtain ⟨hmem, hbest⟩ := bestResponse_spec h
  exact ⟨mem_responses.mp hmem, fun r hr => hbest r (mem_responses.mpr hr)⟩

section OncePerHost

variable {answers answers' : List ChildAnswer} (hone : OncePerHost answers)

include hone

/-- Placements on one host are the same. -/
theorem OncePerHost.eq_of_candidateId {a b : PlacementResponse} (ha : .decided (.placed a) ∈ answers)
    (hb : .decided (.placed b) ∈ answers) (h : a.candidateId = b.candidateId) : a = b :=
  List.inj_on_of_nodup_map hone (mem_responses.mpr ha) (mem_responses.mpr hb) h

/-- The winner is the placement that is no worse than any. -/
theorem selectWinner_eq_some_iff {best : PlacementResponse} :
    selectWinner answers = some best ↔
      .decided (.placed best) ∈ answers ∧ ∀ r, .decided (.placed r) ∈ answers → best.score.noWorse r.score = true := by
  refine ⟨selectWinner_spec, ?_⟩
  rintro ⟨hmem, hbest⟩
  cases hwinner : selectWinner answers with
  | none => exact absurd hmem (selectWinner_eq_none_iff.mp hwinner best)
  | some winner =>
    obtain ⟨hin, hleast⟩ := selectWinner_spec hwinner
    have hhost := CandidateScore.candidateId_eq_of_noWorse (hleast best hmem) (hbest winner hin)
    rw [hone.eq_of_candidateId hin hmem hhost]

/-- The order of the answers makes no difference. -/
theorem selectWinner_perm (h : answers'.Perm answers) : selectWinner answers' = selectWinner answers := by
  cases hwinner : selectWinner answers' with
  | none =>
    rw [eq_comm, selectWinner_eq_none_iff]
    intro r hr
    exact selectWinner_eq_none_iff.mp hwinner r (h.mem_iff.mpr hr)
  | some winner =>
    obtain ⟨hin, hbest⟩ := selectWinner_spec hwinner
    rw [eq_comm, selectWinner_eq_some_iff hone]
    exact ⟨h.mem_iff.mp hin, fun r hr => hbest r (h.mem_iff.mpr hr)⟩

/-- Comparing the winners of groups finds the score of the overall winner. -/
theorem selectWinner_groups {groups : List (List ChildAnswer × List String)}
    (h : (groups.map (·.1)).flatten.Perm answers) :
    (selectWinner (groups.map fun g => groupAnswer g.1 g.2)).map (·.score) = (selectWinner answers).map (·.score) := by
  have hmem : ∀ r, .decided (.placed r) ∈ answers ↔ ∃ g ∈ groups, .decided (.placed r) ∈ g.1 := by
    intro r
    rw [← h.mem_iff]
    simp
  -- A group with a placement has a winner, which is no worse.
  have hgroup : ∀ g ∈ groups, ∀ r, .decided (.placed r) ∈ g.1 →
      ∃ w, .decided (.placed w) ∈ groups.map (fun g => groupAnswer g.1 g.2) ∧ w.score.noWorse r.score = true := by
    intro g hg r hr
    cases hw : selectWinner g.1 with
    | none => exact absurd hr (selectWinner_eq_none_iff.mp hw r)
    | some w =>
      refine ⟨w.viaAll g.2, List.mem_map.mpr ⟨g, hg, by simp [groupAnswer, hw]⟩, ?_⟩
      rw [PlacementResponse.viaAll_score]
      exact (selectWinner_spec hw).2 r hr
  cases hwinner : selectWinner (groups.map fun g => groupAnswer g.1 g.2) with
  | none =>
    have hnone : selectWinner answers = none := by
      rw [selectWinner_eq_none_iff]
      intro r hr
      obtain ⟨g, hg, hin⟩ := (hmem r).mp hr
      obtain ⟨w, hw, -⟩ := hgroup g hg r hin
      exact selectWinner_eq_none_iff.mp hwinner w hw
    rw [hnone]
  | some winner =>
    obtain ⟨hin, hbest⟩ := selectWinner_spec hwinner
    obtain ⟨g, hg, hanswer⟩ := List.mem_map.mp hin
    obtain ⟨r, hr, rfl⟩ : ∃ r, selectWinner g.1 = some r ∧ r.viaAll g.2 = winner := by
      cases hw : selectWinner g.1 with
      | none => simp [groupAnswer, hw] at hanswer
      | some r => exact ⟨r, rfl, by simpa [groupAnswer, hw] using hanswer⟩
    have hr' : selectWinner answers = some r := by
      rw [selectWinner_eq_some_iff hone]
      refine ⟨(hmem r).mpr ⟨g, hg, (selectWinner_spec hr).1⟩, ?_⟩
      intro other hother
      obtain ⟨g', hg', hin'⟩ := (hmem other).mp hother
      obtain ⟨w, hw, hle⟩ := hgroup g' hg' other hin'
      have hkept := hbest w hw
      rw [PlacementResponse.viaAll_score] at hkept
      exact CandidateScore.noWorse_trans hkept hle
    rw [hr', Option.map_some, Option.map_some, PlacementResponse.viaAll_score]

/-- The first of the sorted scores is that of the winner. -/
theorem head?_mergeSort_eq_winner :
    (((answers.filterMap (·.response?)).map (·.score)).mergeSort CandidateScore.noWorse).head? =
      (selectWinner answers).map (·.score) := by
  cases hhead : (((answers.filterMap (·.response?)).map (·.score)).mergeSort CandidateScore.noWorse).head? with
  | none =>
    rw [List.head?_eq_none_iff, ← List.length_eq_zero_iff, List.length_mergeSort, List.length_eq_zero_iff,
      List.map_eq_nil_iff, ← bestResponse_eq_none_iff] at hhead
    rw [selectWinner, hhead]
    rfl
  | some score =>
    obtain ⟨hmem, hbest⟩ := CandidateScore.best_of_head?_mergeSort hhead
    obtain ⟨r, hr, rfl⟩ := List.mem_map.mp hmem
    have hwinner : selectWinner answers = some r := by
      rw [selectWinner_eq_some_iff hone]
      refine ⟨mem_responses.mp hr, ?_⟩
      intro other hother
      exact hbest other.score (List.mem_map_of_mem (mem_responses.mpr hother))
    rw [hwinner]
    rfl

/-- Where each host is placed on once at most, the winner depends on the answers alone: not on their order, and in candidate and score not
on how they are grouped either. There is one if anything is placed, and then it is a placement that is no worse than any other and heads
the sorted scores. -/
theorem selectWinner_order_free :
    (∀ answers' : List ChildAnswer, answers'.Perm answers → selectWinner answers' = selectWinner answers) ∧
      ((selectWinner answers).isSome ↔ ∃ r, .decided (.placed r) ∈ answers) ∧
      (∀ best, selectWinner answers = some best →
        .decided (.placed best) ∈ answers ∧ ∀ r, .decided (.placed r) ∈ answers → best.score.rankCompare r.score ≠ .gt) ∧
      (∀ groups : List (List ChildAnswer × List String), (groups.map (·.1)).flatten.Perm answers →
        (selectWinner (groups.map fun g => groupAnswer g.1 g.2)).map (·.score) = (selectWinner answers).map (·.score)) ∧
      (((answers.filterMap (·.response?)).map (·.score)).mergeSort fun a b => a.rankCompare b != .gt).head? =
        (selectWinner answers).map (·.score) := by
  refine ⟨fun _ h => selectWinner_perm hone h, ?_, ?_, fun _ h => selectWinner_groups hone h, head?_mergeSort_eq_winner hone⟩
  · rw [Option.isSome_iff_ne_none, ne_eq, selectWinner_eq_none_iff]
    simp only [not_forall, not_not]
  · intro best hbest
    obtain ⟨hin, hleast⟩ := selectWinner_spec hbest
    refine ⟨hin, ?_⟩
    intro r hr
    simpa [CandidateScore.noWorse] using hleast r hr

end OncePerHost

/-- A positive not-a-number, both zeros, a child that declines and one that dies: the not-a-number wins, backwards too, and through two
groups with nodes in between. -/
theorem selectWinner_order_free_odd_scores :
    let response (id : String) (combined : UInt64) : PlacementResponse :=
      { score := { candidateId := id, cpuScore := ⟨0⟩, memoryScore := ⟨0⟩, combined := ⟨combined⟩, freeMemoryMb := ⟨0⟩ }, path := [id] }
    let nan := response "a" 0x7ff8000000000001
    let minusZero := response "b" 0x8000000000000000
    let plusZero := response "c" 0
    let answers : List ChildAnswer :=
      [.decided (.placed minusZero), .died, .decided (.placed nan), .decided .unschedulable, .decided (.placed plusZero)]
    OncePerHost answers ∧ selectWinner answers = some nan ∧ selectWinner answers.reverse = some nan ∧
      (selectWinner [groupAnswer (answers.take 2) ["s"], groupAnswer (answers.drop 2) ["t", "u"]]).map (·.score) = some nan.score := by
  intro response nan minusZero plusZero answers
  have hone : OncePerHost answers := by decide
  obtain ⟨hperm, -, -, hgroups, -⟩ := selectWinner_order_free hone
  have hwinner : selectWinner answers = some nan := by decide
  refine ⟨hone, hwinner, ?_, ?_⟩
  · rw [hperm _ answers.reverse_perm, hwinner]
  · have hgroup := hgroups [(answers.take 2, ["s"]), (answers.drop 2, ["t", "u"])] (by simp)
    rw [hwinner] at hgroup
    exact hgroup

end PlacementTree
