import PlacementTree.Score

/-!
# The order of scores

`CandidateScore.rankCompare` compares three keys one after another, each in a total order, so it is a total order up to scores that
agree in the keys (`CandidateScore.noWorse_trans`, `CandidateScore.noWorse_total`). Two scores that are no worse than each other have
the same host (`CandidateScore.candidateId_eq_of_noWorse`).

A score is the best of what a property allows when it is no worse than all of it (`CandidateScore.Best`). Where the property has one
score for each host the best one is unique. Of scores sorted in this order the head is the best (`CandidateScore.best_of_head?_mergeSort`).
-/

namespace PlacementTree

namespace CandidateScore

/-- The order of scores is that of three keys, the first two descending. -/
theorem rankCompare_eq_compareLex :
    rankCompare =
      compareLex
        (compareLex (fun a b => compareOn (·.combined.rank) b a) (fun a b => compareOn (·.freeMemoryMb.rank) b a))
        (compareOn (·.candidateId)) := rfl

instance : Std.TransCmp rankCompare := by
  rw [rankCompare_eq_compareLex]
  infer_instance

/-- Comparing the other way round gives the reverse. -/
theorem rankCompare_swap (a b : CandidateScore) : b.rankCompare a = (a.rankCompare b).swap := Std.OrientedCmp.eq_swap

theorem noWorse_iff {a b : CandidateScore} : a.noWorse b = true ↔ (a.rankCompare b).isLE = true := by
  unfold noWorse
  cases a.rankCompare b <;> decide

/-- A score is no worse than itself. -/
theorem noWorse_refl (a : CandidateScore) : a.noWorse a = true := by
  have hself : a.rankCompare a = .eq := Std.ReflCmp.compare_self
  rw [noWorse_iff, hself]
  rfl

theorem noWorse_trans {a b c : CandidateScore} (h : a.noWorse b = true) (h' : b.noWorse c = true) : a.noWorse c = true := by
  rw [noWorse_iff] at h h' ⊢
  exact Std.TransCmp.isLE_trans h h'

theorem noWorse_total (a b : CandidateScore) : a.noWorse b = true ∨ b.noWorse a = true := by
  rw [noWorse_iff, noWorse_iff, rankCompare_swap a b]
  cases a.rankCompare b <;> decide

/-- Scores that are no worse than each other are those of one host. -/
theorem candidateId_eq_of_noWorse {a b : CandidateScore} (h : a.noWorse b = true) (h' : b.noWorse a = true) :
    a.candidateId = b.candidateId := by
  rw [noWorse_iff] at h h'
  rw [rankCompare_swap a b] at h'
  have heq : a.rankCompare b = .eq := by
    cases hab : a.rankCompare b with
    | lt => simp [hab] at h'
    | eq => rfl
    | gt => simp [hab] at h
  rw [rankCompare_eq_compareLex, compareLex_eq_eq] at heq
  exact Std.LawfulEqCmp.eq_of_compare heq.2

/-- The score is allowed and no worse than all that is allowed. -/
def Best (allowed : CandidateScore → Prop) (best : CandidateScore) : Prop :=
  allowed best ∧ ∀ score, allowed score → best.noWorse score = true

/-- Where every host has one score, the best one is unique. -/
theorem Best.unique {allowed : CandidateScore → Prop} {a b : CandidateScore} (ha : Best allowed a) (hb : Best allowed b)
    (hone : ∀ c d, allowed c → allowed d → c.candidateId = d.candidateId → c = d) : a = b :=
  hone a b ha.1 hb.1 (candidateId_eq_of_noWorse (ha.2 b hb.1) (hb.2 a ha.1))

/-- In a sorted list no score is worse than a later one. -/
theorem pairwise_mergeSort (scores : List CandidateScore) :
    (scores.mergeSort noWorse).Pairwise fun a b => a.noWorse b = true := by
  apply List.pairwise_mergeSort
  · intro a b c hab hbc
    exact noWorse_trans hab hbc
  · intro a b
    rw [Bool.or_eq_true]
    exact noWorse_total a b

/-- The head of the sorted list is the best score. -/
theorem best_of_head?_mergeSort {scores : List CandidateScore} {score : CandidateScore}
    (h : (scores.mergeSort noWorse).head? = some score) : Best (· ∈ scores) score := by
  obtain ⟨rest, hsort⟩ := List.head?_eq_some_iff.mp h
  have hsorted := pairwise_mergeSort scores
  rw [hsort, List.pairwise_cons] at hsorted
  have hmem : ∀ other, other ∈ scores ↔ other ∈ score :: rest := by
    intro other
    rw [← hsort, List.mem_mergeSort]
  refine ⟨(hmem score).mpr List.mem_cons_self, ?_⟩
  intro other hother
  rcases List.mem_cons.mp ((hmem other).mp hother) with rfl | hlater
  · exact noWorse_refl other
  · exact hsorted.1 other hlater

end CandidateScore

end PlacementTree
