import PlacementTree.Aggregate
import PlacementTree.Proofs.Score.Order

/-!
# The winner of a fan-in

The best of a row of responses is one of them and no worse than any of them. It is kept while the others pass by, so both are
invariants of the fold.
-/

namespace PlacementTree

namespace PlacementResponse

/-- The better of two responses is one of them. -/
theorem better_eq_or (a b : PlacementResponse) : a.better b = a ∨ a.better b = b := by
  unfold better
  split
  · exact Or.inl rfl
  · exact Or.inr rfl

/-- The better of two responses is no worse than either. -/
theorem noWorse_better (a b : PlacementResponse) :
    (a.better b).score.noWorse a.score = true ∧ (a.better b).score.noWorse b.score = true := by
  unfold better
  split
  · exact ⟨CandidateScore.noWorse_refl _, by assumption⟩
  · refine ⟨?_, CandidateScore.noWorse_refl _⟩
    exact (CandidateScore.noWorse_total a.score b.score).resolve_left (by assumption)

/-- What is kept in the end is one of the responses and no worse than any. -/
theorem foldl_better (first : PlacementResponse) (rest : List PlacementResponse) :
    rest.foldl better first ∈ first :: rest ∧
      ∀ r ∈ first :: rest, (rest.foldl better first).score.noWorse r.score = true := by
  induction rest generalizing first with
  | nil => simpa using CandidateScore.noWorse_refl first.score
  | cons next rest ih =>
    obtain ⟨hmem, hbest⟩ := ih (first.better next)
    obtain ⟨hfirst, hnext⟩ := noWorse_better first next
    have hkept := hbest _ List.mem_cons_self
    rw [List.foldl_cons]
    constructor
    · rcases List.mem_cons.mp hmem with heq | hin
      · rw [heq]
        rcases better_eq_or first next with h | h <;> simp [h]
      · exact List.mem_cons_of_mem _ (List.mem_cons_of_mem _ hin)
    · intro r hr
      rcases List.mem_cons.mp hr with rfl | hr
      · exact CandidateScore.noWorse_trans hkept hfirst
      · rcases List.mem_cons.mp hr with rfl | hr
        · exact CandidateScore.noWorse_trans hkept hnext
        · exact hbest r (List.mem_cons_of_mem _ hr)

end PlacementResponse

/-- Only a placement has a response. -/
theorem PlacementDecision.response?_eq_some_iff {decision : PlacementDecision} {resp : PlacementResponse} :
    decision.response? = some resp ↔ decision = .placed resp := by
  cases decision <;> simp [PlacementDecision.response?]

/-- An answer with a response is a placement. -/
theorem ChildAnswer.response?_eq_some_iff {answer : ChildAnswer} {resp : PlacementResponse} :
    answer.response? = some resp ↔ answer = .decided (.placed resp) := by
  cases answer with
  | decided decision => simp [ChildAnswer.response?, PlacementDecision.response?_eq_some_iff]
  | failed => simp [ChildAnswer.response?]
  | died => simp [ChildAnswer.response?]

/-- There is a best response unless there is none. -/
theorem bestResponse_eq_none_iff {responses : List PlacementResponse} : bestResponse responses = none ↔ responses = [] := by
  cases responses <;> simp [bestResponse]

/-- The best response is one of them and no worse than any. -/
theorem bestResponse_spec {responses : List PlacementResponse} {best : PlacementResponse}
    (h : bestResponse responses = some best) :
    best ∈ responses ∧ ∀ r ∈ responses, best.score.noWorse r.score = true := by
  cases responses with
  | nil => cases h
  | cons first rest =>
    obtain rfl := Option.some.inj h
    exact PlacementResponse.foldl_better first rest

/-- The arrivals that count are those in time. -/
theorem Dispatch.mem_collected {d : Dispatch} {a : Arrival} : a ∈ d.collected ↔ a ∈ d.arrivals ∧ d.inTime a = true := by
  rw [collected, List.mem_mergeSort, List.mem_filter]

/-- The winner of a fan-in placed the workload in time. -/
theorem Dispatch.winner_spec {d : Dispatch} {best : PlacementResponse} (h : d.aggregate.winner = some best) :
    (∃ a ∈ d.arrivals, d.inTime a = true ∧ a.answer.response? = some best) ∧
      ∀ a ∈ d.arrivals, d.inTime a = true → ∀ r, a.answer.response? = some r → best.score.noWorse r.score = true := by
  obtain ⟨hmem, hbest⟩ := bestResponse_spec h
  constructor
  · obtain ⟨answer, hanswer, hr⟩ := List.mem_filterMap.mp hmem
    obtain ⟨a, ha, rfl⟩ := List.mem_map.mp hanswer
    obtain ⟨hin, htime⟩ := mem_collected.mp ha
    exact ⟨a, hin, htime, hr⟩
  · intro a hin htime r hr
    apply hbest r
    exact List.mem_filterMap.mpr ⟨_, List.mem_map_of_mem (mem_collected.mpr ⟨hin, htime⟩), hr⟩

/-- Without a winner nobody placed the workload in time. -/
theorem Dispatch.winner_eq_none_iff {d : Dispatch} :
    d.aggregate.winner = none ↔ ∀ a ∈ d.arrivals, d.inTime a = true → a.answer.response? = none := by
  unfold aggregate selectWinner
  rw [bestResponse_eq_none_iff, List.filterMap_eq_nil_iff]
  constructor
  · intro h a hin htime
    exact h a.answer (List.mem_map_of_mem (mem_collected.mpr ⟨hin, htime⟩))
  · rintro h answer hanswer
    obtain ⟨a, ha, rfl⟩ := List.mem_map.mp hanswer
    obtain ⟨hin, htime⟩ := mem_collected.mp ha
    exact h a hin htime

end PlacementTree
