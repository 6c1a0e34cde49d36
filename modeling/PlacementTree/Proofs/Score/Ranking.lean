import Mathlib.Data.List.Nodup
import PlacementTree.Proofs.Score.Order

/-!
# The ranking of hosts

`rankSnapshots` sorts the scores of the hosts that meet the constraints and have room. Its head is the best of them, and it has a
head unless there is none.

The ranking loses no score and adds none, and hosts of different ids never tie, since scores that agree in all else are ordered by the
id. So in a ranking of such hosts every score is better than the next, and the order in which the hosts are listed makes no difference
(`rankSnapshots_complete_order`).
-/

namespace PlacementTree

variable {snapshots : List ResourceSnapshot} {demand : ResourceDemand} {constraints : List Constraint} {ratios : OvercommitRatios}
  {transfer : TransferRatio}

/-- The score is that of a listed host which meets the constraints and has room. -/
def Scored (snapshots : List ResourceSnapshot) (demand : ResourceDemand) (constraints : List Constraint)
    (ratios : OvercommitRatios) (transfer : TransferRatio) (score : CandidateScore) : Prop :=
  ∃ s ∈ snapshots, satisfiesAll s.satisfies constraints = true ∧ scoreSnapshot s demand ratios transfer = some score

/-- The ranking has the scores of the listed hosts and no other. -/
theorem mem_rankSnapshots {score : CandidateScore} :
    score ∈ rankSnapshots snapshots demand constraints ratios transfer ↔
      Scored snapshots demand constraints ratios transfer score := by
  rw [rankSnapshots, List.mem_mergeSort, List.mem_filterMap, Scored]
  constructor
  · rintro ⟨s, hs, hscore⟩
    obtain ⟨hin, hsat⟩ := List.mem_filter.mp hs
    exact ⟨s, hin, hsat, hscore⟩
  · rintro ⟨s, hin, hsat, hscore⟩
    exact ⟨s, List.mem_filter.mpr ⟨hin, hsat⟩, hscore⟩

/-- The head of the ranking is the best score. -/
theorem best_of_head?_rankSnapshots {score : CandidateScore}
    (h : (rankSnapshots snapshots demand constraints ratios transfer).head? = some score) :
    CandidateScore.Best (Scored snapshots demand constraints ratios transfer) score := by
  obtain ⟨hmem, hbest⟩ := CandidateScore.best_of_head?_mergeSort h
  refine ⟨mem_rankSnapshots.mp (List.mem_mergeSort.mpr hmem), ?_⟩
  intro other hother
  exact hbest other (List.mem_mergeSort.mp (mem_rankSnapshots.mpr hother))

/-- The ranking is empty exactly when no host has a score. -/
theorem head?_rankSnapshots_eq_none_iff :
    (rankSnapshots snapshots demand constraints ratios transfer).head? = none ↔
      ∀ score, ¬Scored snapshots demand constraints ratios transfer score := by
  rw [List.head?_eq_none_iff, List.eq_nil_iff_forall_not_mem]
  simp only [mem_rankSnapshots]

/-- The score of a host is that of its id. -/
theorem candidateId_of_scoreSnapshot {s : ResourceSnapshot} {score : CandidateScore}
    (h : scoreSnapshot s demand ratios transfer = some score) : score.candidateId = s.hostId := by
  unfold scoreSnapshot at h
  split at h
  · cases h
  · obtain ⟨m, -, rfl⟩ := Option.map_eq_some_iff.mp h
    rfl

/-! ## The whole ranking -/

/-- The ranking is the scores of the hosts in another order. -/
theorem rankSnapshots_perm_scores :
    (rankSnapshots snapshots demand constraints ratios transfer).Perm
      ((snapshots.filter fun s => satisfiesAll s.satisfies constraints).filterMap fun s => scoreSnapshot s demand ratios transfer) :=
  List.mergeSort_perm _ _

/-- A score is ranked as often as there are hosts that meet the constraints and have it. -/
theorem count_rankSnapshots (score : CandidateScore) :
    (rankSnapshots snapshots demand constraints ratios transfer).count score =
      snapshots.countP fun s =>
        (∀ c ∈ constraints, s.satisfies c = true) ∧ scoreSnapshot s demand ratios transfer = some score := by
  rw [rankSnapshots_perm_scores.count_eq, List.count_filterMap, List.countP_filter]
  apply List.countP_congr
  intro s _
  simp [satisfiesAll, and_comm]

/-- No score is followed by a better one. -/
theorem pairwise_rankSnapshots :
    (rankSnapshots snapshots demand constraints ratios transfer).Pairwise fun a b => a.noWorse b = true :=
  CandidateScore.pairwise_mergeSort _

section DistinctHosts

variable {snapshots' : List ResourceSnapshot} (hdistinct : (snapshots.map (·.hostId)).Nodup)

include hdistinct

/-- Hosts of different ids have different ids in the ranking. -/
theorem nodup_candidateIds : ((rankSnapshots snapshots demand constraints ratios transfer).map (·.candidateId)).Nodup := by
  rw [(rankSnapshots_perm_scores.map _).nodup_iff, List.Nodup, List.pairwise_map]
  rw [List.Nodup, List.pairwise_map] at hdistinct
  apply (hdistinct.filter _).filterMap
  intro s s' hne score hscore score' hscore'
  rwa [candidateId_of_scoreSnapshot hscore, candidateId_of_scoreSnapshot hscore']

/-- So each score is better than those after it. -/
theorem pairwise_rankSnapshots_lt :
    (rankSnapshots snapshots demand constraints ratios transfer).Pairwise fun a b => a.rankCompare b = .lt := by
  have hids : ((rankSnapshots snapshots demand constraints ratios transfer).map (·.candidateId)).Nodup := nodup_candidateIds hdistinct
  rw [List.Nodup, List.pairwise_map] at hids
  apply pairwise_rankSnapshots.imp₂ _ hids
  intro a b hle hne
  cases hab : a.rankCompare b with
  | lt => rfl
  | eq =>
    have hback : b.noWorse a = true := by
      rw [CandidateScore.noWorse_iff, CandidateScore.rankCompare_swap, hab]
      rfl
    exact absurd (CandidateScore.candidateId_eq_of_noWorse hle hback) hne
  | gt => simp [CandidateScore.noWorse, hab] at hle

/-- The order in which hosts are listed makes no difference to their ranking. -/
theorem rankSnapshots_eq_of_perm (hperm : snapshots'.Perm snapshots) :
    rankSnapshots snapshots' demand constraints ratios transfer = rankSnapshots snapshots demand constraints ratios transfer := by
  have hranked : (rankSnapshots snapshots' demand constraints ratios transfer).Perm
      (rankSnapshots snapshots demand constraints ratios transfer) := by
    have hscores := (hperm.filter fun s => satisfiesAll s.satisfies constraints).filterMap fun s => scoreSnapshot s demand ratios transfer
    exact rankSnapshots_perm_scores.trans (hscores.trans rankSnapshots_perm_scores.symm)
  refine List.Perm.eq_of_pairwise ?_ pairwise_rankSnapshots pairwise_rankSnapshots hranked
  intro a b ha hb hab hba
  exact List.inj_on_of_nodup_map (nodup_candidateIds hdistinct) (hranked.mem_iff.mp ha) hb
    (CandidateScore.candidateId_eq_of_noWorse hab hba)

end DistinctHosts

/-- A ranking is sorted, and has each score as often as there are hosts that meet all constraints and have it. If the ids of the hosts
are distinct, every score is better than those after it, and listing the hosts in any other order gives the same ranking. -/
theorem rankSnapshots_complete_order (snapshots : List ResourceSnapshot) (demand : ResourceDemand) (constraints : List Constraint)
    (ratios : OvercommitRatios) (transfer : TransferRatio) :
    let ranked := rankSnapshots snapshots demand constraints ratios transfer
    ranked.Pairwise (fun a b => a.rankCompare b ≠ .gt) ∧
      (∀ score, ranked.count score =
        snapshots.countP fun s =>
          (∀ c ∈ constraints, s.satisfies c = true) ∧ scoreSnapshot s demand ratios transfer = some score) ∧
      ((snapshots.map (·.hostId)).Nodup →
        ranked.Pairwise (fun a b => a.rankCompare b = .lt) ∧
          ∀ snapshots', snapshots'.Perm snapshots → rankSnapshots snapshots' demand constraints ratios transfer = ranked) := by
  intro ranked
  refine ⟨?_, count_rankSnapshots, fun hdistinct => ⟨pairwise_rankSnapshots_lt hdistinct, fun _ hperm => ?_⟩⟩
  · apply pairwise_rankSnapshots.imp
    intro a b hle
    simpa [CandidateScore.noWorse] using hle
  · exact rankSnapshots_eq_of_perm hdistinct hperm

/-- With memory that is promised `2 ^ 1023` times no host has a number as its score, so that only their ids tell them apart. -/
theorem rankSnapshots_complete_order_no_numbers :
    let host (id : String) : ResourceSnapshot := { hostId := id, rawCpu := 4, rawMemoryMb := 1024, hostType := some "ssd" }
    let hosts := [host "b", host "c", { host "d" with hostType := none }, host "a"]
    let demand : ResourceDemand := { cpu := 1, memoryMb := 256 }
    let ratios : OvercommitRatios := { cpu := 1.0, memory := Float.ofBits 0x7fe0000000000000 }
    let rank (hosts : List ResourceSnapshot) := rankSnapshots hosts demand [.hostType "ssd"] ratios { value := 0.5 }
    (hosts.map (·.hostId)).Nodup ∧
      (∀ s ∈ hosts, (scoreSnapshot s demand ratios { value := 0.5 }).map (·.combined) = some .indefinite) ∧
      (rank hosts).Pairwise (fun a b => a.rankCompare b = .lt) ∧ rank hosts.reverse = rank hosts := by
  intro host hosts demand ratios rank
  have hdistinct : (hosts.map (·.hostId)).Nodup := by decide
  obtain ⟨-, -, horder⟩ := rankSnapshots_complete_order hosts demand [.hostType "ssd"] ratios { value := 0.5 }
  obtain ⟨hstrict, hperm⟩ := horder hdistinct
  exact ⟨hdistinct, by decide, hstrict, hperm _ hosts.reverse_perm⟩

end PlacementTree
