import PlacementTree.Proofs.Binary64.TotalOrder
import PlacementTree.Proofs.Labels.ByteOrder
import PlacementTree.Proofs.Score.Order

/-!
# What the order of scores says

The first key of two scores that differs decides between them: the mixed score, then the free memory, the larger one first, then the id, the
smaller one first (`CandidateScore.rankCompare_eq_lt_iff`). Keys are compared as bits. Where both are numbers that differ, this is the
order of the numbers; two zeros of different signs are equal numbers and different keys, of which the positive one comes first.
-/

namespace PlacementTree

namespace Binary64

variable {x y : Binary64}

/-- No two patterns have one rank. -/
theorem rank_inj : x.rank = y.rank ↔ x = y := by
  refine ⟨fun h => ?_, congrArg rank⟩
  have hx : x.bits.toNat < 2 ^ 64 := x.bits.toNat_lt
  have hy : y.bits.toNat < 2 ^ 64 := y.bits.toNat_lt
  unfold rank negative magnitude signBit at h
  simp only [Int.ofNat_eq_natCast, decide_eq_true_eq] at h
  apply congrArg mk
  apply UInt64.toNat_inj.mp
  split_ifs at h <;> omega

/-- The two zeros. -/
def zero : Binary64 := ⟨0⟩

def negativeZero : Binary64 := ⟨0x8000000000000000⟩

/-- There are two patterns of a zero. -/
theorem eq_zero_or_negativeZero (h : x.magnitude = 0) : x = zero ∨ x = negativeZero := by
  have hlt : x.bits.toNat < 2 ^ 64 := x.bits.toNat_lt
  unfold magnitude signBit at h
  rcases (by omega : x.bits.toNat = 0 ∨ x.bits.toNat = 0x8000000000000000) with hbits | hbits
  · exact .inl (congrArg mk (UInt64.toNat_inj.mp hbits))
  · exact .inr (congrArg mk (UInt64.toNat_inj.mp hbits))

end Binary64

namespace CandidateScore

variable {a b : CandidateScore}

/-- The first key that differs decides. -/
theorem rankCompare_eq_lt_iff :
    a.rankCompare b = .lt ↔
      b.combined.rank < a.combined.rank ∨ a.combined = b.combined ∧
        (b.freeMemoryMb.rank < a.freeMemoryMb.rank ∨ a.freeMemoryMb = b.freeMemoryMb ∧ a.candidateId < b.candidateId) := by
  have hid : compare a.candidateId b.candidateId = .lt ↔ a.candidateId < b.candidateId := compareOfLessAndEq_eq_lt
  simp only [rankCompare, Binary64.totalCompare, Ordering.then_eq_lt, Ordering.then_eq_eq, compare_lt_iff_lt, compare_eq_iff_eq,
    Binary64.rank_inj, hid]
  rw [@eq_comm _ b.combined, @eq_comm _ b.freeMemoryMb]
  tauto

/-- Only scores of equal keys are equal in the order. -/
theorem rankCompare_eq_eq_iff :
    a.rankCompare b = .eq ↔ a.combined = b.combined ∧ a.freeMemoryMb = b.freeMemoryMb ∧ a.candidateId = b.candidateId := by
  have hid : compare a.candidateId b.candidateId = .eq ↔ a.candidateId = b.candidateId := Std.LawfulEqCmp.compare_eq_iff_eq
  simp only [rankCompare, Binary64.totalCompare, Ordering.then_eq_eq, compare_eq_iff_eq, Binary64.rank_inj, hid, and_assoc]
  rw [@eq_comm _ b.combined, @eq_comm _ b.freeMemoryMb]

/-- The order of scores is a total preorder: comparing the other way round gives the reverse, what holds from a first to a second and from
the second to a third score holds from the first to the third, and scores are equal exactly if their mixed scores and free memories are equal
bit by bit and their ids are equal. It is the order of the numbers: the larger mixed score comes first, of equal ones the larger free
memory, and of those the id whose bytes come first. Mixed scores that are equal numbers are equal, or the two zeros, of which the positive
one comes first. -/
theorem rankCompare_total_preorder :
    (∀ a b : CandidateScore, a.rankCompare b = (b.rankCompare a).swap) ∧
      (∀ a b c : CandidateScore, ∀ order, a.rankCompare b = order → b.rankCompare c = order → a.rankCompare c = order) ∧
      (∀ a b c : CandidateScore, (a.rankCompare b).isLE = true → (b.rankCompare c).isLE = true → (a.rankCompare c).isLE = true) ∧
      (∀ a b : CandidateScore, a.rankCompare b = .eq ↔
        a.combined.bits = b.combined.bits ∧ a.freeMemoryMb.bits = b.freeMemoryMb.bits ∧ a.candidateId = b.candidateId) ∧
      (∀ a b : CandidateScore, b.combined.toFloat < a.combined.toFloat → a.rankCompare b = .lt) ∧
      (∀ a b : CandidateScore, a.combined.bits = b.combined.bits → b.freeMemoryMb.toFloat < a.freeMemoryMb.toFloat →
        a.rankCompare b = .lt) ∧
      (∀ a b : CandidateScore, a.combined.bits = b.combined.bits → a.freeMemoryMb.bits = b.freeMemoryMb.bits →
        nameBytes a.candidateId < nameBytes b.candidateId → a.rankCompare b = .lt) ∧
      ∀ a b : CandidateScore, (a.combined.toFloat == b.combined.toFloat) = true → a.combined.bits ≠ b.combined.bits →
        (a.combined = Binary64.zero ∧ b.combined = Binary64.negativeZero ∧ a.rankCompare b = .lt) ∨
          (a.combined = Binary64.negativeZero ∧ b.combined = Binary64.zero ∧ a.rankCompare b = .gt) := by
  have hbits : ∀ {x y : Binary64}, x.bits = y.bits ↔ x = y := fun {x y} => ⟨congrArg Binary64.mk, congrArg Binary64.bits⟩
  simp only [hbits, Ne]
  have hzeros : ∀ {a b : CandidateScore}, a.combined = Binary64.zero → b.combined = Binary64.negativeZero → a.rankCompare b = .lt := by
    intro a b ha hb
    rw [rankCompare_eq_lt_iff, ha, hb]
    exact .inl (by decide)
  refine ⟨fun a b => rankCompare_swap b a, ?_, fun a b c => Std.TransCmp.isLE_trans, fun a b => rankCompare_eq_eq_iff, ?_, ?_, ?_, ?_⟩
  · intro a b c order hab hbc
    cases order with
    | lt => exact Std.TransCmp.lt_trans hab hbc
    | eq => exact Std.TransCmp.eq_trans hab hbc
    | gt => exact Std.TransCmp.gt_trans hab hbc
  · intro a b hcombined
    exact rankCompare_eq_lt_iff.mpr (.inl (Binary64.rank_lt_of_toFloat_lt hcombined))
  · intro a b hcombined hmemory
    exact rankCompare_eq_lt_iff.mpr (.inr ⟨hcombined, .inl (Binary64.rank_lt_of_toFloat_lt hmemory)⟩)
  · intro a b hcombined hmemory hid
    exact rankCompare_eq_lt_iff.mpr (.inr ⟨hcombined, .inr ⟨hmemory, name_lt_iff_nameBytes_lt.mpr hid⟩⟩)
  · intro a b hequal hdiffer
    obtain ⟨ha, hb⟩ := (Binary64.eq_or_zeros_of_beq hequal).resolve_left hdiffer
    rcases Binary64.eq_zero_or_negativeZero ha with ha | ha <;> rcases Binary64.eq_zero_or_negativeZero hb with hb | hb
    · exact absurd (ha.trans hb.symm) hdiffer
    · exact .inl ⟨ha, hb, hzeros ha hb⟩
    · refine .inr ⟨ha, hb, ?_⟩
      rw [rankCompare_swap b a, hzeros hb ha]
      rfl
    · exact absurd (ha.trans hb.symm) hdiffer

/-- A positive not-a-number, infinity and the least number above zero, in this order; the two zeros; free memory that differs; and ids beyond
the first 65536 code points. -/
theorem rankCompare_total_preorder_odd_keys :
    let score (combined freeMemoryMb : Binary64) (candidateId : String) : CandidateScore :=
      { candidateId, cpuScore := Binary64.zero, memoryScore := Binary64.zero, combined, freeMemoryMb }
    let nan := score ⟨0x7ff8000000000000⟩ Binary64.zero "h"
    let infinite := score ⟨0x7ff0000000000000⟩ Binary64.zero "h"
    let least := score ⟨1⟩ Binary64.zero "h"
    let positive := score Binary64.zero Binary64.zero "h"
    let negative := score Binary64.negativeZero ⟨0x4090000000000000⟩ "h"
    let roomy := score Binary64.zero ⟨0x4090000000000000⟩ "\uffff"
    let later := score Binary64.zero ⟨0x4090000000000000⟩ "😀"
    (nan.rankCompare infinite = .lt ∧ infinite.rankCompare least = .lt ∧ nan.rankCompare least = .lt ∧
        (nan.rankCompare least).isLE = true) ∧
      least.rankCompare positive = .lt ∧
      roomy.rankCompare positive = .lt ∧ roomy.rankCompare later = .lt ∧
      (positive.combined = Binary64.zero ∧ negative.combined = Binary64.negativeZero ∧ positive.rankCompare negative = .lt ∨
        positive.combined = Binary64.negativeZero ∧ negative.combined = Binary64.zero ∧ positive.rankCompare negative = .gt) := by
  intro score nan infinite least positive negative roomy later
  obtain ⟨-, htrans, hle, -, hmixed, hmemory, hid, hzeros⟩ := rankCompare_total_preorder
  have hfirst : nan.rankCompare infinite = .lt := by decide
  have hsecond : infinite.rankCompare least = .lt := by decide
  exact ⟨⟨hfirst, hsecond, htrans nan infinite least .lt hfirst hsecond, hle nan infinite least (by decide) (by decide)⟩,
    hmixed least positive (by decide), hmemory roomy positive rfl (by decide), hid roomy later rfl rfl (by decide +kernel),
    hzeros positive negative (by decide) (by decide)⟩

end CandidateScore

end PlacementTree
