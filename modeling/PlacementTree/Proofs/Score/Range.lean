import PlacementTree.Proofs.Binary64.Denotes
import PlacementTree.Proofs.Overcommit.Adopt
import PlacementTree.Score

/-!
# Scores in doubles are numbers from zero to one, as long as capacities are finite

Ratios are finite and figures are at most `2 ^ 64`, but their product need not be finite. As long as it is, rounding does no harm: the
headroom lies between `-2 ^ 65` and the capacity, its share is a number and cut to the range (`Amounts.Sized.inUnit_freeShare`), and a
mixture of such shares does not pass one although it is rounded four times (`inUnit_mixShares`). A capacity that overflows leaves an
infinite headroom, whose share is no number. `ResourceSnapshot.score_range` says which of the two a host gets.
-/

namespace PlacementTree

open Binary64

/-! ## Shares -/

/-- A number or an infinity is cut to the range from zero to one. -/
theorem inUnit_clampUnit {x : Float} (h : x.isNaN = false) : InUnit (clampUnit x) := by
  unfold clampUnit
  split
  · exact ⟨0, denotes_zero, le_rfl, zero_le_one⟩
  · rename_i hzero
    split
    · exact ⟨1, denotes_one, zero_le_one, le_rfl⟩
    · rename_i hone
      exact inUnit_of_not_lt h hzero hone

/-- What is no number is not cut, as it compares with nothing. -/
theorem clampUnit_of_isNaN {x : Float} (h : x.isNaN = true) : clampUnit x = x := by
  rw [isNaN_iff] at h
  have hzero : ¬ x < 0 := by
    rw [lt_iff_unpack, h]
    exact Bool.false_ne_true
  have hone : ¬ 1 < x := by
    rw [lt_iff_unpack, h]
    exact Bool.false_ne_true
  simp [clampUnit, hzero, hone]

namespace Amounts

variable {a : Amounts Float} {c : ℚ}

/-- What is in use and what is asked for are numbers of 64 bits. -/
structure Sized (a : Amounts Float) : Prop where
  used : ∃ q, Denotes a.used q ∧ 0 ≤ q ∧ q ≤ 2 ^ 64
  asked : ∃ q, Denotes a.asked q ∧ 0 ≤ q ∧ q ≤ 2 ^ 64

/-- A finite capacity leaves a finite headroom. -/
theorem Sized.denotes_headroom (ha : a.Sized) (hcapacity : Denotes a.capacity c) (hc : 0 ≤ c) : ∃ q, Denotes a.headroom q := by
  obtain ⟨u, hused, hu, hu'⟩ := ha.used
  obtain ⟨w, hasked, hw, hw'⟩ := ha.asked
  have hlargest : (2 : ℚ) ^ 65 ≤ largest := two_pow_le_largest (by norm_num)
  have hcle : c ≤ largest := (abs_le.mp hcapacity.abs_le_largest).2
  have hgrid : OnGrid (-2 ^ 64) := OnGrid.neg ⟨1, 64, by norm_num, by norm_num, by norm_num⟩
  obtain ⟨l, hl, hnearest⟩ := denotes_sub hcapacity hused (abs_le.mpr ⟨by linarith, by linarith⟩)
  have hupper : l ≤ c := hnearest.le hcapacity.onGrid (by linarith)
  have hlower : -2 ^ 64 ≤ l := hnearest.ge hgrid (by linarith)
  obtain ⟨h, hh, -⟩ := denotes_sub hl hasked (abs_le.mpr ⟨by linarith, by linarith⟩)
  exact ⟨h, hh⟩

/-- Of a finite capacity the share left is a number from zero to one. -/
theorem Sized.inUnit_freeShare (ha : a.Sized) (hcapacity : Denotes a.capacity c) (hc : 0 ≤ c) : InUnit a.freeShare := by
  obtain ⟨h, hh⟩ := ha.denotes_headroom hcapacity hc
  unfold freeShare
  split
  · rename_i hpos
    rw [lt_iff_of_denotes denotes_zero hcapacity] at hpos
    exact inUnit_clampUnit (isNaN_div_eq hh hcapacity hpos.ne')
  · exact ⟨0, denotes_zero, le_rfl, zero_le_one⟩

/-- An infinite capacity leaves an infinite headroom. -/
theorem Sized.infinite_headroom (ha : a.Sized) (hcapacity : Infinite a.capacity) : Infinite a.headroom := by
  obtain ⟨u, hused, -⟩ := ha.used
  obtain ⟨w, hasked, -⟩ := ha.asked
  exact (hcapacity.sub_denotes hused).sub_denotes hasked

/-- Of an infinite capacity the share left is no number. -/
theorem Sized.isNaN_freeShare (ha : a.Sized) (hcapacity : Infinite a.capacity) : a.freeShare.isNaN = true := by
  have hpos : 0 < a.capacity := by
    rw [lt_iff_unpack, hcapacity]
    rfl
  have hshare := (ha.infinite_headroom hcapacity).isNaN_div hcapacity
  rw [freeShare, if_pos hpos, clampUnit_of_isNaN hshare]
  exact hshare

end Amounts

/-! ## Mixtures -/

section Mixture

variable {t x y : Float}

/-- A share of a part is no more than the part. -/
theorem denotes_part {w : ℚ} (ht : Denotes t w) (hw : 0 ≤ w) (hw' : w ≤ 1) (hx : InUnit x) :
    ∃ q, Denotes (t * x) q ∧ 0 ≤ q ∧ q ≤ w := by
  obtain ⟨p, hp, hzero, hone⟩ := hx
  have hlargest : (2 : ℚ) ^ 0 ≤ largest := two_pow_le_largest (by norm_num)
  have hnonneg : 0 ≤ w * p := mul_nonneg hw hzero
  have hle : w * p ≤ w := mul_le_of_le_one_right hw hone
  obtain ⟨q, hq, hnearest⟩ := denotes_mul ht hp (abs_le.mpr ⟨by linarith, by linarith⟩)
  exact ⟨q, hq, hnearest.nonneg hnonneg, hnearest.le ht.onGrid hle⟩

/-- A mixture of shares is one: of its roundings only that of the second weight can push it up, and by less than is needed to pass one. -/
theorem inUnit_mixShares (ht : InUnit t) (hx : InUnit x) (hy : InUnit y) : InUnit (mixShares t x y) := by
  obtain ⟨w, htransfer, hw, hw'⟩ := ht
  have hlargest : (2 : ℚ) ^ 1 ≤ largest := two_pow_le_largest (by norm_num)
  obtain ⟨w', hrest, hnearest⟩ := denotes_sub denotes_one htransfer (abs_le.mpr ⟨by linarith, by linarith⟩)
  have hupper : w' ≤ 1 - w + 2 ^ (-54 : ℤ) := hnearest.le_add (by linarith) (by linarith)
  obtain ⟨p, hp, hp0, hp1⟩ := denotes_part htransfer hw hw' hx
  obtain ⟨q, hq, hq0, hq1⟩ := denotes_part hrest (hnearest.nonneg (by linarith)) (hnearest.le onGrid_one (by linarith)) hy
  have hsum : p + q ≤ 1 + 2 ^ (-54 : ℤ) := by linarith
  have hsmall : (2 : ℚ) ^ (-54 : ℤ) ≤ 1 := by norm_num
  obtain ⟨r, hr, hnearest⟩ := denotes_add hp hq (abs_le.mpr ⟨by linarith, by linarith⟩)
  exact ⟨r, hr, hnearest.nonneg (by linarith), hnearest.le_one hsum⟩

/-- A mixture with a part that is no number is none. -/
theorem isNaN_mixShares (h : x.isNaN = true ∨ y.isNaN = true) : (mixShares t x y).isNaN = true :=
  isNaN_add (h.imp isNaN_mul_right isNaN_mul_right)

end Mixture

/-! ## Hosts -/

theorem Binary64.Nearest.figure {n : ℕ} {q : ℚ} (h : Nearest n q) (hn : n ≤ 2 ^ 64) : 0 ≤ q ∧ q ≤ 2 ^ 64 :=
  ⟨h.nonneg (Nat.cast_nonneg n), h.le ⟨1, 64, by norm_num, by norm_num, by norm_num⟩ (by exact_mod_cast hn)⟩

/-- A figure of a host as a double. -/
theorem denotes_figure32 (n : UInt32) : ∃ q, Denotes n.toFloat q ∧ 0 ≤ q ∧ q ≤ 2 ^ 64 := by
  obtain ⟨q, hq, hnearest⟩ := denotes_uint32 n
  exact ⟨q, hq, hnearest.figure (by have := n.toNat_lt; omega)⟩

theorem denotes_figure64 (n : UInt64) : ∃ q, Denotes n.toFloat q ∧ 0 ≤ q ∧ q ≤ 2 ^ 64 := by
  obtain ⟨q, hq, hnearest⟩ := denotes_uint64 n
  exact ⟨q, hq, hnearest.figure n.toNat_lt.le⟩

/-- An effective capacity is a number that is not negative, or infinite. -/
def IsCapacity (x : Float) : Prop := (∃ c, Denotes x c ∧ 0 ≤ c) ∨ Infinite x

theorem isCapacity_mul {raw ratio : Float} {q : ℚ} (hraw : Denotes raw q) (hq : 0 ≤ q) (hfinite : ratio.isFinite = true)
    (hone : 1.0 ≤ ratio) : IsCapacity (raw * ratio) := by
  obtain ⟨p, hp⟩ := isFinite_iff.mp hfinite
  have hp1 : 1 ≤ p := (le_iff_of_denotes denotes_one hp).mp hone
  have hp0 : 0 ≤ p := zero_le_one.trans hp1
  rcases mul_finite_or_infinite hraw hp hq hp0 with ⟨c, hc, hnearest⟩ | hinfinite
  · exact .inl ⟨c, hc, hnearest.nonneg (mul_nonneg hq hp0)⟩
  · exact .inr hinfinite

/-- What a host with room gets of a resource of finite capacity. -/
theorem Amounts.Sized.range_of_finite {a : Amounts Float} (ha : a.Sized) (hcapacity : IsCapacity a.capacity)
    (hroom : ¬ a.headroom < 0) (hfinite : a.capacity.isFinite = true) : InUnit a.freeShare ∧ ∃ q, Denotes a.headroom q ∧ 0 ≤ q := by
  rcases hcapacity with ⟨c, hc, hnonneg⟩ | hinfinite
  · obtain ⟨q, hq⟩ := ha.denotes_headroom hc hnonneg
    rw [lt_iff_of_denotes hq denotes_zero, not_lt] at hroom
    exact ⟨ha.inUnit_freeShare hc hnonneg, q, hq, hroom⟩
  · obtain ⟨c, hc⟩ := isFinite_iff.mp hfinite
    rw [Denotes, hinfinite] at hc
    cases hc

/-- What a host gets of a resource whose capacity overflows. -/
theorem Amounts.Sized.range_of_infinite {a : Amounts Float} (ha : a.Sized) (hcapacity : IsCapacity a.capacity)
    (hfinite : ¬ a.capacity.isFinite = true) : a.freeShare.isNaN = true ∧ Infinite a.headroom := by
  rcases hcapacity with ⟨c, hc, -⟩ | hinfinite
  · exact absurd (isFinite_iff.mpr ⟨c, hc⟩) hfinite
  · exact ⟨ha.isNaN_freeShare hinfinite, ha.infinite_headroom hinfinite⟩

/-- A mark from zero to one, as doubles compare. -/
def Binary64.IsShare (x : Binary64) : Prop := 0 ≤ x.toFloat ∧ x.toFloat ≤ 1

theorem Binary64.isShare_ofFloat {x : Float} (h : InUnit x) : (ofFloat x).IsShare := by
  rw [IsShare, toFloat_ofFloat]
  exact inUnit_iff.mp h

namespace ResourceSnapshot

variable {s : ResourceSnapshot} {d : ResourceDemand} {r : OvercommitRatios} {t : TransferRatio} {score : CandidateScore}

/-- Neither effective capacity overflows. -/
def FiniteCapacity (s : ResourceSnapshot) (r : OvercommitRatios) : Prop :=
  (s.effectiveCpu r).isFinite = true ∧ (s.effectiveMemoryMb r).isFinite = true

/-- A host has a score exactly if it lacks neither disk nor cpus nor memory. -/
theorem scoreSnapshot_eq_some_iff :
    scoreSnapshot s d r t = some score ↔
      ¬ s.freeDiskGb < d.diskGb ∧ (¬ (s.cpuAmounts d r).headroom < 0 ∧ ¬ (s.memoryAmounts d r).headroom < 0) ∧
        score =
          { candidateId := s.hostId
            cpuScore := .ofFloat (s.cpuAmounts d r).freeShare
            memoryScore := .ofFloat (s.memoryAmounts d r).freeShare
            combined := .ofFloat (mixShares t.value (s.cpuAmounts d r).freeShare (s.memoryAmounts d r).freeShare)
            freeMemoryMb := .ofFloat (s.memoryAmounts d r).headroom } := by
  unfold scoreSnapshot marks?
  by_cases hdisk : s.freeDiskGb < d.diskGb
  · simp [hdisk]
  · by_cases hroom : (s.cpuAmounts d r).headroom < 0 ∨ (s.memoryAmounts d r).headroom < 0
    · simp only [hdisk, hroom, if_true, if_false, Option.map_none, reduceCtorEq, ← not_or, not_true, false_and, and_false,
        not_false_eq_true]
    · rw [if_neg hdisk, if_neg hroom, ← not_or]
      simp only [hdisk, hroom, Option.map_some, Option.some.injEq, not_false_eq_true, true_and, CandidateScore.ofMarks, eq_comm]

theorem sized_cpuAmounts (s : ResourceSnapshot) (d : ResourceDemand) (r : OvercommitRatios) : (s.cpuAmounts d r).Sized :=
  ⟨denotes_figure32 s.usedCpu, denotes_figure32 d.cpu⟩

theorem sized_memoryAmounts (s : ResourceSnapshot) (d : ResourceDemand) (r : OvercommitRatios) : (s.memoryAmounts d r).Sized :=
  ⟨denotes_figure64 s.usedMemoryMb, denotes_figure64 d.memoryMb⟩

/-- Under accepted ratios both effective capacities are numbers that are not negative, or infinite. -/
theorem isCapacity_of_make {cpu memory : Float} (h : OvercommitRatios.make cpu memory = .ok r) (s : ResourceSnapshot) :
    IsCapacity (s.effectiveCpu r) ∧ IsCapacity (s.effectiveMemoryMb r) := by
  obtain ⟨rfl, ⟨hcpu, hcpuOne⟩, hmemory, hmemoryOne⟩ := (@OvercommitSettings.ratios_eq_ok_iff { cpu, memory } r).mp h
  obtain ⟨_, hrawCpu, hnonnegCpu, -⟩ := denotes_figure32 s.rawCpu
  obtain ⟨_, hrawMemory, hnonnegMemory, -⟩ := denotes_figure64 s.rawMemoryMb
  exact ⟨isCapacity_mul hrawCpu hnonnegCpu hcpu hcpuOne, isCapacity_mul hrawMemory hnonnegMemory hmemory hmemoryOne⟩

/-- Up to `2 ^ 959` a ratio makes no figure overflow. -/
theorem isFinite_mul {raw ratio : Float} {p q : ℚ} (hraw : Denotes raw q) (hfigure : 0 ≤ q ∧ q ≤ 2 ^ 64) (hratio : Denotes ratio p)
    (hp : |p| ≤ 2 ^ 959) : (raw * ratio).isFinite = true := by
  have hproduct : |q * p| ≤ largest :=
    calc |q * p| = q * |p| := by rw [abs_mul, abs_of_nonneg hfigure.1]
      _ ≤ 2 ^ 64 * 2 ^ 959 := mul_le_mul hfigure.2 hp (abs_nonneg p) (by positivity)
      _ = 2 ^ 1023 := (pow_add 2 64 959).symm
      _ ≤ largest := two_pow_le_largest le_rfl
  obtain ⟨c, hc, -⟩ := denotes_mul hraw hratio hproduct
  exact isFinite_iff.mpr ⟨c, hc⟩

/-- So under such ratios no host has a capacity that overflows. -/
theorem finiteCapacity_of_le {p q : ℚ} (hcpu : Denotes r.cpu p) (hp : |p| ≤ 2 ^ 959) (hmemory : Denotes r.memory q)
    (hq : |q| ≤ 2 ^ 959) (s : ResourceSnapshot) : s.FiniteCapacity r := by
  obtain ⟨_, hrawCpu, hfigureCpu⟩ := denotes_figure32 s.rawCpu
  obtain ⟨_, hrawMemory, hfigureMemory⟩ := denotes_figure64 s.rawMemoryMb
  exact ⟨isFinite_mul hrawCpu hfigureCpu hcpu hp, isFinite_mul hrawMemory hfigureMemory hmemory hq⟩

/-- An accepted transfer ratio is a number from zero to one. -/
theorem inUnit_of_make {transfer : Float} (h : TransferRatio.make transfer = .ok t) : InUnit t.value := by
  unfold TransferRatio.make at h
  cases hcheck : checkTransfer transfer with
  | error cause =>
    rw [hcheck] at h
    cases h
  | ok value =>
    obtain ⟨rfl, hrange⟩ := checkTransfer_eq_ok_iff.mp hcheck
    rw [hcheck] at h
    cases h
    exact inUnit_iff.mpr hrange

/-- The mixed mark of a host is a number from zero to one if neither capacity overflows, and no number otherwise. -/
theorem mixShares_range {cpu memory transfer : Float} (hratios : OvercommitRatios.make cpu memory = .ok r)
    (htransfer : TransferRatio.make transfer = .ok t)
    (hroom : ¬ (s.cpuAmounts d r).headroom < 0 ∧ ¬ (s.memoryAmounts d r).headroom < 0) :
    (s.FiniteCapacity r → InUnit (mixShares t.value (s.cpuAmounts d r).freeShare (s.memoryAmounts d r).freeShare)) ∧
      (¬ s.FiniteCapacity r → (mixShares t.value (s.cpuAmounts d r).freeShare (s.memoryAmounts d r).freeShare).isNaN = true) := by
  obtain ⟨hcpu, hmemory⟩ := isCapacity_of_make hratios s
  constructor
  · rintro ⟨hfiniteCpu, hfiniteMemory⟩
    exact inUnit_mixShares (inUnit_of_make htransfer) ((sized_cpuAmounts s d r).range_of_finite hcpu hroom.1 hfiniteCpu).1
      ((sized_memoryAmounts s d r).range_of_finite hmemory hroom.2 hfiniteMemory).1
  · intro hinfinite
    apply isNaN_mixShares
    by_cases hfiniteCpu : (s.effectiveCpu r).isFinite = true
    · exact .inr ((sized_memoryAmounts s d r).range_of_infinite hmemory fun h => hinfinite ⟨hfiniteCpu, h⟩).1
    · exact .inl ((sized_cpuAmounts s d r).range_of_infinite hcpu hfiniteCpu).1

/-- Where scores lie, under accepted ratios. A resource whose effective capacity is finite has a mark from zero to one, and the free memory is
then finite and not negative; with both of them finite so is the mixed mark. A capacity that overflows gives no number as its mark and as
the mixed one, and infinite free memory. Such a host ranks after every host whose capacities are finite, whatever that one is asked for, as
its mark has the sign bit set (`Binary64.ofFloat`). -/
theorem score_range {cpu memory transfer : Float} (hratios : OvercommitRatios.make cpu memory = .ok r)
    (htransfer : TransferRatio.make transfer = .ok t) (h : scoreSnapshot s d r t = some score) :
    (((s.effectiveCpu r).isFinite = true → score.cpuScore.IsShare) ∧
      ((s.effectiveMemoryMb r).isFinite = true →
        score.memoryScore.IsShare ∧ score.freeMemoryMb.toFloat.isFinite = true ∧ 0 ≤ score.freeMemoryMb.toFloat) ∧
      (s.FiniteCapacity r → score.combined.IsShare)) ∧
    (¬ (s.effectiveCpu r).isFinite = true → score.cpuScore = .indefinite) ∧
    (¬ (s.effectiveMemoryMb r).isFinite = true → score.memoryScore = .indefinite ∧ Infinite score.freeMemoryMb.toFloat) ∧
    (¬ s.FiniteCapacity r → score.combined = .indefinite ∧
      ∀ s' d' score', scoreSnapshot s' d' r t = some score' → s'.FiniteCapacity r → score'.rankCompare score = .lt) := by
  obtain ⟨hcpu, hmemory⟩ := isCapacity_of_make hratios s
  obtain ⟨-, hroom, rfl⟩ := scoreSnapshot_eq_some_iff.mp h
  obtain ⟨hshare, hnone⟩ := mixShares_range hratios htransfer hroom
  refine ⟨⟨fun hfinite => ?_, fun hfinite => ?_, fun hfinite => isShare_ofFloat (hshare hfinite)⟩, fun hinfinite => ?_,
    fun hinfinite => ?_, fun hinfinite => ?_⟩
  · exact isShare_ofFloat ((sized_cpuAmounts s d r).range_of_finite hcpu hroom.1 hfinite).1
  · obtain ⟨hunit, q, hq, hnonneg⟩ := (sized_memoryAmounts s d r).range_of_finite hmemory hroom.2 hfinite
    simp only [toFloat_ofFloat]
    exact ⟨isShare_ofFloat hunit, isFinite_iff.mpr ⟨q, hq⟩, (le_iff_of_denotes denotes_zero hq).mpr hnonneg⟩
  · exact ofFloat_of_isNaN ((sized_cpuAmounts s d r).range_of_infinite hcpu hinfinite).1
  · obtain ⟨hnumber, hheadroom⟩ := (sized_memoryAmounts s d r).range_of_infinite hmemory hinfinite
    simp only [toFloat_ofFloat]
    exact ⟨ofFloat_of_isNaN hnumber, hheadroom⟩
  · have hmixed := ofFloat_of_isNaN (hnone hinfinite)
    refine ⟨hmixed, fun s' d' score' h' hfinite' => ?_⟩
    obtain ⟨-, hroom', rfl⟩ := scoreSnapshot_eq_some_iff.mp h'
    obtain ⟨q, hq, -⟩ := (mixShares_range hratios htransfer hroom').1 hfinite'
    have hrank := rank_indefinite_lt hq.isNaN_eq
    simp only [CandidateScore.rankCompare, totalCompare, hmixed, compare_lt_iff_lt.mpr hrank, Ordering.lt_then]

/-- Four cpus promised `2 ^ 1023` times each are too many, while the memory is as it is. -/
theorem score_range_overflowing_cpu :
    ∃ score, scoreSnapshot { hostId := "h", rawCpu := 4, rawMemoryMb := 1024 } { cpu := 1, memoryMb := 256, diskGb := 0 }
        { cpu := Float.ofBits 0x7fe0000000000000, memory := 1.0 } { value := 0.5 } = some score ∧
      score.cpuScore = .indefinite ∧ score.memoryScore.IsShare ∧ score.combined = .indefinite := by
  have hratios : OvercommitRatios.make (Float.ofBits 0x7fe0000000000000) 1.0 =
      .ok { cpu := Float.ofBits 0x7fe0000000000000, memory := 1.0 } := rfl
  have htransfer : TransferRatio.make 0.5 = .ok { value := 0.5 } := rfl
  have hsome : (scoreSnapshot { hostId := "h", rawCpu := 4, rawMemoryMb := 1024 } { cpu := 1, memoryMb := 256, diskGb := 0 }
      { cpu := Float.ofBits 0x7fe0000000000000, memory := 1.0 } { value := 0.5 }).isSome = true := rfl
  obtain ⟨score, hscore⟩ := Option.isSome_iff_exists.mp hsome
  obtain ⟨⟨-, hfinite, -⟩, hoverflow, -, hmixed⟩ := score_range hratios htransfer hscore
  exact ⟨score, hscore, hoverflow (by decide), (hfinite rfl).1, (hmixed fun h => absurd h.1 (by decide)).1⟩

/-- Accepted ratios do not keep marks from zero to one: with four cpus promised `2 ^ 1023` times each the cpu has no number as its mark. -/
theorem accepted_ratios_without_range :
    ¬ ∀ (s : ResourceSnapshot) (d : ResourceDemand) (cpu memory transfer : Float) (r : OvercommitRatios) (t : TransferRatio)
      (score : CandidateScore), OvercommitRatios.make cpu memory = .ok r → TransferRatio.make transfer = .ok t →
        scoreSnapshot s d r t = some score →
        score.cpuScore.IsShare ∧ score.memoryScore.IsShare ∧ score.combined.IsShare ∧
          score.freeMemoryMb.toFloat.isFinite = true ∧ 0 ≤ score.freeMemoryMb.toFloat := by
  intro hall
  have hscore : scoreSnapshot { hostId := "h", rawCpu := 4, rawMemoryMb := 1024 } { cpu := 1, memoryMb := 256, diskGb := 0 }
      { cpu := Float.ofBits 0x7fe0000000000000, memory := 1.0 } { value := 0.5 } =
        some { candidateId := "h", cpuScore := .indefinite, memoryScore := ⟨0x3fe8000000000000⟩, combined := .indefinite,
               freeMemoryMb := ⟨0x4088000000000000⟩ } := by rfl
  have hshare : indefinite.IsShare := (hall _ _ (Float.ofBits 0x7fe0000000000000) 1.0 0.5 _ _ _ rfl rfl hscore).1
  have hnone : ¬ indefinite.toFloat ≤ 1 := by decide
  exact hnone hshare.2

end ResourceSnapshot

end PlacementTree
