import Mathlib.Algebra.Order.Field.Basic
import Mathlib.Algebra.Order.Field.Rat
import Mathlib.Tactic.Linarith
import Mathlib.Tactic.Ring
import PlacementTree.Score

/-!
# Scoring in exact arithmetic

The arithmetic of scores is written for any kind of numbers, so it can be read in the rationals, without rounding
(`ResourceSnapshot.exactMarks?`); doubles are another reading of the same formulas (`scoreSnapshot_eq_marksIn`).

In the rationals a host has room exactly if what is in use and what is asked for fit into each effective capacity. Its shares then lie
between zero and one by themselves (`Amounts.freeShare_eq`), and more room never lowers them (`Amounts.freeShare_mono`): the share left
of a capacity grows with the capacity although it is divided by it. `ResourceSnapshot.exact_scoring` puts this together for hosts.
-/

namespace PlacementTree

/-! ## Resources in the rationals -/

namespace Amounts

variable {a b : Amounts ℚ}

/-- What is in use and what is asked for are amounts, and the resource has room for them. -/
structure Fits (a : Amounts ℚ) : Prop where
  used : 0 ≤ a.used
  asked : 0 ≤ a.asked
  room : 0 ≤ a.headroom

/-- The second resource has no less capacity, and no more of it is in use or asked for. -/
structure Eases (a b : Amounts ℚ) : Prop where
  capacity : a.capacity ≤ b.capacity
  used : b.used ≤ a.used
  asked : b.asked ≤ a.asked

/-- There is room for what fits into the capacity. -/
theorem headroom_nonneg_iff : 0 ≤ a.headroom ↔ a.used + a.asked ≤ a.capacity := by
  unfold headroom
  constructor <;> intro h <;> linarith

/-- What is left is no more than the capacity. -/
theorem Fits.headroom_le (h : a.Fits) : a.headroom ≤ a.capacity := by
  have hused := h.used
  have hasked := h.asked
  unfold headroom
  linarith

/-- A number from zero to one is not cut. -/
theorem clampUnit_eq_self {x : ℚ} (hzero : 0 ≤ x) (hone : x ≤ 1) : clampUnit x = x := by
  simp [clampUnit, not_lt.mpr hzero, not_lt.mpr hone]

/-- The share left is the headroom by the capacity as it is. -/
theorem freeShare_eq (h : a.Fits) : a.freeShare = if 0 < a.capacity then a.headroom / a.capacity else 0 := by
  unfold freeShare
  split
  · rename_i hcapacity
    apply clampUnit_eq_self
    · exact div_nonneg h.room hcapacity.le
    · rw [div_le_one hcapacity]
      exact h.headroom_le
  · rfl

theorem freeShare_nonneg (h : a.Fits) : 0 ≤ a.freeShare := by
  rw [freeShare_eq h]
  split
  · rename_i hcapacity
    exact div_nonneg h.room hcapacity.le
  · exact le_refl 0

theorem freeShare_le_one (h : a.Fits) : a.freeShare ≤ 1 := by
  rw [freeShare_eq h]
  split
  · rename_i hcapacity
    rw [div_le_one hcapacity]
    exact h.headroom_le
  · exact zero_le_one

/-- More capacity, less use and less demand leave no less. -/
theorem Eases.headroom_le (h : a.Eases b) : a.headroom ≤ b.headroom := by
  have hcapacity := h.capacity
  have hused := h.used
  have hasked := h.asked
  unfold headroom
  linarith

/-- More room never lowers the share left. -/
theorem freeShare_mono (ha : a.Fits) (hb : b.Fits) (h : a.Eases b) : a.freeShare ≤ b.freeShare := by
  by_cases hcapacity : 0 < a.capacity
  · have hlarger : 0 < b.capacity := lt_of_lt_of_le hcapacity h.capacity
    rw [freeShare_eq ha, freeShare_eq hb, if_pos hcapacity, if_pos hlarger, div_le_div_iff₀ hcapacity hlarger]
    -- What is taken of the larger capacity is no more, so it is a smaller part of it.
    have htaken : (b.used + b.asked) * a.capacity ≤ (a.used + a.asked) * b.capacity := by
      apply mul_le_mul (add_le_add h.used h.asked) h.capacity hcapacity.le
      exact add_nonneg ha.used ha.asked
    unfold headroom
    linarith
  · rw [freeShare_eq ha, if_neg hcapacity]
    exact freeShare_nonneg hb

end Amounts

section Mixture

variable {t x y x' y' : ℚ} (hzero : 0 ≤ t) (hone : t ≤ 1)

include hzero hone

/-- A mixture lies between its parts. -/
theorem mixShares_between : min x y ≤ mixShares t x y ∧ mixShares t x y ≤ max x y := by
  have hrest : 0 ≤ 1 - t := by linarith
  unfold mixShares
  constructor
  · calc min x y = t * min x y + (1 - t) * min x y := by ring
      _ ≤ t * x + (1 - t) * y :=
        add_le_add (mul_le_mul_of_nonneg_left (min_le_left x y) hzero) (mul_le_mul_of_nonneg_left (min_le_right x y) hrest)
  · calc t * x + (1 - t) * y ≤ t * max x y + (1 - t) * max x y :=
        add_le_add (mul_le_mul_of_nonneg_left (le_max_left x y) hzero) (mul_le_mul_of_nonneg_left (le_max_right x y) hrest)
      _ = max x y := by ring

/-- Larger parts never lower a mixture. -/
theorem mixShares_mono (hx : x ≤ x') (hy : y ≤ y') : mixShares t x y ≤ mixShares t x' y' := by
  have hrest : 0 ≤ 1 - t := by linarith
  exact add_le_add (mul_le_mul_of_nonneg_left hx hzero) (mul_le_mul_of_nonneg_left hy hrest)

end Mixture

/-- A host gets marks exactly if it lacks neither resource, and then those of the formulas. -/
theorem marks?_eq_some_iff {t : ℚ} {cpu memory : Amounts ℚ} {m : Marks ℚ} :
    marks? t cpu memory = some m ↔
      (0 ≤ cpu.headroom ∧ 0 ≤ memory.headroom) ∧
        m = { cpu := cpu.freeShare, memory := memory.freeShare, combined := mixShares t cpu.freeShare memory.freeShare,
              freeMemory := memory.headroom } := by
  unfold marks?
  by_cases h : cpu.headroom < 0 ∨ memory.headroom < 0
  · simp only [h, if_true, reduceCtorEq, false_iff]
    rintro ⟨⟨hcpu, hmemory⟩, -⟩
    rcases h with h | h <;> linarith
  · rw [if_neg h, Option.some.injEq, eq_comm]
    rw [not_or, not_lt, not_lt] at h
    simp only [h, and_self, true_and]

/-! ## Hosts -/

section Reading

variable {α : Type} [OfNat α 0] [OfNat α 1] [Add α] [Sub α] [Mul α] [Div α] [LT α] [DecidableLT α]

/-- The marks of a host for a demand in some kind of numbers, given how the figures are read. -/
def ResourceSnapshot.marksIn (ofUInt32 : UInt32 → α) (ofUInt64 : UInt64 → α) (s : ResourceSnapshot) (d : ResourceDemand)
    (cpuRatio memoryRatio transfer : α) : Option (Marks α) :=
  if s.freeDiskGb < d.diskGb then none
  else
    marks? transfer
      { capacity := ofUInt32 s.rawCpu * cpuRatio, used := ofUInt32 s.usedCpu, asked := ofUInt32 d.cpu }
      { capacity := ofUInt64 s.rawMemoryMb * memoryRatio, used := ofUInt64 s.usedMemoryMb, asked := ofUInt64 d.memoryMb }

end Reading

/-- A score is made of the marks in doubles. -/
theorem scoreSnapshot_eq_marksIn (s : ResourceSnapshot) (d : ResourceDemand) (r : OvercommitRatios) (t : TransferRatio) :
    scoreSnapshot s d r t =
      (s.marksIn UInt32.toFloat UInt64.toFloat d r.cpu r.memory t.value).map (CandidateScore.ofMarks s.hostId) := by
  unfold scoreSnapshot ResourceSnapshot.marksIn
  split <;> rfl

namespace ResourceSnapshot

/-- The marks of a host in exact arithmetic. -/
def exactMarks? (s : ResourceSnapshot) (d : ResourceDemand) (cpuRatio memoryRatio transfer : ℚ) : Option (Marks ℚ) :=
  s.marksIn (fun n => (n.toNat : ℚ)) (fun n => (n.toNat : ℚ)) d cpuRatio memoryRatio transfer

/-- The cpus of a host in exact arithmetic. -/
def exactCpu (s : ResourceSnapshot) (d : ResourceDemand) (ratio : ℚ) : Amounts ℚ :=
  { capacity := s.rawCpu.toNat * ratio, used := s.usedCpu.toNat, asked := d.cpu.toNat }

/-- The memory of a host in exact arithmetic. -/
def exactMemory (s : ResourceSnapshot) (d : ResourceDemand) (ratio : ℚ) : Amounts ℚ :=
  { capacity := s.rawMemoryMb.toNat * ratio, used := s.usedMemoryMb.toNat, asked := d.memoryMb.toNat }

/-- The same capacities, with no more of anything in use. -/
structure Relieved (s s' : ResourceSnapshot) : Prop where
  rawCpu : s'.rawCpu = s.rawCpu
  rawMemoryMb : s'.rawMemoryMb = s.rawMemoryMb
  freeDiskGb : s.freeDiskGb ≤ s'.freeDiskGb
  usedCpu : s'.usedCpu ≤ s.usedCpu
  usedMemoryMb : s'.usedMemoryMb ≤ s.usedMemoryMb

end ResourceSnapshot

/-- A demand for no more of anything. -/
structure ResourceDemand.Reduced (d d' : ResourceDemand) : Prop where
  cpu : d'.cpu ≤ d.cpu
  memoryMb : d'.memoryMb ≤ d.memoryMb
  diskGb : d'.diskGb ≤ d.diskGb

namespace ResourceSnapshot

variable {s s' : ResourceSnapshot} {d d' : ResourceDemand} {ratio ratio' cpuRatio memoryRatio transfer : ℚ} {m : Marks ℚ}

theorem exactCpu_fits (h : 0 ≤ (s.exactCpu d ratio).headroom) : (s.exactCpu d ratio).Fits :=
  ⟨Nat.cast_nonneg _, Nat.cast_nonneg _, h⟩

theorem exactMemory_fits (h : 0 ≤ (s.exactMemory d ratio).headroom) : (s.exactMemory d ratio).Fits :=
  ⟨Nat.cast_nonneg _, Nat.cast_nonneg _, h⟩

/-- Relief makes room for the cpus. -/
theorem exactCpu_eases (hs : s.Relieved s') (hd : d.Reduced d') (h : ratio ≤ ratio') :
    (s.exactCpu d ratio).Eases (s'.exactCpu d' ratio') where
  capacity := by
    unfold exactCpu
    rw [hs.rawCpu]
    exact mul_le_mul_of_nonneg_left h (Nat.cast_nonneg _)
  used := Nat.cast_le.mpr (UInt32.le_iff_toNat_le.mp hs.usedCpu)
  asked := Nat.cast_le.mpr (UInt32.le_iff_toNat_le.mp hd.cpu)

/-- Relief makes room in memory. -/
theorem exactMemory_eases (hs : s.Relieved s') (hd : d.Reduced d') (h : ratio ≤ ratio') :
    (s.exactMemory d ratio).Eases (s'.exactMemory d' ratio') where
  capacity := by
    unfold exactMemory
    rw [hs.rawMemoryMb]
    exact mul_le_mul_of_nonneg_left h (Nat.cast_nonneg _)
  used := Nat.cast_le.mpr (UInt64.le_iff_toNat_le.mp hs.usedMemoryMb)
  asked := Nat.cast_le.mpr (UInt64.le_iff_toNat_le.mp hd.memoryMb)

/-- A host gets marks exactly if it has the disk, the cpus and the memory. -/
theorem exactMarks?_eq_some_iff :
    s.exactMarks? d cpuRatio memoryRatio transfer = some m ↔
      d.diskGb ≤ s.freeDiskGb ∧ (0 ≤ (s.exactCpu d cpuRatio).headroom ∧ 0 ≤ (s.exactMemory d memoryRatio).headroom) ∧
        m = { cpu := (s.exactCpu d cpuRatio).freeShare
              memory := (s.exactMemory d memoryRatio).freeShare
              combined := mixShares transfer (s.exactCpu d cpuRatio).freeShare (s.exactMemory d memoryRatio).freeShare
              freeMemory := (s.exactMemory d memoryRatio).headroom } := by
  rw [← UInt64.not_lt, exactMarks?, marksIn]
  by_cases h : s.freeDiskGb < d.diskGb
  · simp [h]
  · rw [if_neg h, marks?_eq_some_iff]
    simp only [h, not_false_eq_true, true_and]
    rfl

/-- Scoring in exact arithmetic, whose formulas those of scores are. Whatever the ratios, a host has a score exactly if the demand fits:
into the free disk, and with what is in use into both effective capacities. Then its shares are what is left by the capacity, from zero to
one without being cut, the combined mark lies between them, and the free memory is what is left of it. Raising ratios, lowering what is in
use and lowering what is asked for keep a score and lower nothing of it. -/
theorem exact_scoring (s : ResourceSnapshot) (d : ResourceDemand) (cpuRatio memoryRatio : ℚ) {transfer : ℚ} (hzero : 0 ≤ transfer)
    (hone : transfer ≤ 1) :
    (∀ r t, scoreSnapshot s d r t =
      (s.marksIn UInt32.toFloat UInt64.toFloat d r.cpu r.memory t.value).map (CandidateScore.ofMarks s.hostId)) ∧
    ((s.exactMarks? d cpuRatio memoryRatio transfer).isSome ↔
      d.diskGb ≤ s.freeDiskGb ∧ (s.usedCpu.toNat + d.cpu.toNat : ℚ) ≤ s.rawCpu.toNat * cpuRatio ∧
        (s.usedMemoryMb.toNat + d.memoryMb.toNat : ℚ) ≤ s.rawMemoryMb.toNat * memoryRatio) ∧
    ∀ m, s.exactMarks? d cpuRatio memoryRatio transfer = some m →
      ((0 ≤ m.cpu ∧ m.cpu ≤ 1) ∧
        m.cpu = if 0 < s.rawCpu.toNat * cpuRatio then
          (s.rawCpu.toNat * cpuRatio - s.usedCpu.toNat - d.cpu.toNat) / (s.rawCpu.toNat * cpuRatio) else 0) ∧
      ((0 ≤ m.memory ∧ m.memory ≤ 1) ∧
        m.memory = if 0 < s.rawMemoryMb.toNat * memoryRatio then
          (s.rawMemoryMb.toNat * memoryRatio - s.usedMemoryMb.toNat - d.memoryMb.toNat) / (s.rawMemoryMb.toNat * memoryRatio)
        else 0) ∧
      (min m.cpu m.memory ≤ m.combined ∧ m.combined ≤ max m.cpu m.memory) ∧
      m.freeMemory = s.rawMemoryMb.toNat * memoryRatio - s.usedMemoryMb.toNat - d.memoryMb.toNat ∧
      ∀ s' d' cpuRatio' memoryRatio', s.Relieved s' → d.Reduced d' → cpuRatio ≤ cpuRatio' → memoryRatio ≤ memoryRatio' →
        ∃ m', s'.exactMarks? d' cpuRatio' memoryRatio' transfer = some m' ∧ m.cpu ≤ m'.cpu ∧ m.memory ≤ m'.memory ∧
          m.combined ≤ m'.combined ∧ m.freeMemory ≤ m'.freeMemory := by
  refine ⟨fun r t => scoreSnapshot_eq_marksIn s d r t, ?_, ?_⟩
  · rw [Option.isSome_iff_exists]
    simp only [exactMarks?_eq_some_iff, exists_and_left, exists_eq, and_true, Amounts.headroom_nonneg_iff]
    rfl
  · intro m h
    obtain ⟨hdisk, ⟨hcpu, hmemory⟩, rfl⟩ := exactMarks?_eq_some_iff.mp h
    have hcpuFits := exactCpu_fits hcpu
    have hmemoryFits := exactMemory_fits hmemory
    refine ⟨⟨⟨Amounts.freeShare_nonneg hcpuFits, Amounts.freeShare_le_one hcpuFits⟩, Amounts.freeShare_eq hcpuFits⟩,
      ⟨⟨Amounts.freeShare_nonneg hmemoryFits, Amounts.freeShare_le_one hmemoryFits⟩, Amounts.freeShare_eq hmemoryFits⟩,
      mixShares_between hzero hone, rfl, ?_⟩
    intro s' d' cpuRatio' memoryRatio' hs hd hcpuRatio hmemoryRatio
    have hcpuEases := exactCpu_eases hs hd hcpuRatio
    have hmemoryEases := exactMemory_eases hs hd hmemoryRatio
    have hcpu' := le_trans hcpu hcpuEases.headroom_le
    have hmemory' := le_trans hmemory hmemoryEases.headroom_le
    have hdisk' : d'.diskGb ≤ s'.freeDiskGb := UInt64.le_trans (UInt64.le_trans hd.diskGb hdisk) hs.freeDiskGb
    have hcpuShare := Amounts.freeShare_mono hcpuFits (exactCpu_fits hcpu') hcpuEases
    have hmemoryShare := Amounts.freeShare_mono hmemoryFits (exactMemory_fits hmemory') hmemoryEases
    refine ⟨_, exactMarks?_eq_some_iff.mpr ⟨hdisk', ⟨hcpu', hmemory'⟩, rfl⟩, hcpuShare, hmemoryShare, ?_, ?_⟩
    · exact mixShares_mono hzero hone hcpuShare hmemoryShare
    · exact hmemoryEases.headroom_le

/-- Half of this host is in use: the demand leaves 10 of 16 cpus and 10240 of 16384 MiB, and a demand for fewer cpus leaves more. -/
theorem exact_scoring_half_used :
    let s : ResourceSnapshot := { hostId := "h", rawCpu := 8, rawMemoryMb := 16384, usedCpu := 2, usedMemoryMb := 4096, freeDiskGb := 100 }
    let d : ResourceDemand := { cpu := 4, memoryMb := 2048, diskGb := 20 }
    (0 : ℚ) ≤ 1 / 4 ∧ (1 / 4 : ℚ) ≤ 1 ∧
      ∃ m, s.exactMarks? d 2 1 (1 / 4) = some m ∧ m.cpu = 5 / 8 ∧ m.memory = 5 / 8 ∧ m.freeMemory = 10240 ∧
        ∃ m', s.exactMarks? { d with cpu := 2 } 2 1 (1 / 4) = some m' ∧ m.combined ≤ m'.combined := by
  intro s d
  have hzero : (0 : ℚ) ≤ 1 / 4 := by norm_num
  have hone : (1 / 4 : ℚ) ≤ 1 := by norm_num
  obtain ⟨-, hfits, hmarks⟩ := exact_scoring s d 2 1 hzero hone
  have hsome : (s.exactMarks? d 2 1 (1 / 4)).isSome := by
    rw [hfits]
    refine ⟨by decide, ?_, ?_⟩ <;> simp only [s, d, UInt32.reduceToNat, UInt64.reduceToNat] <;> norm_num
  obtain ⟨m, hm⟩ := Option.isSome_iff_exists.mp hsome
  obtain ⟨⟨-, hcpu⟩, ⟨-, hmemory⟩, -, hfree, heases⟩ := hmarks m hm
  have hrelieved : s.Relieved s := ⟨rfl, rfl, UInt64.le_refl _, UInt32.le_refl _, UInt64.le_refl _⟩
  have hreduced : d.Reduced { d with cpu := 2 } := ⟨by decide, UInt64.le_refl _, UInt64.le_refl _⟩
  obtain ⟨m', hm', -, -, hcombined, -⟩ := heases s { d with cpu := 2 } 2 1 hrelieved hreduced (le_refl 2) (le_refl 1)
  refine ⟨hzero, hone, m, hm, ?_, ?_, ?_, m', hm', hcombined⟩
  · simp only [hcpu, s, d, UInt32.reduceToNat]
    norm_num
  · simp only [hmemory, s, d, UInt64.reduceToNat]
    norm_num
  · simp only [hfree, s, d, UInt64.reduceToNat]
    norm_num

end ResourceSnapshot

end PlacementTree
