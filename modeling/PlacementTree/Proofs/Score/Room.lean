import PlacementTree.Proofs.Score.Range

/-!
# Room on hosts that promise no more than they have

Without overcommit the effective capacity of a host is its raw one, so whether it has room is a matter of whole numbers
(`ResourceSnapshot.HasRoom`). It is decided in doubles. A figure of up to 53 binary places is a double, and larger ones are if they are
multiples of a power of two that is large enough; on such figures the subtractions are exact and so is the decision
(`Amounts.Figures.room_iff`). Other figures are rounded, as is what is left of the capacity after what is in use, and each rounding moves
a number by at most half of its last place (`Amounts.Figures.le_of_room`, `Amounts.Figures.room_of_le`).

So cpus are never promised twice, and memory never by more than the rounding of its figures
(`ResourceSnapshot.room_without_overcommit`): up to `2 ^ 53` MiB there is none.
-/

namespace PlacementTree

open Binary64

/-! ## Figures -/

/-- The double nearest to a whole number of 64 bits, for which 53 places from `2 ^ k` up are enough. -/
structure Figure (x : Float) (k n : ℕ) : Prop where
  nearest : ∃ q, Denotes x q ∧ Nearest n q
  places : n ≤ 2 ^ (53 + k)
  bits : n ≤ 2 ^ 64

/-- A multiple of a place that needs no more than 53 places above it is on the grid. -/
theorem onGrid_of_dvd {k : ℕ} {z : ℤ} (hdvd : (2 : ℤ) ^ k ∣ z) (hle : |z| ≤ 2 ^ (53 + k)) : OnGrid z := by
  obtain ⟨m, rfl⟩ := hdvd
  have hm : |m| ≤ 2 ^ 53 := by
    rw [abs_mul, abs_of_pos (by positivity), pow_add, mul_comm] at hle
    exact le_of_mul_le_mul_right hle (by positivity)
  have hgrid := onGrid_of_le hm (e := k) (by omega)
  rw [zpow_natCast, mul_comm] at hgrid
  exact_mod_cast hgrid

namespace Figure

variable {x : Float} {k n : ℕ}

/-- What a figure is as a double: within half of the place `2 ^ k` of the figure, and the figure itself if that is a multiple of the
place. -/
theorem exists_denotes (h : Figure x k n) :
    ∃ q, Denotes x q ∧ OnGrid q ∧ (0 ≤ q ∧ q ≤ 2 ^ (53 + k) ∧ q ≤ 2 ^ 64) ∧ |q - n| ≤ 2 ^ k / 2 ∧
      (2 ^ k ∣ n → q = n) := by
  obtain ⟨⟨q, hq, hnearest⟩, hplaces, hbits⟩ := h
  obtain ⟨hnonneg, hsmall⟩ := hnearest.figure hbits
  have hpower : OnGrid (2 ^ (53 + k)) := ⟨1, (53 + k : ℕ), by norm_num, by omega, by simp only [zpow_natCast, Int.cast_one, one_mul]⟩
  refine ⟨q, hq, hnearest.onGrid, ⟨hnonneg, hnearest.le hpower (by exact_mod_cast hplaces), hsmall⟩, ?_, ?_⟩
  · have hmoved := hnearest.abs_sub_le (e := k) (by
      rw [abs_of_nonneg (Nat.cast_nonneg n), ← Nat.cast_ofNat (n := 53), ← Nat.cast_add, zpow_natCast]
      exact_mod_cast hplaces) (by omega)
    rwa [zpow_natCast] at hmoved
  · intro hdvd
    apply hnearest.eq_of_onGrid
    exact_mod_cast onGrid_of_dvd (z := n) (by exact_mod_cast hdvd) (by rw [Nat.abs_cast]; exact_mod_cast hplaces)

theorem ofUInt32 (n : UInt32) : Figure n.toFloat 0 n.toNat := by
  have := n.toNat_lt
  exact ⟨denotes_uint32 n, by omega, by omega⟩

theorem ofUInt64 {n : UInt64} (hplaces : n.toNat ≤ 2 ^ (53 + k)) : Figure n.toFloat k n.toNat :=
  ⟨denotes_uint64 n, hplaces, n.toNat_lt.le⟩

/-- One times a figure is the figure. -/
theorem times_one (h : Figure x k n) : Figure (x * 1.0) k n := by
  obtain ⟨⟨q, hq, hnearest⟩, hplaces, hbits⟩ := h
  obtain ⟨p, hp, hproduct⟩ := denotes_mul hq denotes_one (by rw [mul_one]; exact hq.abs_le_largest)
  rw [mul_one] at hproduct
  obtain rfl := hproduct.eq_of_onGrid hq.onGrid
  exact ⟨⟨p, hp, hnearest⟩, hplaces, hbits⟩

end Figure

/-! ## Resources -/

namespace Amounts

variable {a : Amounts Float} {c u w : ℚ}

/-- What is left of a capacity after what is in use is rounded once, and there is room if that is no less than what is asked for. -/
theorem exists_left (hcapacity : Denotes a.capacity c) (hused : Denotes a.used u) (hasked : Denotes a.asked w)
    (hc : 0 ≤ c) (hu : 0 ≤ u ∧ u ≤ 2 ^ 64) (hw : 0 ≤ w ∧ w ≤ 2 ^ 64) :
    ∃ l, Nearest (c - u) l ∧ (¬ a.headroom < 0 ↔ w ≤ l) := by
  have hlargest : (2 : ℚ) ^ 65 ≤ largest := two_pow_le_largest (by norm_num)
  have hcle : c ≤ largest := (abs_le.mp hcapacity.abs_le_largest).2
  have hgrid : OnGrid (-2 ^ 64) := OnGrid.neg ⟨1, 64, by norm_num, by norm_num, by norm_num⟩
  obtain ⟨l, hl, hleft⟩ := denotes_sub hcapacity hused (abs_le.mpr ⟨by linarith, by linarith⟩)
  have hupper : l ≤ c := hleft.le hcapacity.onGrid (by linarith)
  have hlower : -2 ^ 64 ≤ l := hleft.ge hgrid (by linarith)
  obtain ⟨h, hh, hheadroom⟩ := denotes_sub hl hasked (abs_le.mpr ⟨by linarith, by linarith⟩)
  have hnegative : a.headroom < 0 ↔ h < 0 := lt_iff_of_denotes hh denotes_zero
  exact ⟨l, hleft, by rw [hnegative, hheadroom.neg_iff_of_sub hl.onGrid hasked.onGrid, not_lt]⟩

/-- The amounts are whole numbers as doubles, for each of which 53 places from `2 ^ k` up are enough. -/
structure Figures (a : Amounts Float) (k capacity used asked : ℕ) : Prop where
  capacity : Figure a.capacity k capacity
  used : Figure a.used k used
  asked : Figure a.asked k asked

section Figures

variable {k capacity used asked : ℕ} (h : a.Figures k capacity used asked)

include h

/-- Figures that are multiples of a place with at most 53 places above it are treated exactly. -/
theorem Figures.room_iff (hcapacity : 2 ^ k ∣ capacity) (hused : 2 ^ k ∣ used) (hasked : 2 ^ k ∣ asked) :
    ¬ a.headroom < 0 ↔ used + asked ≤ capacity := by
  obtain ⟨c, hc, -, ⟨hc0, hc53, -⟩, -, hcexact⟩ := h.capacity.exists_denotes
  obtain ⟨u, hu, -, ⟨hu0, hu53, hu64⟩, -, huexact⟩ := h.used.exists_denotes
  obtain ⟨w, hw, -, ⟨hw0, -, hw64⟩, -, hwexact⟩ := h.asked.exists_denotes
  obtain ⟨l, hleft, hroom⟩ := exists_left hc hu hw hc0 ⟨hu0, hu64⟩ ⟨hw0, hw64⟩
  have hle : |(capacity : ℚ) - used| ≤ 2 ^ (53 + k) := by
    rw [← hcexact hcapacity, ← huexact hused, abs_le]
    constructor <;> linarith
  have hgrid : OnGrid ((capacity : ℚ) - used) := by
    have hdvd : (2 : ℤ) ^ k ∣ (capacity - used : ℤ) := dvd_sub (by exact_mod_cast hcapacity) (by exact_mod_cast hused)
    exact_mod_cast onGrid_of_dvd hdvd (by exact_mod_cast hle)
  rw [hcexact hcapacity, huexact hused] at hleft
  rw [hroom, hwexact hasked, hleft.eq_of_onGrid hgrid, le_sub_iff_add_le', ← Nat.cast_add, Nat.cast_le]

/-- What is left of the capacity after what is in use is off by no more than the roundings of both figures and its own. -/
theorem Figures.exists_left_near :
    ∃ w l : ℚ, |w - asked| ≤ 2 ^ k / 2 ∧ |l - (capacity - used)| ≤ 3 * (2 ^ k / 2) ∧ (¬ a.headroom < 0 ↔ w ≤ l) := by
  obtain ⟨c, hc, -, ⟨hc0, hc53, -⟩, hcnear, -⟩ := h.capacity.exists_denotes
  obtain ⟨u, hu, -, ⟨hu0, hu53, hu64⟩, hunear, -⟩ := h.used.exists_denotes
  obtain ⟨w, hw, -, ⟨hw0, -, hw64⟩, hwnear, -⟩ := h.asked.exists_denotes
  obtain ⟨l, hleft, hroom⟩ := exists_left hc hu hw hc0 ⟨hu0, hu64⟩ ⟨hw0, hw64⟩
  have hle : |c - u| ≤ 2 ^ ((53 : ℤ) + k) := by
    rw [← Nat.cast_ofNat (n := 53), ← Nat.cast_add, zpow_natCast, abs_le]
    constructor <;> linarith
  have hmoved := hleft.abs_sub_le hle (by omega)
  rw [zpow_natCast] at hmoved
  refine ⟨w, l, hwnear, ?_, hroom⟩
  rw [abs_le] at hcnear hunear hmoved ⊢
  constructor <;> linarith

/-- What is admitted passes the capacity by no more than the roundings. -/
theorem Figures.le_of_room (hroom : ¬ a.headroom < 0) : used + asked ≤ capacity + 2 ^ (k + 1) := by
  obtain ⟨w, l, hw, hl, hiff⟩ := h.exists_left_near
  have hle := hiff.mp hroom
  rw [abs_le] at hw hl
  have hsum : (used + asked : ℚ) ≤ capacity + 2 ^ (k + 1) := by
    rw [pow_succ]
    linarith
  exact_mod_cast hsum

/-- What is below the capacity by the roundings is admitted. -/
theorem Figures.room_of_le (hle : used + asked + 2 ^ (k + 1) ≤ capacity) : ¬ a.headroom < 0 := by
  obtain ⟨w, l, hw, hl, hiff⟩ := h.exists_left_near
  rw [hiff]
  rw [abs_le] at hw hl
  have hsum : (used + asked + 2 ^ (k + 1) : ℚ) ≤ capacity := by exact_mod_cast hle
  rw [pow_succ] at hsum
  linarith

end Figures

end Amounts

/-! ## Hosts -/

namespace ResourceSnapshot

variable {s : ResourceSnapshot} {d : ResourceDemand} {r : OvercommitRatios} {t : TransferRatio} {k : ℕ} {slack : ℤ}

/-- Free disk, cpus and memory of a host, as whole numbers, take a demand. Of memory it may be more or less by a slack, in MiB. -/
structure HasRoom (s : ResourceSnapshot) (d : ResourceDemand) (slack : ℤ) : Prop where
  disk : d.diskGb.toNat ≤ s.freeDiskGb.toNat
  cpu : s.usedCpu.toNat + d.cpu.toNat ≤ s.rawCpu.toNat
  memory : (s.usedMemoryMb.toNat + d.memoryMb.toNat : ℤ) ≤ s.rawMemoryMb.toNat + slack

/-- A host has a score exactly if it lacks nothing. -/
theorem isSome_scoreSnapshot_iff :
    (scoreSnapshot s d r t).isSome = true ↔
      d.diskGb.toNat ≤ s.freeDiskGb.toNat ∧ ¬ (s.cpuAmounts d r).headroom < 0 ∧ ¬ (s.memoryAmounts d r).headroom < 0 := by
  rw [Option.isSome_iff_exists]
  simp only [scoreSnapshot_eq_some_iff, exists_and_left, exists_eq, and_true, UInt64.not_lt, UInt64.le_iff_toNat_le]

/-- Without overcommit the cpus of a host are figures for which 53 places are enough, -/
theorem figures_cpuAmounts (s : ResourceSnapshot) (d : ResourceDemand) :
    (s.cpuAmounts d .none).Figures 0 s.rawCpu.toNat s.usedCpu.toNat d.cpu.toNat :=
  ⟨(Figure.ofUInt32 s.rawCpu).times_one, Figure.ofUInt32 s.usedCpu, Figure.ofUInt32 d.cpu⟩

/-- so they are promised exactly. -/
theorem cpu_room_iff : ¬ (s.cpuAmounts d .none).headroom < 0 ↔ s.usedCpu.toNat + d.cpu.toNat ≤ s.rawCpu.toNat :=
  (s.figures_cpuAmounts d).room_iff (one_dvd _) (one_dvd _) (one_dvd _)

/-- Without overcommit and with free disk a host has a score exactly if its cpus take the demand and its memory is not found short. -/
theorem isSome_without_overcommit_iff :
    (scoreSnapshot s d .none t).isSome = true ↔
      d.diskGb.toNat ≤ s.freeDiskGb.toNat ∧ s.usedCpu.toNat + d.cpu.toNat ≤ s.rawCpu.toNat ∧
        ¬ (s.memoryAmounts d .none).headroom < 0 := by
  rw [isSome_scoreSnapshot_iff, cpu_room_iff]

/-- Without overcommit, whatever the transfer ratio, a host has a score exactly if free disk, cpus and memory take the demand as whole
numbers, as long as the memory figures are multiples of some `2 ^ k` with at most 53 places above it: so up to `2 ^ 53` MiB, where `k` is
0. Otherwise disk and cpus are still decided exactly, and memory is off by at most the rounding of the figures, whose size decides what
`k` is: a host that has a score is not filled by more than `2 ^ (k + 1)` MiB beyond its memory, and one that has as much to spare has a
score. For figures of 64 bits `k` is 11 at most, so the two differ by no more than 4 GiB. -/
theorem room_without_overcommit (s : ResourceSnapshot) (d : ResourceDemand) (t : TransferRatio)
    (hraw : s.rawMemoryMb.toNat ≤ 2 ^ (53 + k)) (hused : s.usedMemoryMb.toNat ≤ 2 ^ (53 + k))
    (hasked : d.memoryMb.toNat ≤ 2 ^ (53 + k)) :
    (2 ^ k ∣ s.rawMemoryMb.toNat → 2 ^ k ∣ s.usedMemoryMb.toNat → 2 ^ k ∣ d.memoryMb.toNat →
      ((scoreSnapshot s d .none t).isSome = true ↔ s.HasRoom d 0)) ∧
    ((scoreSnapshot s d .none t).isSome = true → s.HasRoom d (2 ^ (k + 1))) ∧
    (s.HasRoom d (-2 ^ (k + 1)) → (scoreSnapshot s d .none t).isSome = true) := by
  have hfigures : (s.memoryAmounts d .none).Figures k s.rawMemoryMb.toNat s.usedMemoryMb.toNat d.memoryMb.toNat :=
    ⟨(Figure.ofUInt64 hraw).times_one, Figure.ofUInt64 hused, Figure.ofUInt64 hasked⟩
  refine ⟨fun hraw hused hasked => ?_, fun hsome => ?_, fun hroom => ?_⟩
  · rw [isSome_without_overcommit_iff, hfigures.room_iff hraw hused hasked]
    constructor
    · rintro ⟨hdisk, hcpu, hmemory⟩
      exact ⟨hdisk, hcpu, by omega⟩
    · rintro ⟨hdisk, hcpu, hmemory⟩
      exact ⟨hdisk, hcpu, by omega⟩
  · obtain ⟨hdisk, hcpu, hmemory⟩ := isSome_without_overcommit_iff.mp hsome
    exact ⟨hdisk, hcpu, by exact_mod_cast hfigures.le_of_room hmemory⟩
  · rw [isSome_without_overcommit_iff]
    have hspare : (s.usedMemoryMb.toNat + d.memoryMb.toNat + 2 ^ (k + 1) : ℤ) ≤ s.rawMemoryMb.toNat := by
      have := hroom.memory
      omega
    exact ⟨hroom.disk, hroom.cpu, hfigures.room_of_le (by exact_mod_cast hspare)⟩

/-- A host of `2 ^ 60` MiB, half of it in use, takes the other half exactly, although such figures have more than 53 places. -/
theorem room_without_overcommit_half_used :
    let s : ResourceSnapshot :=
      { hostId := "h", rawCpu := 4, rawMemoryMb := 1152921504606846976, usedCpu := 3, usedMemoryMb := 576460752303423488 }
    let d : ResourceDemand := { cpu := 1, memoryMb := 576460752303423488 }
    (s.rawMemoryMb.toNat ≤ 2 ^ (53 + 7) ∧ s.usedMemoryMb.toNat ≤ 2 ^ (53 + 7) ∧ d.memoryMb.toNat ≤ 2 ^ (53 + 7)) ∧
      (2 ^ 7 ∣ s.rawMemoryMb.toNat ∧ 2 ^ 7 ∣ s.usedMemoryMb.toNat ∧ 2 ^ 7 ∣ d.memoryMb.toNat) ∧ s.HasRoom d 0 ∧
      (scoreSnapshot s d .none { value := 0.5 }).isSome = true := by
  intro s d
  have hplaces : s.rawMemoryMb.toNat ≤ 2 ^ (53 + 7) ∧ s.usedMemoryMb.toNat ≤ 2 ^ (53 + 7) ∧ d.memoryMb.toNat ≤ 2 ^ (53 + 7) := by
    decide
  have hdvd : 2 ^ 7 ∣ s.rawMemoryMb.toNat ∧ 2 ^ 7 ∣ s.usedMemoryMb.toNat ∧ 2 ^ 7 ∣ d.memoryMb.toNat := by decide
  have hroom : s.HasRoom d 0 := ⟨by decide, by decide, by decide⟩
  obtain ⟨hexact, -, -⟩ := room_without_overcommit s d { value := 0.5 } hplaces.1 hplaces.2.1 hplaces.2.2
  exact ⟨hplaces, hdvd, hroom, (hexact hdvd.1 hdvd.2.1 hdvd.2.2).mpr hroom⟩

/-- Beyond `2 ^ 53` MiB rounding decides both ways: a host of `2 ^ 53` MiB takes a workload of one more, and a host with exactly the
memory that is asked for has no score. -/
theorem rounding_decides_room :
    (¬ ∀ (s : ResourceSnapshot) (d : ResourceDemand) (transfer : Float) (t : TransferRatio), TransferRatio.make transfer = .ok t →
      (scoreSnapshot s d .none t).isSome = true → s.HasRoom d 0) ∧
    ¬ ∀ (s : ResourceSnapshot) (d : ResourceDemand) (transfer : Float) (t : TransferRatio), TransferRatio.make transfer = .ok t →
      s.HasRoom d 0 → (scoreSnapshot s d .none t).isSome = true := by
  constructor
  · intro hall
    have hroom := hall { hostId := "h", rawCpu := 4, rawMemoryMb := 9007199254740992 }
      { cpu := 1, memoryMb := 9007199254740993 } 0.5 _ rfl rfl
    exact absurd hroom.memory (by decide)
  · intro hall
    have hsome := hall { hostId := "h", rawCpu := 4, rawMemoryMb := 9007199254740998, usedMemoryMb := 9007199254740995 }
      { cpu := 1, memoryMb := 3 } 0.5 _ rfl ⟨by decide, by decide, by decide⟩
    exact absurd hsome (by decide)

end ResourceSnapshot

end PlacementTree
