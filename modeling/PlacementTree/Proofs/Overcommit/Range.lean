import Mathlib.Data.List.Basic
import PlacementTree.Proofs.Binary64.Denotes
import PlacementTree.Proofs.Overcommit.Feed

/-!
# Ratios in range

A value is refused as a ratio if it is out of range, that is not finite or below one, and settings are refused for the first such value
(`OvercommitSettings.ratios_eq`). A pair in range compares equal to itself and to no other one. So somebody who adopts it writes nothing
exactly if it is in force already (`OvercommitRatios.InRange.writesFrom_eq_nil_iff`), and whatever is written is in range again.
-/

namespace PlacementTree

/-- A number that no ratio may be: it is not finite, or below one. -/
def OutOfRange (value : Float) : Prop := value.isFinite = false ∨ value < 1.0

instance (value : Float) : Decidable (OutOfRange value) := inferInstanceAs (Decidable (_ ∨ _))

open Binary64 in
/-- A finite number that is not below one is at least one. -/
theorem outOfRange_iff {value : Float} : OutOfRange value ↔ ¬(value.isFinite = true ∧ 1.0 ≤ value) := by
  unfold OutOfRange
  cases hfinite : value.isFinite with
  | false => simp
  | true =>
    obtain ⟨q, hq⟩ := isFinite_iff.mp hfinite
    have hone : Denotes 1.0 1 := denotes_one
    simp [lt_iff_of_denotes hq hone, le_iff_of_denotes hone hq]

/-- A number in range compares equal to itself. -/
theorem beq_self_of_not_outOfRange {value : Float} (h : ¬OutOfRange value) : (value == value) = true := by
  have hnumber : value ≠ .nan := by
    rintro rfl
    exact h (by decide)
  exact Float.beq_iff_ne_nan_and_eq.mpr ⟨hnumber, hnumber, Or.inl rfl⟩

/-- A check refuses what is out of range and nothing else. -/
theorem checkOvercommit_eq (resource : Resource) (value : Float) :
    checkOvercommit resource value = if OutOfRange value then .error (.overcommit resource value) else .ok value := by
  simp only [outOfRange_iff, ite_not, checkOvercommit, Bool.and_eq_true, decide_eq_true_eq]

/-- Settings are refused for the first of their values that is out of range. -/
theorem OvercommitSettings.ratios_eq (settings : OvercommitSettings) :
    settings.ratios =
      if OutOfRange settings.cpu then .error (.invalidConfig (.overcommit .cpu settings.cpu))
      else if OutOfRange settings.memory then .error (.invalidConfig (.overcommit .memory settings.memory))
      else .ok settings.asRatios := by
  simp only [OvercommitSettings.ratios, OvercommitRatios.make, checkOvercommit_eq]
  by_cases hcpu : OutOfRange settings.cpu
  · simp only [if_pos hcpu]
  · by_cases hmemory : OutOfRange settings.memory <;> simp only [if_neg hcpu, hmemory, if_true, if_false, OvercommitSettings.asRatios]

/-- The write of one ratio. -/
def RatioWrite.of : Resource → Float → RatioWrite
  | .cpu => .cpu
  | .memory => .memory

/-- The value that is written. -/
def RatioWrite.value : RatioWrite → Float
  | .cpu ratio => ratio
  | .memory ratio => ratio

@[simp] theorem RatioWrite.value_of (resource : Resource) (value : Float) : (of resource value).value = value := by cases resource <;> rfl

/-- Both ratios of a pair are in range. -/
def OvercommitRatios.InRange (r : OvercommitRatios) : Prop := ∀ resource, ¬OutOfRange (r.ratio resource)

/-- The write that adopts one ratio of another pair, if it differs from the one seen before. -/
def OvercommitRatios.writeUnlessEqual (next seen : OvercommitRatios) (resource : Resource) : List RatioWrite :=
  if next.ratio resource != seen.ratio resource then [.of resource (next.ratio resource)] else []

/-- The writes that adopt another pair, the cpu first. -/
def OvercommitRatios.writesFrom (next seen : OvercommitRatios) : List RatioWrite :=
  next.writeUnlessEqual seen .cpu ++ next.writeUnlessEqual seen .memory

/-- Settings are accepted exactly if the ratios that they say are in range. -/
theorem OvercommitSettings.ratios_eq_ok_iff_inRange {settings : OvercommitSettings} {next : OvercommitRatios} :
    settings.ratios = .ok next ↔ next = settings.asRatios ∧ next.InRange := by
  rw [OvercommitSettings.ratios_eq_ok_iff]
  refine and_congr_right ?_
  rintro rfl
  constructor
  · rintro ⟨hcpu, hmemory⟩ resource
    cases resource
    · exact fun hout => outOfRange_iff.mp hout hcpu
    · exact fun hout => outOfRange_iff.mp hout hmemory
  · intro h
    exact ⟨not_not.mp (mt outOfRange_iff.mpr (h .cpu)), not_not.mp (mt outOfRange_iff.mpr (h .memory))⟩

theorem OvercommitSettings.writesFrom_eq_map (settings : OvercommitSettings) (seen : OvercommitRatios) :
    settings.writesFrom seen = settings.ratios.map fun next => next.writesFrom seen := rfl

namespace OvercommitRatios

/-- Set one ratio alone. -/
def set (r : OvercommitRatios) : Resource → Float → Except PlacementError OvercommitRatios
  | .cpu => r.setCpu
  | .memory => r.setMemory

theorem ratio_write_self (r : OvercommitRatios) (resource : Resource) (value : Float) :
    (r.write (.of resource value)).ratio resource = value := by
  cases resource <;> rfl

theorem ratio_write_of_ne (r : OvercommitRatios) {resource other : Resource} (h : other ≠ resource) (value : Float) :
    (r.write (.of resource value)).ratio other = r.ratio other := by
  cases resource with
  | cpu =>
    cases other with
    | cpu => exact absurd rfl h
    | memory => rfl
  | memory =>
    cases other with
    | cpu => rfl
    | memory => exact absurd rfl h

/-- A ratio is set unless the value is out of range. -/
theorem set_eq (r : OvercommitRatios) (resource : Resource) (value : Float) :
    r.set resource value =
      if OutOfRange value then .error (.invalidConfig (.overcommit resource value)) else .ok (r.write (.of resource value)) := by
  cases resource <;> by_cases hvalue : OutOfRange value <;>
    simp only [set, setCpu, setMemory, checkOvercommit_eq, hvalue, if_true, if_false, RatioWrite.of]

/-- A write of a ratio in range leaves the ratios in range. -/
theorem InRange.write {r : OvercommitRatios} (h : r.InRange) {w : RatioWrite} (hw : ¬OutOfRange w.value) : (r.write w).InRange := by
  intro resource
  cases w <;> cases resource
  · exact hw
  · exact h .memory
  · exact h .cpu
  · exact hw

/-- What adopts a pair in range writes ratios in range. -/
theorem InRange.of_mem_writesFrom {next : OvercommitRatios} (h : next.InRange) (seen : OvercommitRatios) :
    ∀ w ∈ next.writesFrom seen, ¬OutOfRange w.value := by
  have hone (resource : Resource) : ∀ w ∈ next.writeUnlessEqual seen resource, ¬OutOfRange w.value := by
    intro w hw
    rw [writeUnlessEqual] at hw
    split at hw
    · rw [List.mem_singleton.mp hw, RatioWrite.value_of]
      exact h resource
    · cases hw
  intro w hw
  rcases List.mem_append.mp hw with hw | hw
  · exact hone .cpu w hw
  · exact hone .memory w hw

/-- Adopting a pair in range puts exactly it in force. -/
theorem InRange.foldl_writesFrom {next : OvercommitRatios} (h : next.InRange) (seen : OvercommitRatios) :
    (next.writesFrom seen).foldl OvercommitRatios.write seen = next := by
  have hnext : OvercommitSettings.ratios { cpu := next.cpu, memory := next.memory } = .ok next :=
    OvercommitSettings.ratios_eq_ok_iff_inRange.mpr ⟨rfl, h⟩
  have hwritten := OvercommitSettings.foldl_writesFrom hnext seen
  rw [OvercommitSettings.writesFrom_eq_map, hnext] at hwritten
  exact hwritten

/-- A pair in range differs from every other one and from no copy of itself. -/
theorem InRange.writesFrom_eq_nil_iff {next seen : OvercommitRatios} (h : next.InRange) :
    next.writesFrom seen = [] ↔ seen = next := by
  constructor
  · intro hnil
    have hwritten := h.foldl_writesFrom seen
    rw [hnil] at hwritten
    exact hwritten
  · rintro rfl
    have hone (resource : Resource) : seen.writeUnlessEqual seen resource = [] := by
      rw [writeUnlessEqual, bne, beq_self_of_not_outOfRange (h resource)]
      rfl
    rw [OvercommitRatios.writesFrom, hone, hone, List.append_nil]

end OvercommitRatios

end PlacementTree
