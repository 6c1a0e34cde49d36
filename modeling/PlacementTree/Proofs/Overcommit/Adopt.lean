import PlacementTree.Proofs.Binary64.Packing
import PlacementTree.Proofs.Config.Validate

/-!
# Adopting settings puts exactly them in force

Adopting compares numbers to find out what to write. Two numbers that compare equal are the same unless they are zeros of either sign,
which no accepted ratio is (`ratio_eq_of_beq`). So whatever is left unwritten had the right bits already, and the ratios after the writes
for accepted settings are theirs (`OvercommitSettings.foldl_writesFrom`).
-/

namespace PlacementTree

/-- A ratio that compares equal to a number is that number. -/
theorem ratio_eq_of_beq {a b : Float} (hone : 1.0 ≤ a) (h : (a == b) = true) : a = b := by
  obtain ⟨-, -, heq | ⟨rfl, -⟩ | ⟨rfl, -⟩⟩ := Float.beq_iff_ne_nan_and_eq.mp h
  · exact heq
  · exact absurd hone (by decide)
  · exact absurd hone (by decide)

/-! ## Adopting -/

/-- Settings are accepted if both are ratios, and give them as they are. -/
theorem OvercommitSettings.ratios_eq_ok_iff {settings : OvercommitSettings} {ratios : OvercommitRatios} :
    settings.ratios = .ok ratios ↔
      ratios = { cpu := settings.cpu, memory := settings.memory } ∧ (settings.cpu.isFinite = true ∧ 1.0 ≤ settings.cpu) ∧
        settings.memory.isFinite = true ∧ 1.0 ≤ settings.memory := by
  unfold OvercommitSettings.ratios OvercommitRatios.make
  cases hcpu : checkOvercommit .cpu settings.cpu with
  | error cause =>
    simp only [reduceCtorEq, false_iff]
    rintro ⟨-, hvalid, -⟩
    rw [checkOvercommit_eq_ok_iff.mpr ⟨rfl, hvalid⟩] at hcpu
    cases hcpu
  | ok cpu =>
    obtain ⟨rfl, hvalidCpu⟩ := checkOvercommit_eq_ok_iff.mp hcpu
    cases hmemory : checkOvercommit .memory settings.memory with
    | error cause =>
      simp only [reduceCtorEq, false_iff]
      rintro ⟨-, -, hvalid⟩
      rw [checkOvercommit_eq_ok_iff.mpr ⟨rfl, hvalid⟩] at hmemory
      cases hmemory
    | ok memory =>
      obtain ⟨rfl, hvalidMemory⟩ := checkOvercommit_eq_ok_iff.mp hmemory
      simp [hvalidCpu, hvalidMemory, eq_comm]

/-- A ratio that is written unless it compares equal is the new one afterwards. -/
theorem write_unless_equal {next : Float} (hone : 1.0 ≤ next) (seen : Float) :
    (if next != seen then next else seen) = next := by
  cases h : next == seen with
  | true => simp [bne, ratio_eq_of_beq hone h]
  | false => simp [bne, h]

/-- The writes that adopt accepted settings put exactly them in force. -/
theorem OvercommitSettings.foldl_writesFrom {settings : OvercommitSettings} {next : OvercommitRatios} (h : settings.ratios = .ok next)
    (seen : OvercommitRatios) : ((settings.writesFrom seen).toOption.getD []).foldl OvercommitRatios.write seen = next := by
  obtain ⟨rfl, ⟨-, hcpuOne⟩, -, hmemoryOne⟩ := OvercommitSettings.ratios_eq_ok_iff.mp h
  have hwritten : ((settings.writesFrom seen).toOption.getD []).foldl OvercommitRatios.write seen =
      { cpu := if settings.cpu != seen.cpu then settings.cpu else seen.cpu
        memory := if settings.memory != seen.memory then settings.memory else seen.memory } := by
    simp only [OvercommitSettings.writesFrom, h, Except.map, Except.toOption, Option.getD_some]
    cases settings.cpu != seen.cpu <;> cases settings.memory != seen.memory <;> rfl
  rw [hwritten, write_unless_equal hcpuOne, write_unless_equal hmemoryOne]

end PlacementTree
