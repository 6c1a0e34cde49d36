import PlacementTree.Config

/-!
# What a checked configuration has

Checks pass a value on as it is, so what `AgentConfig.validate` accepts is a plain conjunction (`AgentConfig.validate_eq_ok_iff`), and
whoever makes ratios of an accepted configuration gets its settings themselves (`AgentConfig.ratios_of_validate`,
`AgentConfig.transfer_of_validate`).
-/

namespace PlacementTree

/-- Steps in a row succeed exactly when each of them does. -/
theorem bind_eq_ok_iff {ε α β : Type} {x : Except ε α} {f : α → Except ε β} {b : β} :
    (x >>= f) = .ok b ↔ ∃ a, x = .ok a ∧ f a = .ok b := by
  cases x with
  | error e => simp [bind, Except.bind]
  | ok a => simp [bind, Except.bind]

/-- An overcommit ratio passes its check as it is. -/
theorem checkOvercommit_eq_ok_iff {resource : Resource} {value ratio : Float} :
    checkOvercommit resource value = .ok ratio ↔ ratio = value ∧ value.isFinite = true ∧ 1.0 ≤ value := by
  unfold checkOvercommit
  by_cases h : value.isFinite = true ∧ 1.0 ≤ value
  · simp [h, eq_comm]
  · rw [if_neg (by simpa using h)]
    simp only [reduceCtorEq, false_iff]
    exact fun hr => h hr.2

/-- A transfer ratio passes its check as it is. -/
theorem checkTransfer_eq_ok_iff {value ratio : Float} :
    checkTransfer value = .ok ratio ↔ ratio = value ∧ 0.0 ≤ value ∧ value ≤ 1.0 := by
  unfold checkTransfer
  by_cases h : 0.0 ≤ value ∧ value ≤ 1.0
  · simp [h, eq_comm]
  · rw [if_neg (by simpa using h)]
    simp only [reduceCtorEq, false_iff]
    exact fun hr => h hr.2

namespace AgentConfig

/-- A count passes its check if it is not zero. -/
theorem checkCount_eq_ok_iff {setting : CountSetting} {value : UInt64} {u : Unit} : checkCount setting value = .ok u ↔ value ≠ 0 := by
  unfold checkCount
  by_cases h : value = 0 <;> simp [h]

/-- A configuration is accepted exactly when all its settings are in range. -/
theorem validate_eq_ok_iff {c : AgentConfig} :
    c.validate = .ok () ↔
      (c.agent.cpuOvercommit.isFinite = true ∧ 1.0 ≤ c.agent.cpuOvercommit) ∧
        (c.agent.memoryOvercommit.isFinite = true ∧ 1.0 ≤ c.agent.memoryOvercommit) ∧
        (0.0 ≤ c.agent.utilizationTransferRatio ∧ c.agent.utilizationTransferRatio ≤ 1.0) ∧
        c.agent.hostServiceThreads ≠ 0 ∧ c.agent.schedulerServiceThreads ≠ 0 ∧ c.scheduler.fanout ≠ 0 ∧
        c.scheduler.defaultTimeoutMs ≠ 0 := by
  simp only [validate, bind_eq_ok_iff, checkOvercommit_eq_ok_iff, checkTransfer_eq_ok_iff, checkCount_eq_ok_iff]
  constructor
  · rintro ⟨_, ⟨-, hcpu⟩, _, ⟨-, hmemory⟩, _, ⟨-, htransfer⟩, _, hhost, _, hscheduler, _, hfanout, htimeout⟩
    exact ⟨hcpu, hmemory, htransfer, hhost, hscheduler, hfanout, htimeout⟩
  · rintro ⟨hcpu, hmemory, htransfer, hhost, hscheduler, hfanout, htimeout⟩
    exact ⟨_, ⟨rfl, hcpu⟩, _, ⟨rfl, hmemory⟩, _, ⟨rfl, htransfer⟩, (), hhost, (), hscheduler, (), hfanout, htimeout⟩

/-- The ratios that an accepted configuration puts in force are its own settings. -/
theorem ratios_of_validate {c : AgentConfig} (h : c.validate = .ok ()) :
    c.overcommit.ratios = .ok { cpu := c.agent.cpuOvercommit, memory := c.agent.memoryOvercommit } := by
  obtain ⟨hcpu, hmemory, -⟩ := validate_eq_ok_iff.mp h
  have hc : checkOvercommit .cpu c.agent.cpuOvercommit = .ok c.agent.cpuOvercommit :=
    checkOvercommit_eq_ok_iff.mpr ⟨rfl, hcpu⟩
  have hm : checkOvercommit .memory c.agent.memoryOvercommit = .ok c.agent.memoryOvercommit :=
    checkOvercommit_eq_ok_iff.mpr ⟨rfl, hmemory⟩
  simp only [OvercommitSettings.ratios, OvercommitRatios.make, overcommit, hc, hm]

/-- The transfer ratio of an accepted configuration is its own setting. -/
theorem transfer_of_validate {c : AgentConfig} (h : c.validate = .ok ()) :
    TransferRatio.make c.agent.utilizationTransferRatio = .ok { value := c.agent.utilizationTransferRatio } := by
  obtain ⟨-, -, htransfer, -⟩ := validate_eq_ok_iff.mp h
  rw [TransferRatio.make, checkTransfer_eq_ok_iff.mpr ⟨rfl, htransfer⟩]

end AgentConfig

end PlacementTree
