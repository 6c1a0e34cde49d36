import Mathlib.Algebra.GroupWithZero.Nat
import PlacementTree.File.Config
import PlacementTree.Proofs.Config.Validate
import PlacementTree.Proofs.Datum.Fields
import PlacementTree.Proofs.Toml.Document

/-!
# Configurations over a file layer

A configuration file is made of sections of settings. How sections are written and what a text is read as is the matter of a `FileLayer`,
and what a configuration asks of it is this (`FileLayer.Faithful`): sections can be written exactly if their whole numbers have at most 63
bits, and what was written is read as the sections it was written for, if the layer reads back the doubles among them (`exact`).

Every setting of a configuration stands in its sections, so no default is used when they are read, but for a seed that is not set
(`AgentConfig.ofDatum?_sections`). The result is what was written, and what becomes of it is decided by the check alone
(`FileLayer.Faithful.parse_written`).
-/

namespace PlacementTree

/-! ## Settings -/

namespace Setting

/-- What a setting is read as. -/
def datum : Setting → Datum
  | .count n => .ofUInt64 n
  | .ratio x => .float x

/-- A setting that is a whole number of more than 63 bits. -/
def Large : Setting → Prop
  | .count n => 2 ^ 63 - 1 < n.toNat
  | .ratio _ => False

/-- A setting that is a finite ratio is among the doubles that are read as they are written. -/
def Exact (exact : Float → Prop) : Setting → Prop
  | .count _ => True
  | .ratio x => x.isFinite = true → exact x

theorem large_count {n : UInt64} : (Setting.count n).Large ↔ 2 ^ 63 - 1 < n.toNat := Iff.rfl

theorem not_large_ratio {x : Float} : ¬ (Setting.ratio x).Large := id

theorem exact_count {exact : Float → Prop} {n : UInt64} : (Setting.count n).Exact exact := trivial

theorem exact_ratio {exact : Float → Prop} {x : Float} : (Setting.ratio x).Exact exact ↔ (x.isFinite = true → exact x) := Iff.rfl

end Setting

/-- What settings are read as, each under its name. -/
def settingFields (settings : List (String × Setting)) : List (String × Datum) :=
  settings.map fun setting => (setting.1, setting.2.datum)

/-! ## File layers -/

/-- A section of a file: its name and its settings. -/
abbrev FileSection := String × List (String × Setting)

/-- How files of sections are written and read. -/
structure FileLayer where
  write? : List FileSection → Option String
  read? : String → Option Datum

/-- Sections with different names, and with different keys in each of them, that need no quotes. -/
structure PlainFile (sections : List FileSection) : Prop where
  bareName : ∀ s ∈ sections, Toml.BareKey s.1
  bareKey : ∀ s ∈ sections, ∀ setting ∈ s.2, Toml.BareKey setting.1
  names : (sections.map (·.1)).Nodup
  keys : ∀ s ∈ sections, ((settingFields s.2).map (·.1)).Nodup

/-- What the sections of a file are read as. -/
def sectionsDatum (sections : List FileSection) : Datum := .record (sections.map fun s => (s.1, .record (settingFields s.2)))

namespace FileLayer

/-- A layer that writes all settings but too large ones, and reads what it wrote, where it reads back the doubles. -/
structure Faithful (l : FileLayer) (exact : Float → Prop) : Prop where
  write?_eq_none_iff : ∀ sections, l.write? sections = none ↔ ∃ s ∈ sections, ∃ setting ∈ s.2, setting.2.Large
  read? : ∀ sections text, PlainFile sections → (∀ s ∈ sections, ∀ setting ∈ s.2, setting.2.Exact exact) →
    l.write? sections = some text → l.read? text = some (sectionsDatum sections)

/-- The configuration of a file. -/
def parse (l : FileLayer) (text : String) : Except FileError AgentConfig :=
  match (l.read? text).bind (AgentConfig.ofDatum? .passedOver) with
  | none => .error .malformed
  | some config => FileError.ofCheck config config.validate

end FileLayer

/-! ## Records of settings -/

theorem AgentSection.ofDatum?_settings (a : AgentSection) (surplus : Surplus) :
    AgentSection.ofDatum? surplus (.record (settingFields a.settings)) = some a := by
  have hfields : Datum.fields? AgentSection.fieldNames surplus (.record (settingFields a.settings)) =
      some { given := settingFields a.settings, fromList := false } := by
    apply Datum.fields?_record
    · exact fun name hname => hname
    · show AgentSection.fieldNames.Nodup
      simp [AgentSection.fieldNames]
  unfold AgentSection.ofDatum?
  simp only [hfields, Option.bind_eq_bind, Option.bind_some]
  simp [settingFields, AgentSection.settings, Setting.datum, Fields.defaulted_cons, Datum.float?]

theorem SchedulerSection.ofDatum?_settings (s : SchedulerSection) (surplus : Surplus) :
    SchedulerSection.ofDatum? surplus (.record (settingFields s.settings)) = some s := by
  obtain ⟨fanout, hop, timeout, seed⟩ := s
  have hfields : Datum.fields? SchedulerSection.fieldNames surplus
      (.record (settingFields (SchedulerSection.settings ⟨fanout, hop, timeout, seed⟩))) =
        some { given := settingFields (SchedulerSection.settings ⟨fanout, hop, timeout, seed⟩), fromList := false } := by
    apply Datum.fields?_record <;> cases seed <;> simp [settingFields, SchedulerSection.settings, SchedulerSection.fieldNames]
  unfold SchedulerSection.ofDatum?
  simp only [hfields, Option.bind_eq_bind, Option.bind_some]
  cases seed with
  | none => simp [settingFields, SchedulerSection.settings, Setting.datum, Fields.defaulted_cons, Fields.defaulted_nil]
  | some seed =>
    have hseed : Datum.nullable? Datum.uint64? (.ofUInt64 seed) = some (some seed) := by
      show (Datum.ofUInt64 seed).uint64?.map some = _
      rw [Datum.uint64?_ofUInt64, Option.map_some]
    simp [settingFields, SchedulerSection.settings, Setting.datum, Fields.defaulted_cons, hseed]

/-! ## Configurations -/

namespace AgentConfig

/-- The sections of a configuration. -/
def sections (c : AgentConfig) : List FileSection := [("agent", c.agent.settings), ("scheduler", c.scheduler.settings)]

/-- The whole numbers of a configuration, its seed among them if it has one. -/
def wholeNumbers (c : AgentConfig) : List UInt64 :=
  [c.agent.hostServiceThreads, c.agent.schedulerServiceThreads, c.scheduler.fanout, c.scheduler.hopLatencyMs,
    c.scheduler.defaultTimeoutMs] ++ c.scheduler.seed.toList

/-- The doubles of a configuration. -/
def doubles (c : AgentConfig) : List Float := [c.agent.utilizationTransferRatio, c.agent.cpuOvercommit, c.agent.memoryOvercommit]

variable {c : AgentConfig} {text : String}

theorem bareKey_of_mem_fieldNames {key : String} (h : key ∈ AgentSection.fieldNames ∨ key ∈ SchedulerSection.fieldNames) :
    Toml.BareKey key := by
  have hnames : (AgentSection.fieldNames ++ SchedulerSection.fieldNames).all
      (fun key => !key.toList.isEmpty && key.toList.all Toml.isKeyChar) = true := by
    decide +kernel
  have hkey := List.all_eq_true.mp hnames key (List.mem_append.mpr h)
  simp only [Bool.and_eq_true, Bool.not_eq_true', List.isEmpty_eq_false_iff, List.all_eq_true] at hkey
  exact ⟨hkey.1, hkey.2⟩

theorem fst_mem_fieldNames_of_agent {setting : String × Setting} (h : setting ∈ c.agent.settings) :
    setting.1 ∈ AgentSection.fieldNames :=
  List.mem_map_of_mem (f := Prod.fst) h

theorem fst_mem_fieldNames_of_scheduler {setting : String × Setting} (h : setting ∈ c.scheduler.settings) :
    setting.1 ∈ SchedulerSection.fieldNames := by
  revert setting
  cases hseed : c.scheduler.seed <;> simp [SchedulerSection.settings, SchedulerSection.fieldNames, hseed]

theorem plainFile_sections (c : AgentConfig) : PlainFile c.sections where
  bareName := by
    simp only [sections, List.forall_mem_cons]
    exact ⟨⟨by simp, by simp [Toml.isKeyChar]⟩, ⟨by simp, by simp [Toml.isKeyChar]⟩, nofun⟩
  bareKey := by
    simp only [sections, List.forall_mem_cons]
    exact ⟨fun setting hs => bareKey_of_mem_fieldNames (.inl (fst_mem_fieldNames_of_agent hs)),
      fun setting hs => bareKey_of_mem_fieldNames (.inr (fst_mem_fieldNames_of_scheduler hs)), nofun⟩
  names := by simp [sections]
  keys := by cases hseed : c.scheduler.seed <;> simp [sections, settingFields, AgentSection.settings, SchedulerSection.settings, hseed]

/-- A configuration has a setting that is too large exactly if one of its whole numbers is. -/
theorem exists_large_iff :
    (∃ s ∈ c.sections, ∃ setting ∈ s.2, setting.2.Large) ↔ ∃ n ∈ c.wholeNumbers, 2 ^ 63 - 1 < n.toNat := by
  cases hseed : c.scheduler.seed <;>
    simp [sections, AgentSection.settings, SchedulerSection.settings, wholeNumbers, hseed, List.exists_mem_cons_iff, Setting.large_count,
      Setting.not_large_ratio, or_assoc, -List.mem_cons, -Prod.exists]

theorem exact_sections {exact : Float → Prop} (h : ∀ x ∈ c.doubles, x.isFinite = true → exact x) :
    ∀ s ∈ c.sections, ∀ setting ∈ s.2, setting.2.Exact exact := by
  cases hseed : c.scheduler.seed <;>
    simpa [sections, AgentSection.settings, SchedulerSection.settings, doubles, hseed, List.forall_mem_cons, Setting.exact_count,
      Setting.exact_ratio, -List.mem_cons, -Prod.forall] using h

/-- The record of the sections of a configuration is read as the configuration. -/
theorem ofDatum?_sections (c : AgentConfig) (surplus : Surplus) : ofDatum? surplus (sectionsDatum c.sections) = some c := by
  have hfields : Datum.fields? fieldNames surplus (sectionsDatum c.sections) =
      some { given := c.sections.map fun s => (s.1, .record (settingFields s.2)), fromList := false } := by
    apply Datum.fields?_record <;> simp [sections, fieldNames]
  unfold ofDatum?
  simp only [hfields, Option.bind_eq_bind, Option.bind_some]
  simp [sections, Fields.defaulted_cons, AgentSection.ofDatum?_settings, SchedulerSection.ofDatum?_settings]

end AgentConfig

namespace FileLayer

variable {l : FileLayer} {exact : Float → Prop} {c : AgentConfig} {text : String}

/-- A written configuration is read as it was, and then checked. -/
theorem Faithful.parse_write? (h : l.Faithful exact) (hexact : ∀ x ∈ c.doubles, x.isFinite = true → exact x)
    (hwritten : l.write? c.sections = some text) : l.parse text = FileError.ofCheck c c.validate := by
  have hread := h.read? c.sections text c.plainFile_sections (AgentConfig.exact_sections hexact) hwritten
  simp only [parse, hread, Option.bind_some, c.ofDatum?_sections]

theorem Faithful.write?_sections_eq_none_iff (h : l.Faithful exact) :
    l.write? c.sections = none ↔ ∃ n ∈ c.wholeNumbers, 2 ^ 63 - 1 < n.toNat :=
  (h.write?_eq_none_iff c.sections).trans AgentConfig.exists_large_iff

/-- Over a faithful file layer a configuration file is read as the configuration that it was written for: an accepted configuration whose
whole numbers have at most 63 bits is written and read as it was, with a larger whole number there is no file, and the file of a
configuration that is not accepted is refused for the same cause. -/
theorem Faithful.parse_written (h : l.Faithful exact) (c : AgentConfig) :
    ((∀ x ∈ c.doubles, x.isFinite = true → exact x) → c.validate = .ok () → (∀ n ∈ c.wholeNumbers, n.toNat ≤ 2 ^ 63 - 1) →
        ∃ text, l.write? c.sections = some text ∧ l.parse text = .ok c) ∧
      ((∃ n ∈ c.wholeNumbers, 2 ^ 63 - 1 < n.toNat) → l.write? c.sections = none) ∧
        ((∀ x ∈ c.doubles, x.isFinite = true → exact x) → ∀ text cause, l.write? c.sections = some text → c.validate = .error cause →
          l.parse text = .error (.invalid cause)) := by
  refine ⟨?_, h.write?_sections_eq_none_iff.mpr, ?_⟩
  · intro hexact hvalid hsmall
    have hwritten : l.write? c.sections ≠ none := by
      rw [Ne, h.write?_sections_eq_none_iff]
      rintro ⟨n, hn, hlarge⟩
      have := hsmall n hn
      omega
    obtain ⟨text, htext⟩ := Option.ne_none_iff_exists'.mp hwritten
    exact ⟨text, htext, by rw [h.parse_write? hexact htext, hvalid, FileError.ofCheck]⟩
  · intro hexact text cause htext hcause
    rw [h.parse_write? hexact htext, hcause, FileError.ofCheck]

end FileLayer

end PlacementTree
