import PlacementTree.File.Config
import PlacementTree.Proofs.Config.FileLayer
import PlacementTree.Proofs.Config.Validate
import PlacementTree.Proofs.Decimal.ReadBack
import PlacementTree.Proofs.Toml.Document
import PlacementTree.Proofs.Toml.Scalar

/-!
# Configuration files are read as they are written

TOML is a file layer (`Toml.fileLayer`). Writing gives each setting a line, and sections an empty line between them. Reading takes the lines
for statements (`says_sections`) and the statements for tables. So the layer reads back the doubles whose numerals stand for them
(`Toml.faithful`), and a configuration file says what any file layer of this kind makes it say (`FileLayer.Faithful.parse_written`).
`AgentConfig.parse_of_written` adds where a seed is mentioned.

That the numeral in the text of a finite ratio stands for it (`RatiosReadBack`) is a matter of doubles and not of files; it is so for every
configuration (`ratiosReadBack`).

Words are looked for in a text by its marks: a word without them, and with a letter that no number has, stands in a name or a key or nowhere
(`Word.infix_section_iff`).
-/

namespace PlacementTree

open Toml (BareKey BareValue PlainSection Says Statement)

/-! ## Settings -/

namespace Setting

/-- A setting cannot be written exactly if it is too large. -/
theorem write?_eq_none_iff {s : Setting} : s.write? = none ↔ s.Large := by
  cases s with
  | count n =>
    rw [large_count, write?, ite_eq_right_iff, Toml.signedLimit]
    simp only [reduceCtorEq, imp_false]
    omega
  | ratio x => simp [write?, not_large_ratio]

/-- The text of a setting is made of the characters of numbers. -/
theorem isNumberChar_of_write? {s : Setting} {text : String} (h : s.write? = some text) :
    text.toList ≠ [] ∧ ∀ c ∈ text.toList, Decimal.isNumberChar c = true := by
  cases s with
  | count n =>
    simp only [write?, Option.ite_none_right_eq_some, Option.some.injEq] at h
    obtain ⟨-, rfl⟩ := h
    rw [String.toList_ofList]
    exact ⟨Nat.toDigits_ne_nil, fun c hc => Decimal.isNumberChar_of_isDigit (Decimal.isDigit_of_mem_toDigits hc)⟩
  | ratio x =>
    cases h
    exact ⟨Decimal.write_ne_nil x, fun c => Decimal.isNumberChar_of_mem_write⟩

theorem isValueChar_of_isNumberChar {c : Char} (h : Decimal.isNumberChar c = true) : Toml.isValueChar c = true := by
  have hothers : ∀ d ∈ ['-', '.', 'a', 'f', 'i', 'n'], Toml.isValueChar d = true := by simp [Toml.isValueChar, Toml.isKeyChar]
  simp only [Decimal.isNumberChar, Bool.or_eq_true, List.contains_iff_mem] at h
  rcases h with h | h
  · simp [Toml.isValueChar, Toml.isKeyChar, h]
  · exact hothers c h

theorem bareValue_of_write? {s : Setting} {text : String} (h : s.write? = some text) : BareValue text.toList where
  ne_nil := (isNumberChar_of_write? h).1
  isValueChar c hc := isValueChar_of_isNumberChar ((isNumberChar_of_write? h).2 c hc)

/-- The text of a setting is read as the setting. -/
theorem scalar?_of_write? {s : Setting} {text : String} (h : s.write? = some text) (hback : s.Exact Decimal.ReadsBack) :
    Toml.scalar? text.toList = some s.datum := by
  cases s with
  | count n =>
    simp only [write?, Option.ite_none_right_eq_some, Option.some.injEq] at h
    obtain ⟨hlimit, rfl⟩ := h
    rw [String.toList_ofList]
    exact Toml.scalar?_toDigits hlimit
  | ratio x =>
    cases h
    exact Toml.scalar?_write hback

end Setting

theorem settingLine?_eq_some {setting : String × Setting} {line : String} (h : settingLine? setting = some line) :
    ∃ text, setting.2.write? = some text ∧ line.toList = Toml.assignmentText setting.1 text.toList := by
  obtain ⟨text, htext, rfl⟩ := Option.map_eq_some_iff.mp h
  exact ⟨text, htext, by simp [Toml.assignmentText]⟩

/-! ## Texts of several parts -/

section Parts

variable {α β : Type} {f : α → Option β}

/-- Parts are written one by one. -/
theorem mapM_cons_eq_some_iff {a : α} {l : List α} {texts : List β} :
    (a :: l).mapM f = some texts ↔ ∃ text others, f a = some text ∧ l.mapM f = some others ∧ texts = text :: others := by
  simp only [List.mapM_cons, Option.bind_eq_bind, Option.bind_eq_some_iff, Option.pure_def, Option.some.injEq]
  constructor
  · rintro ⟨text, htext, others, hothers, htexts⟩
    exact ⟨text, others, htext, hothers, htexts.symm⟩
  · rintro ⟨text, others, htext, hothers, htexts⟩
    exact ⟨text, htext, others, hothers, htexts.symm⟩

theorem mapM_eq_none_iff {l : List α} : l.mapM f = none ↔ ∃ a ∈ l, f a = none := by
  induction l with
  | nil => simp
  | cons a l ih =>
    rw [List.mapM_cons]
    cases ha : f a <;> cases hl : l.mapM f <;> simp_all

end Parts

/-! ## Sections -/

/-- The lines of settings in front of a text put their assignments in front. -/
theorem says_lines {settings : List (String × Setting)} {lines : List String} (h : settings.mapM settingLine? = some lines)
    (hkeys : ∀ setting ∈ settings, BareKey setting.1) (hback : ∀ setting ∈ settings, setting.2.Exact Decimal.ReadsBack) {rest : List Char}
    {statements : List Statement} (hrest : Says rest statements) :
    Says ((String.join lines).toList ++ rest)
      ((settings.map fun setting => .assign { parents := [], name := setting.1 } setting.2.datum) ++ statements) := by
  induction settings generalizing lines with
  | nil =>
    cases h
    simpa using hrest
  | cons setting others ih =>
    obtain ⟨line, lines, hline, hlines, rfl⟩ := mapM_cons_eq_some_iff.mp h
    obtain ⟨text, htext, hchars⟩ := settingLine?_eq_some hline
    have hothers := ih hlines (fun s hs => hkeys s (List.mem_cons_of_mem _ hs)) fun s hs => hback s (List.mem_cons_of_mem _ hs)
    have hscalar := Setting.scalar?_of_write? htext (hback setting (List.mem_cons_self ..))
    have hsays := hothers.assignment (hkeys setting (List.mem_cons_self ..)) (Setting.bareValue_of_write? htext) hscalar
    simpa [String.join_cons, hchars] using hsays

/-- A section in front of a text puts its statements in front. -/
theorem says_section {name : String} {settings : List (String × Setting)} {text : String} (h : sectionText? name settings = some text)
    (hname : BareKey name) (hkeys : ∀ setting ∈ settings, BareKey setting.1)
    (hback : ∀ setting ∈ settings, setting.2.Exact Decimal.ReadsBack) {rest : List Char} {statements : List Statement}
    (hrest : Says rest statements) :
    Says (text.toList ++ rest) ((PlainSection.mk name (settingFields settings)).statements ++ statements) := by
  obtain ⟨lines, hlines, rfl⟩ := Option.map_eq_some_iff.mp h
  have hsays := (says_lines hlines hkeys hback hrest).header hname
  simpa [Toml.headerText, settingFields, PlainSection.statements, Function.comp_def] using hsays

theorem sectionText?_eq_none_iff {name : String} {settings : List (String × Setting)} :
    sectionText? name settings = none ↔ ∃ setting ∈ settings, setting.2.Large := by
  simp [sectionText?, settingLine?, mapM_eq_none_iff, Setting.write?_eq_none_iff]

/-! ## Files -/

/-- A section of a file as TOML has it. -/
def FileSection.plain (s : FileSection) : PlainSection := ⟨s.1, settingFields s.2⟩

/-- The text of a section of a file. -/
def FileSection.text? (s : FileSection) : Option String := sectionText? s.1 s.2

variable {sections : List FileSection} {texts : List String}

/-- The texts of sections with empty lines between them say the statements of the sections. -/
theorem says_sections (h : sections.mapM FileSection.text? = some texts) (hnames : ∀ s ∈ sections, BareKey s.1)
    (hkeys : ∀ s ∈ sections, ∀ setting ∈ s.2, BareKey setting.1)
    (hback : ∀ s ∈ sections, ∀ setting ∈ s.2, setting.2.Exact Decimal.ReadsBack) :
    Says ("\n".intercalate texts).toList ((sections.map FileSection.plain).flatMap PlainSection.statements) := by
  induction sections generalizing texts with
  | nil =>
    cases h
    exact Toml.says_nil
  | cons s others ih =>
    obtain ⟨text, texts, htext, htexts, rfl⟩ := mapM_cons_eq_some_iff.mp h
    obtain ⟨hname, hnames⟩ := List.forall_mem_cons.mp hnames
    obtain ⟨hkey, hkeys⟩ := List.forall_mem_cons.mp hkeys
    obtain ⟨hexact, hback⟩ := List.forall_mem_cons.mp hback
    have hothers := ih htexts hnames hkeys hback
    cases texts with
    | nil => simpa [FileSection.plain] using says_section htext hname hkey hexact hothers
    | cons next texts => simpa [FileSection.plain] using says_section htext hname hkey hexact hothers.lineFeed

/-- A file of sections does not start with a byte order mark. -/
theorem head?_ne_of_sections (h : sections.mapM FileSection.text? = some texts) :
    ("\n".intercalate texts).toList.head? ≠ some '\ufeff' := by
  cases sections with
  | nil =>
    cases h
    simp
  | cons s others =>
    obtain ⟨text, texts, htext, -, rfl⟩ := mapM_cons_eq_some_iff.mp h
    obtain ⟨lines, -, rfl⟩ := Option.map_eq_some_iff.mp htext
    cases texts <;> simp

namespace Toml

/-- TOML as a file layer. -/
def fileLayer : FileLayer where
  write? sections := (sections.mapM FileSection.text?).map "\n".intercalate
  read? := read

/-- TOML writes all sections without too large numbers, and reads back what it wrote, where the numerals of the doubles stand for them. -/
theorem faithful : fileLayer.Faithful Decimal.ReadsBack where
  write?_eq_none_iff sections := by simp [fileLayer, mapM_eq_none_iff, FileSection.text?, sectionText?_eq_none_iff]
  read? sections text hplain hback hwritten := by
    obtain ⟨texts, htexts, rfl⟩ := Option.map_eq_some_iff.mp hwritten
    have hsays := says_sections htexts hplain.bareName hplain.bareKey hback
    have hnames : ((sections.map FileSection.plain).map (·.name)).Nodup := by
      simpa [Function.comp_def, FileSection.plain] using hplain.names
    have hkeys : ∀ s ∈ sections.map FileSection.plain, (s.fields.map (·.1)).Nodup := List.forall_mem_map.mpr hplain.keys
    have hread := read_of_says (head?_ne_of_sections htexts) hsays
    rw [build_sections hnames hkeys, Option.map_some, toDatum_sections] at hread
    simpa [fileLayer, sectionsDatum, FileSection.plain, Function.comp_def] using hread

end Toml

/-! ## Words of a text -/

/-- A word has the characters of keys only, and one among them that no number has. -/
structure Word (word : List Char) : Prop where
  isKeyChar : ∀ c ∈ word, Toml.isKeyChar c = true
  letter : ∃ c ∈ word, Decimal.isNumberChar c = false

namespace Word

variable {word : List Char}

theorem ne_nil (h : Word word) : word ≠ [] := by
  rintro rfl
  obtain ⟨c, hc, -⟩ := h.letter
  cases hc

theorem notMem (h : Word word) {c : Char} (hc : Toml.isKeyChar c = false) : c ∉ word := by
  intro hmem
  simp [h.isKeyChar c hmem] at hc

/-- A word does not go across a mark. -/
theorem infix_append_cons_iff (h : Word word) {c : Char} (hc : Toml.isKeyChar c = false) (front rest : List Char) :
    word <:+: front ++ c :: rest ↔ word <:+: front ∨ word <:+: rest := by
  constructor
  · intro hfound
    rcases List.infix_append_iff_ne_nil.mp hfound with hfront | hrest | ⟨l, r, -, hr, rfl, -, hstart⟩
    · exact .inl hfront
    · rcases List.infix_cons_iff.mp hrest with hstart | hrest
      · rcases List.prefix_cons_iff.mp hstart with rfl | ⟨t, rfl, -⟩
        · exact absurd rfl h.ne_nil
        · exact absurd (List.mem_cons_self ..) (h.notMem hc)
      · exact .inr hrest
    · rcases List.prefix_cons_iff.mp hstart with rfl | ⟨t, rfl, -⟩
      · exact absurd rfl hr
      · exact absurd (by simp) (h.notMem hc)
  · rintro (hfront | hrest)
    · exact hfront.trans (List.infix_append' [] front (c :: rest))
    · exact hrest.trans ⟨front ++ [c], [], by simp⟩

theorem infix_cons_iff (h : Word word) {c : Char} (hc : Toml.isKeyChar c = false) (rest : List Char) :
    word <:+: c :: rest ↔ word <:+: rest := by
  have := h.infix_append_cons_iff hc [] rest
  rwa [List.nil_append, List.infix_nil, or_iff_right h.ne_nil] at this

/-- A word does not stand in a value. -/
theorem not_infix_of_write? (h : Word word) {s : Setting} {text : String} (htext : s.write? = some text) :
    ¬ word <:+: text.toList := by
  intro hfound
  obtain ⟨c, hc, hletter⟩ := h.letter
  have := (Setting.isNumberChar_of_write? htext).2 c (hfound.subset hc)
  simp [this] at hletter

/-- The words of lines are those of their keys. -/
theorem infix_lines_iff (h : Word word) {settings : List (String × Setting)} {lines : List String}
    (hlines : settings.mapM settingLine? = some lines) (rest : List Char) :
    word <:+: (String.join lines).toList ++ rest ↔ (∃ setting ∈ settings, word <:+: setting.1.toList) ∨ word <:+: rest := by
  induction settings generalizing lines with
  | nil =>
    cases hlines
    simp
  | cons setting others ih =>
    obtain ⟨line, lines, hline, hothers, rfl⟩ := mapM_cons_eq_some_iff.mp hlines
    obtain ⟨text, htext, hchars⟩ := settingLine?_eq_some hline
    have hjoined : (String.join (line :: lines)).toList ++ rest =
        setting.1.toList ++ ' ' :: '=' :: ' ' :: (text.toList ++ '\n' :: ((String.join lines).toList ++ rest)) := by
      simp [String.join_cons, hchars, Toml.assignmentText]
    rw [hjoined, h.infix_append_cons_iff (by decide), h.infix_cons_iff (by decide), h.infix_cons_iff (by decide),
      h.infix_append_cons_iff (by decide), ih hothers, or_iff_right (h.not_infix_of_write? htext)]
    simp [or_assoc]

/-- The words of a section are those of its name and of its keys. -/
theorem infix_section_iff (h : Word word) {name : String} {settings : List (String × Setting)} {text : String}
    (htext : sectionText? name settings = some text) (rest : List Char) :
    word <:+: text.toList ++ rest ↔
      word <:+: name.toList ∨ (∃ setting ∈ settings, word <:+: setting.1.toList) ∨ word <:+: rest := by
  obtain ⟨lines, hlines, rfl⟩ := Option.map_eq_some_iff.mp htext
  have hchars : ("[" ++ name ++ "]\n" ++ String.join lines).toList ++ rest =
      '[' :: (name.toList ++ ']' :: '\n' :: ((String.join lines).toList ++ rest)) := by
    simp
  rw [hchars, h.infix_cons_iff (by decide), h.infix_append_cons_iff (by decide), h.infix_cons_iff (by decide),
    h.infix_lines_iff hlines]

end Word

/-! ## Configurations -/

namespace AgentConfig

/-- Every finite ratio of a configuration is what its text stands for. -/
def RatiosReadBack (c : AgentConfig) : Prop :=
  ∀ x ∈ [c.agent.utilizationTransferRatio, c.agent.cpuOvercommit, c.agent.memoryOvercommit], x.isFinite = true → Decimal.ReadsBack x

/-- No ratio is lost in its text. -/
theorem ratiosReadBack (c : AgentConfig) : c.RatiosReadBack := fun _ _ => Decimal.readsBack

variable {c : AgentConfig} {text : String}

theorem write?_eq_some_iff :
    c.write? = some text ↔
      ∃ agent scheduler, sectionText? "agent" c.agent.settings = some agent ∧
        sectionText? "scheduler" c.scheduler.settings = some scheduler ∧ text = agent ++ "\n" ++ scheduler := by
  simp only [write?, Option.bind_eq_bind, Option.bind_eq_some_iff, Option.pure_def, Option.some.injEq]
  constructor
  · rintro ⟨agent, hagent, scheduler, hscheduler, htext⟩
    exact ⟨agent, scheduler, hagent, hscheduler, htext.symm⟩
  · rintro ⟨agent, scheduler, hagent, hscheduler, htext⟩
    exact ⟨agent, hagent, scheduler, hscheduler, htext.symm⟩

/-- A configuration file is a file of the sections of the configuration. -/
theorem write?_eq (c : AgentConfig) : c.write? = Toml.fileLayer.write? c.sections := by
  simp only [write?, Toml.fileLayer, sections, List.mapM_cons, List.mapM_nil, FileSection.text?]
  cases sectionText? "agent" c.agent.settings <;> cases sectionText? "scheduler" c.scheduler.settings <;> simp [String.append_assoc]

theorem parse_eq (text : String) : parse text = Toml.fileLayer.parse text := rfl

/-- A seed is mentioned exactly if there is one. -/
theorem seed_infix_write?_iff (h : c.write? = some text) : "seed".toList <:+: text.toList ↔ c.scheduler.seed.isSome = true := by
  obtain ⟨agent, scheduler, hagent, hscheduler, rfl⟩ := write?_eq_some_iff.mp h
  have hword : Word "seed".toList := ⟨by simp [Toml.isKeyChar], 's', by simp, by decide⟩
  have hchars : (agent ++ "\n" ++ scheduler).toList = agent.toList ++ '\n' :: (scheduler.toList ++ []) := by simp
  have hnames : ¬ "seed".toList <:+: "agent".toList ∧ ¬ "seed".toList <:+: "scheduler".toList := by decide +kernel
  have hagentKeys : ¬ ∃ setting ∈ c.agent.settings, "seed".toList <:+: setting.1.toList := by
    have hkeys : ∀ name ∈ AgentSection.fieldNames, ¬ "seed".toList <:+: name.toList := by decide +kernel
    rintro ⟨setting, hs, hfound⟩
    exact hkeys _ (fst_mem_fieldNames_of_agent hs) hfound
  have hschedulerKeys : (∃ setting ∈ c.scheduler.settings, "seed".toList <:+: setting.1.toList) ↔ c.scheduler.seed.isSome = true := by
    cases hseed : c.scheduler.seed <;> simp [SchedulerSection.settings, hseed, List.infix_cons_iff]
  rw [hchars, hword.infix_section_iff hagent, hword.infix_cons_iff (by decide), hword.infix_section_iff hscheduler, hschedulerKeys,
    or_iff_right hnames.1, or_iff_right hagentKeys, or_iff_right hnames.2, List.infix_nil, or_iff_left hword.ne_nil]

/-- A configuration file is read as the configuration that it was written for: an accepted configuration whose whole numbers have at most
63 bits is written and read as it was, and its file mentions a seed exactly if it has one. With a larger whole number there is no file, and
the file of a configuration that is not accepted is refused for the same cause. -/
theorem parse_of_written (c : AgentConfig) :
    (c.RatiosReadBack → c.validate = .ok () → (∀ n ∈ c.wholeNumbers, n.toNat ≤ 2 ^ 63 - 1) →
        ∃ text, c.write? = some text ∧ parse text = .ok c ∧ ("seed".toList <:+: text.toList ↔ c.scheduler.seed.isSome = true)) ∧
      ((∃ n ∈ c.wholeNumbers, 2 ^ 63 - 1 < n.toNat) → c.write? = none) ∧
        (c.RatiosReadBack → ∀ text cause, c.write? = some text → c.validate = .error cause →
          parse text = .error (.invalid cause)) := by
  obtain ⟨hread, hlarge, hrefused⟩ := Toml.faithful.parse_written c
  rw [← write?_eq] at hread hlarge hrefused
  refine ⟨?_, hlarge, ?_⟩
  · intro hback hvalid hsmall
    obtain ⟨text, htext, hparse⟩ := hread hback hvalid hsmall
    exact ⟨text, htext, (parse_eq text).trans hparse, seed_infix_write?_iff htext⟩
  · intro hback text cause htext hcause
    exact (parse_eq text).trans (hrefused hback text cause htext hcause)

/-- The largest whole number that can be written with a negative zero as a ratio and a seed of zero; the next whole number; and a cpu ratio
below one. -/
theorem parse_of_written_at_limits :
    let c : AgentConfig :=
      { agent := { hostServiceThreads := 9223372036854775807, utilizationTransferRatio := -0.0, cpuOvercommit := 3.7 }
        scheduler := { hopLatencyMs := 0, seed := some 0 } }
    let larger : AgentConfig := { scheduler := { seed := some 9223372036854775808 } }
    let refused : AgentConfig := { agent := { cpuOvercommit := 0.5 } }
    (c.RatiosReadBack ∧ c.validate = .ok () ∧ (∀ n ∈ c.wholeNumbers, n.toNat ≤ 2 ^ 63 - 1) ∧
        ∃ text, c.write? = some text ∧ parse text = .ok c ∧ ("seed".toList <:+: text.toList ↔ c.scheduler.seed.isSome = true)) ∧
      larger.write? = none ∧
        ∃ text, refused.write? = some text ∧ parse text = .error (.invalid (.overcommit .cpu 0.5)) := by
  intro c larger refused
  have hback : c.RatiosReadBack := by
    unfold RatiosReadBack
    decide +kernel
  have hvalid : c.validate = .ok () := by decide +kernel
  have hsmall : ∀ n ∈ c.wholeNumbers, n.toNat ≤ 2 ^ 63 - 1 := by simp [c, wholeNumbers]
  have hlarger : ∃ n ∈ larger.wholeNumbers, 2 ^ 63 - 1 < n.toNat := ⟨9223372036854775808, by simp [larger, wholeNumbers], by decide⟩
  have hrefusedBack : refused.RatiosReadBack := by
    unfold RatiosReadBack
    decide +kernel
  have hcause : refused.validate = .error (.overcommit .cpu 0.5) := by decide +kernel
  obtain ⟨text, htext⟩ : ∃ text, refused.write? = some text := by
    apply Option.ne_none_iff_exists'.mp
    simp [write?_eq, Toml.faithful.write?_sections_eq_none_iff, refused, wholeNumbers]
  exact ⟨⟨hback, hvalid, hsmall, (parse_of_written c).1 hback hvalid hsmall⟩, (parse_of_written larger).2.1 hlarger,
    text, htext, (parse_of_written refused).2.2 hrefusedBack text _ htext hcause⟩

end AgentConfig

end PlacementTree
