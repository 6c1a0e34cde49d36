import Mathlib.Data.List.Basic
import PlacementTree.Toml.Document

/-!
# Documents of plain sections

A plain section is a header and, line by line, bare keys with bare values. `Says cs statements` holds of a text that is read as these
statements; a line in front of such a text puts its own statement in front (`Says.blank`, `Says.header`, `Says.assignment`). Sections with
different names, each with different keys, are built as they stand (`build_sections`): every statement adds to the end of what there is.
-/

namespace PlacementTree.Toml

/-! ## Keys -/

/-- A character of a key without quotes, or a point. -/
def isValueChar (c : Char) : Bool := isKeyChar c || c == '.'

theorem isValueChar_of_isKeyChar {c : Char} (h : isKeyChar c = true) : isValueChar c = true := by simp [isValueChar, h]

theorem ne_of_isValueChar {c : Char} (hc : isValueChar c = true) (d : Char) (hd : isValueChar d = false) : c ≠ d := by
  rintro rfl
  simp [hc] at hd

theorem isBlank_eq_false_of_isValueChar {c : Char} (hc : isValueChar c = true) : isBlank c = false := by
  simp [isBlank, ne_of_isValueChar hc ' ' (by decide), ne_of_isValueChar hc '\t' (by decide)]

/-- A key that needs no quotes. -/
structure BareKey (key : String) : Prop where
  ne_nil : key.toList ≠ []
  isKeyChar : ∀ c ∈ key.toList, Toml.isKeyChar c = true

/-- A bare key ends at the first character that stands in none. -/
theorem readName_bare {key : String} (h : BareKey key) {c : Char} (hc : isKeyChar c = false) (rest : List Char) :
    readName (key.toList ++ c :: rest) = some (key, c :: rest) := by
  have htake : (key.toList ++ c :: rest).takeWhile isKeyChar = key.toList := by
    simp [List.takeWhile_append_of_pos h.isKeyChar, hc]
  have hdrop : (key.toList ++ c :: rest).dropWhile isKeyChar = c :: rest := by
    simp [List.dropWhile_append_of_pos h.isKeyChar, hc]
  obtain ⟨first, others, hfirst⟩ := List.exists_cons_of_ne_nil h.ne_nil
  have hkey : isKeyChar first = true := h.isKeyChar first (by simp [hfirst])
  unfold readName
  split
  · rename_i heq
    rw [hfirst] at heq
    cases heq
    cases hkey
  · rename_i heq
    rw [hfirst] at heq
    cases heq
    cases hkey
  · dsimp only
    rw [htake, hdrop, if_neg (by simp [h.ne_nil]), String.ofList_toList]

/-- A bare key is the whole key unless a dot follows. -/
theorem readKey_bare {key : String} (h : BareKey key) {c : Char} (hc : isKeyChar c = false) {rest after : List Char}
    (hafter : skipBlanks (c :: rest) = after) (hdot : after.head? ≠ some '.') :
    readKey (key.toList ++ c :: rest) = some ({ parents := [], name := key }, after) := by
  obtain ⟨first, others, hfirst⟩ := List.exists_cons_of_ne_nil h.ne_nil
  have hkey : isKeyChar first = true := h.isKeyChar first (by simp [hfirst])
  have hskip : skipBlanks (key.toList ++ c :: rest) = key.toList ++ c :: rest := by
    simp [hfirst, skipBlanks, isBlank_eq_false_of_isValueChar (isValueChar_of_isKeyChar hkey)]
  have hnames (fuel : Nat) : readNames (fuel + 1) (key.toList ++ c :: rest) = some ([key], after) := by
    simp only [readNames, hskip, readName_bare h hc, Option.bind_eq_bind, Option.bind_some, hafter]
    split
    · simp at hdot
    · rfl
  simp [readKey, hnames, nestingLimit]

/-! ## Values -/

/-- A value that is neither quoted nor in brackets. -/
structure BareValue (run : List Char) : Prop where
  ne_nil : run ≠ []
  isValueChar : ∀ c ∈ run, Toml.isValueChar c = true

theorem isBareChar_of_isValueChar {c : Char} (hc : isValueChar c = true) : isBareChar c = true := by
  have hne := ne_of_isValueChar hc
  simp [isBareChar, isBlank_eq_false_of_isValueChar hc, hne '\n' (by decide), hne '\r' (by decide), hne '#' (by decide),
    hne ',' (by decide), hne ']' (by decide), hne '\x7d' (by decide)]

/-- A bare value at the end of a line is the run in front of the line end. -/
theorem readValue_bare (fuel depth : Nat) {run : List Char} (h : BareValue run) {datum : Datum} (hscalar : scalar? run = some datum)
    (rest : List Char) : readValue (fuel + 1) depth (run ++ '\n' :: rest) = some (datum, '\n' :: rest) := by
  have hbare : ∀ c ∈ run, isBareChar c = true := fun c hc => isBareChar_of_isValueChar (h.isValueChar c hc)
  have hsplit : splitBare (run ++ '\n' :: rest) = (run, '\n' :: rest) := by
    simp [splitBare, List.takeWhile_append_of_pos hbare, List.dropWhile_append_of_pos hbare, isBareChar]
  obtain ⟨first, others, rfl⟩ := List.exists_cons_of_ne_nil h.ne_nil
  have hne := ne_of_isValueChar (h.isValueChar first (by simp))
  rw [List.cons_append] at hsplit ⊢
  unfold readValue
  split
  · rename_i heq
    exact absurd (List.cons.inj heq).1 (hne _ (by decide))
  · rename_i heq
    exact absurd (List.cons.inj heq).1 (hne _ (by decide))
  · rename_i heq
    exact absurd (List.cons.inj heq).1 (hne _ (by decide))
  · rename_i heq
    exact absurd (List.cons.inj heq).1 (hne _ (by decide))
  · simp [hsplit, hscalar]

/-! ## Lines -/

theorem endLine_lineFeed (rest : List Char) : endLine ('\n' :: rest) = some rest := rfl

theorem readLine_lineFeed (rest : List Char) : readLine ('\n' :: rest) = some (none, rest) := rfl

theorem readLine_header {key : String} (h : BareKey key) (rest : List Char) :
    readLine ('[' :: (key.toList ++ ']' :: '\n' :: rest)) = some (some (.openTable { parents := [], name := key }), rest) := by
  have hkey : readKey (key.toList ++ ']' :: '\n' :: rest) = some ({ parents := [], name := key }, ']' :: '\n' :: rest) :=
    readKey_bare h (by decide) rfl (by simp)
  have hheader : readHeader (key.toList ++ ']' :: '\n' :: rest) = some (.openTable { parents := [], name := key }, '\n' :: rest) := by
    unfold readHeader
    split
    · rename_i heq
      obtain ⟨first, others, hfirst⟩ := List.exists_cons_of_ne_nil h.ne_nil
      have := h.isKeyChar first (by simp [hfirst])
      rw [hfirst] at heq
      cases heq
      cases this
    · simp only [hkey]
  simp only [readLine, hheader, Option.bind_some, endLine_lineFeed, Option.map_some]

theorem readLine_assignment {key : String} (h : BareKey key) {run : List Char} (hrun : BareValue run) {datum : Datum}
    (hscalar : scalar? run = some datum) (rest : List Char) :
    readLine (key.toList ++ ' ' :: '=' :: ' ' :: (run ++ '\n' :: rest)) =
      some (some (.assign { parents := [], name := key } datum), rest) := by
  have hkey : readKey (key.toList ++ ' ' :: '=' :: ' ' :: (run ++ '\n' :: rest)) =
      some ({ parents := [], name := key }, '=' :: ' ' :: (run ++ '\n' :: rest)) := readKey_bare h (by decide) rfl (by simp)
  have hvalue : skipBlanks (' ' :: (run ++ '\n' :: rest)) = run ++ '\n' :: rest := by
    obtain ⟨c, cs, rfl⟩ := List.exists_cons_of_ne_nil hrun.ne_nil
    have hblank := isBlank_eq_false_of_isValueChar (hrun.isValueChar c (by simp))
    have hspace : isBlank ' ' = true := by decide
    simp [skipBlanks, hspace, hblank]
  have hassignment : readAssignment (key.toList ++ ' ' :: '=' :: ' ' :: (run ++ '\n' :: rest)) =
      some (.assign { parents := [], name := key } datum, '\n' :: rest) := by
    simp [readAssignment, hkey, hvalue, readValue_bare _ _ hrun hscalar]
  obtain ⟨first, others, hfirst⟩ := List.exists_cons_of_ne_nil h.ne_nil
  have hne := ne_of_isValueChar (isValueChar_of_isKeyChar (h.isKeyChar first (by simp [hfirst])))
  rw [hfirst, List.cons_append] at hassignment ⊢
  unfold readLine
  split
  · rename_i heq
    exact absurd (List.cons.inj heq).1 (hne _ (by decide))
  · rename_i heq
    obtain ⟨rfl, rfl⟩ := List.cons.inj heq
    simp [hne '#' (by decide), hne '\n' (by decide), hne '\r' (by decide), hassignment, endLine_lineFeed]
  · rename_i heq
    cases heq

/-! ## Texts -/

/-- The text is read as these statements. A line has at least one character, so there is room for enough lines. -/
def Says (cs : List Char) (statements : List Statement) : Prop := ∀ fuel, cs.length < fuel → readLines fuel cs = some statements

theorem says_nil : Says [] [] := by
  intro fuel hfuel
  obtain ⟨fuel, rfl⟩ := Nat.exists_eq_succ_of_ne_zero (by omega : fuel ≠ 0)
  rfl

/-- A line in front of a text puts its statement in front. -/
theorem Says.line {c : Char} {cs rest : List Char} {statement : Option Statement} {statements : List Statement} (h : Says rest statements)
    (hblank : isBlank c = false) (hline : readLine (c :: cs) = some (statement, rest)) (hlonger : rest.length ≤ cs.length) :
    Says (c :: cs) (statement.toList ++ statements) := by
  intro fuel hfuel
  rw [List.length_cons] at hfuel
  obtain ⟨fuel, rfl⟩ := Nat.exists_eq_succ_of_ne_zero (by omega : fuel ≠ 0)
  have hskip : skipBlanks (c :: cs) = c :: cs := by simp [skipBlanks, hblank]
  simp [readLines, hskip, hline, h fuel (by omega)]

theorem Says.lineFeed {cs : List Char} {statements : List Statement} (h : Says cs statements) : Says ('\n' :: cs) statements :=
  h.line (by decide) (readLine_lineFeed cs) (Nat.le_refl _)

/-- The text of a header. -/
def headerText (key : String) : List Char := '[' :: (key.toList ++ [']', '\n'])

/-- The text of a line with a key and a value. -/
def assignmentText (key : String) (run : List Char) : List Char := key.toList ++ ' ' :: '=' :: ' ' :: (run ++ ['\n'])

theorem Says.header {key : String} (hkey : BareKey key) {cs : List Char} {statements : List Statement} (h : Says cs statements) :
    Says (headerText key ++ cs) (.openTable { parents := [], name := key } :: statements) := by
  have hline := readLine_header hkey cs
  have htext : headerText key ++ cs = '[' :: (key.toList ++ ']' :: '\n' :: cs) := by simp [headerText]
  rw [htext]
  exact h.line (by decide) hline (by simp; omega)

theorem Says.assignment {key : String} (hkey : BareKey key) {run : List Char} (hrun : BareValue run) {datum : Datum}
    (hscalar : scalar? run = some datum) {cs : List Char} {statements : List Statement} (h : Says cs statements) :
    Says (assignmentText key run ++ cs) (.assign { parents := [], name := key } datum :: statements) := by
  have hline := readLine_assignment hkey hrun hscalar cs
  obtain ⟨first, others, hfirst⟩ := List.exists_cons_of_ne_nil hkey.ne_nil
  have hblank := isBlank_eq_false_of_isValueChar (isValueChar_of_isKeyChar (hkey.isKeyChar first (by simp [hfirst])))
  have htext : assignmentText key run ++ cs = first :: (others ++ ' ' :: '=' :: ' ' :: (run ++ '\n' :: cs)) := by
    simp [assignmentText, hfirst]
  rw [htext]
  rw [hfirst, List.cons_append] at hline
  exact h.line hblank hline (by simp; omega)

/-- A text whose first character is no mark is read as its statements build it. -/
theorem read_of_says {text : String} {statements : List Statement} (hmark : text.toList.head? ≠ some '\ufeff')
    (h : Says text.toList statements) : read text = (build statements).map Entries.toDatum := by
  have hdrop : dropMark text.toList = text.toList := by
    unfold dropMark
    split
    · rename_i heq
      simp [heq] at hmark
    · rfl
  simp [read, hdrop, h _ (Nat.lt_succ_self _)]
  cases build statements <;> rfl

/-! ## Sections -/

/-- A section: its name and its keys with their values. -/
structure PlainSection where
  name : String
  fields : List (String × Datum)

namespace PlainSection

/-- A header and one line for every key. -/
def statements (s : PlainSection) : List Statement :=
  .openTable { parents := [], name := s.name } :: s.fields.map fun field => .assign { parents := [], name := field.1 } field.2

/-- The table that a section defines. -/
def entries (s : PlainSection) : Entries := s.fields.map fun field => (field.1, .value field.2)

/-- What a section stands for in the table of all sections. -/
def item (s : PlainSection) : String × Item := (s.name, .table .stated s.entries)

end PlainSection

/-- A new key comes last. -/
theorem change_of_notMem {key : String} {entries : Entries} (h : key ∉ entries.map (·.1)) (f : Option Item → Option Item) :
    entries.change key f = (f none).map fun item => entries ++ [(key, item)] := by
  induction entries with
  | nil => simp [Entries.change]
  | cons entry rest ih =>
    simp only [List.map_cons, List.mem_cons, not_or] at h
    rw [Entries.change, if_neg (Ne.symm h.1), ih h.2]
    cases f none <;> simp

/-- The key that came last is changed in place. -/
theorem change_last {key : String} {entries : Entries} (h : key ∉ entries.map (·.1)) (item : Item) (f : Option Item → Option Item) :
    Entries.change key f (entries ++ [(key, item)]) = (f (some item)).map fun item => entries ++ [(key, item)] := by
  induction entries with
  | nil => simp [Entries.change]
  | cons entry rest ih =>
    simp only [List.map_cons, List.mem_cons, not_or] at h
    rw [List.cons_append, Entries.change, if_neg (Ne.symm h.1), ih h.2]
    cases f (some item) <;> simp

/-- A header with a new name opens an empty table. -/
theorem step_openTable {root : Entries} {name : String} (h : name ∉ root.map (·.1)) (here : List String) :
    Draft.step { here, root } (.openTable { parents := [], name }) =
      some { here := [name], root := root ++ [(name, .table .stated [])] } := by
  simp [Draft.step, Entries.openTable, Entries.within, change_of_notMem h, KeyPath.keys]

/-- A new key goes to the end of the table opened last. -/
theorem step_assign {root entries : Entries} {name key : String} (hname : name ∉ root.map (·.1)) (hkey : key ∉ entries.map (·.1))
    (datum : Datum) :
    Draft.step { here := [name], root := root ++ [(name, .table .stated entries)] } (.assign { parents := [], name := key } datum) =
      some { here := [name], root := root ++ [(name, .table .stated (entries ++ [(key, .value datum)]))] } := by
  simp [Draft.step, Entries.within, change_last hname, Entries.assign, change_of_notMem hkey]

/-- Keys that differ from each other and from those before them go to the end of the table opened last, in their order. -/
theorem foldlM_assign {root entries : Entries} {name : String} (hname : name ∉ root.map (·.1)) {fields : List (String × Datum)}
    (hkeys : (entries.map (·.1) ++ fields.map (·.1)).Nodup) :
    (fields.map fun field => Statement.assign { parents := [], name := field.1 } field.2).foldlM Draft.step
        { here := [name], root := root ++ [(name, .table .stated entries)] } =
      some { here := [name], root := root ++ [(name, .table .stated (entries ++ fields.map fun field => (field.1, .value field.2)))] } := by
  induction fields generalizing entries with
  | nil => simp
  | cons field rest ih =>
    have hnew : field.1 ∉ entries.map (·.1) := fun hmem => (List.nodup_append.mp hkeys).2.2 _ hmem _ (by simp) rfl
    have hrest : ((entries ++ [(field.1, Item.value field.2)]).map (·.1) ++ rest.map (·.1)).Nodup := by simpa using hkeys
    rw [List.map_cons, List.foldlM_cons, step_assign hname hnew, Option.bind_eq_bind, Option.bind_some, ih hrest]
    simp

/-- A section with a new name and different keys adds its table. -/
theorem foldlM_section {root : Entries} {s : PlainSection} (hname : s.name ∉ root.map (·.1)) (hkeys : (s.fields.map (·.1)).Nodup)
    (here : List String) : s.statements.foldlM Draft.step { here, root } = some { here := [s.name], root := root ++ [s.item] } := by
  rw [PlainSection.statements, List.foldlM_cons, step_openTable hname, Option.bind_eq_bind, Option.bind_some,
    foldlM_assign hname (by simpa using hkeys)]
  rfl

theorem foldlM_sections {root : Entries} {sections : List PlainSection} (hnames : (root.map (·.1) ++ sections.map (·.name)).Nodup)
    (hkeys : ∀ s ∈ sections, (s.fields.map (·.1)).Nodup) (here : List String) :
    ((sections.flatMap PlainSection.statements).foldlM Draft.step { here, root }).map (·.root) =
      some (root ++ sections.map PlainSection.item) := by
  induction sections generalizing root here with
  | nil => simp
  | cons s rest ih =>
    have hnew : s.name ∉ root.map (·.1) := fun hmem => (List.nodup_append.mp hnames).2.2 _ hmem _ (by simp) rfl
    have hrest : ((root ++ [s.item]).map (·.1) ++ rest.map (·.name)).Nodup := by simpa [PlainSection.item] using hnames
    rw [List.flatMap_cons, List.foldlM_append, foldlM_section hnew (hkeys s (by simp)), Option.bind_eq_bind, Option.bind_some,
      ih hrest (fun t ht => hkeys t (List.mem_cons_of_mem _ ht))]
    simp

/-- Sections with different names, each with different keys, are built as they stand. -/
theorem build_sections {sections : List PlainSection} (hnames : (sections.map (·.name)).Nodup)
    (hkeys : ∀ s ∈ sections, (s.fields.map (·.1)).Nodup) :
    build (sections.flatMap PlainSection.statements) = some (sections.map PlainSection.item) := by
  have hroot : (([] : Entries).map (·.1) ++ sections.map (·.name)).Nodup := by simpa using hnames
  exact foldlM_sections hroot hkeys []

theorem fieldsOf_entries (s : PlainSection) : Item.fieldsOf s.entries = s.fields := by
  unfold PlainSection.entries
  induction s.fields with
  | nil => simp [Item.fieldsOf]
  | cons field rest ih => simp [Item.fieldsOf, Item.toDatum, ih]

/-- As data, sections are a record of records. -/
theorem toDatum_sections (sections : List PlainSection) :
    Entries.toDatum (sections.map PlainSection.item) = .record (sections.map fun s => (s.name, .record s.fields)) := by
  have hfields : Item.fieldsOf (sections.map PlainSection.item) = sections.map fun s => (s.name, .record s.fields) := by
    induction sections with
    | nil => simp [Item.fieldsOf]
    | cons s rest ih => simp [PlainSection.item, Item.fieldsOf, Item.toDatum, fieldsOf_entries, ih]
  rw [Entries.toDatum, hfields]

end PlacementTree.Toml
