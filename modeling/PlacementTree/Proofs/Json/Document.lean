import PlacementTree.Proofs.Datum.TextLayer
import PlacementTree.Proofs.Json.Number
import PlacementTree.Proofs.Json.Quoted

/-!
# JSON is read as it was written

`Reads cs d` holds of a text that is read as the datum `d` wherever it stands. A written datum is such a text (`reads_writeAt`), on one line
and on several: white space stands only between tokens, where the reader passes over it. So writing and reading JSON is a text layer that
reads back all data that can be written (`Json.faithful`); this one loses no double, since its reader rounds a numeral once.

The steps that the reader may take are counted by the characters of the text: a value takes two steps more than the values in it, one for
its list and one for its place there, and the list has a bracket in front and a bracket or comma behind every place.
-/

namespace PlacementTree

namespace Json

/-! ## White space -/

/-- A text of white space. -/
def Blank (cs : List Char) : Prop := ∀ c ∈ cs, isBlank c = true

theorem blank_lineBreak (indent : Option Nat) : Blank (lineBreak indent).toList := by
  cases indent with
  | none => simp [Blank, lineBreak]
  | some level => simp [Blank, lineBreak, isBlank]

theorem skipBlanks_append {blanks : List Char} (h : Blank blanks) (cs : List Char) : skipBlanks (blanks ++ cs) = skipBlanks cs :=
  List.dropWhile_append_of_pos h

theorem skipBlanks_cons {c : Char} (h : isBlank c = false) (cs : List Char) : skipBlanks (c :: cs) = c :: cs := by
  simp [skipBlanks, h]

/-- A number does not go on with white space. -/
theorem ends_blank_append {blanks rest : List Char} (h : Blank blanks) (hrest : Ends rest) : Ends (blanks ++ rest) := by
  cases blanks with
  | nil => exact hrest
  | cons c blanks =>
    apply ends_cons
    have hc := h c (by simp)
    simp only [isBlank, Bool.or_eq_true, beq_iff_eq] at hc
    rcases hc with ((rfl | rfl) | rfl) | rfl <;> decide

/-! ## Values -/

/-- The text is read as the datum, whatever follows that does not go on with a number. -/
def Reads (cs : List Char) (d : Datum) : Prop :=
  ∀ fuel rest, 2 * cs.length ≤ fuel → Ends rest → readValue fuel (cs ++ rest) = some (d, rest)

/-- The text is read as the elements of a list, its closing bracket included. -/
def ReadsItems (cs : List Char) (items : List Datum) : Prop :=
  ∀ fuel rest, 2 * cs.length ≤ fuel + 1 → readItems fuel (cs ++ rest) = some (items, rest)

/-- The text is read as the fields of an object, its closing brace included. -/
def ReadsFields (cs : List Char) (fields : List (String × Datum)) : Prop :=
  ∀ fuel rest, 2 * cs.length ≤ fuel + 1 → readFields fuel (cs ++ rest) = some (fields.map fun field => (some field.1, field.2), rest)

variable {exact : Float → Prop} {cs blanks blanks' : List Char} {d : Datum} {items : List Datum} {fields : List (String × Datum)} {key : String}

/-- No value starts with white space or a closing bracket. -/
theorem readValue_eq_none {c : Char} (h : isBlank c = true ∨ c = ']') (fuel : Nat) (cs : List Char) : readValue fuel (c :: cs) = none := by
  cases fuel with
  | zero => rfl
  | succ fuel =>
    simp only [isBlank, Bool.or_eq_true, beq_iff_eq] at h
    rcases h with (((rfl | rfl) | rfl) | rfl) | rfl <;> rfl

/-- So a text with a value starts with something else. -/
theorem starts_of_readValue (fuel : Nat) (h : readValue fuel cs ≠ none) : ∃ c rest, cs = c :: rest ∧ isBlank c = false ∧ c ≠ ']' := by
  cases cs with
  | nil => cases fuel <;> exact absurd rfl h
  | cons c rest =>
    refine ⟨c, rest, rfl, ?_⟩
    rw [← Bool.not_eq_true, Ne, ← not_or]
    exact fun hc => h (readValue_eq_none hc fuel rest)

theorem Reads.starts (h : Reads cs d) : ∃ c rest, cs = c :: rest ∧ isBlank c = false ∧ c ≠ ']' := by
  have hread := h (2 * cs.length) [] (Nat.le_refl _) ends_nil
  rw [List.append_nil] at hread
  exact starts_of_readValue (2 * cs.length) (by simp [hread])

/-! ## Values without parts -/

theorem reads_null : Reads "null".toList .null := by
  intro fuel rest hfuel hrest
  obtain ⟨fuel, rfl⟩ := Nat.exists_eq_succ_of_ne_zero (by simp at hfuel; omega : fuel ≠ 0)
  rfl

theorem reads_bool (value : Bool) : Reads (if value then "true" else "false").toList (.bool value) := by
  intro fuel rest hfuel hrest
  obtain ⟨fuel, rfl⟩ := Nat.exists_eq_succ_of_ne_zero (by cases value <;> simp at hfuel <;> omega : fuel ≠ 0)
  cases value <;> rfl

theorem reads_string (text : String) : Reads (quote text).toList (.string text) := by
  intro fuel rest hfuel hrest
  rw [toList_quote] at hfuel ⊢
  obtain ⟨fuel, rfl⟩ := Nat.exists_eq_succ_of_ne_zero (by simp at hfuel; omega : fuel ≠ 0)
  simp [readValue, readString_quote]

/-- A spelling is what it stands for. -/
theorem Spelling.reads (s : Spelling) : Reads s.text s.datum := by
  intro fuel rest hfuel hrest
  have hne : s.text ≠ [] := by simp [text, body, s.wholeDigits.ne_nil]
  have hlength := List.length_pos_iff.mpr hne
  obtain ⟨fuel, rfl⟩ := Nat.exists_eq_succ_of_ne_zero (by omega : fuel ≠ 0)
  exact s.readValue_text hrest fuel

theorem reads_int {n : Int} (hlow : -0x8000000000000000 ≤ n) (hhigh : n < UInt64.size) : Reads (toString n).toList (.int n) := by
  rw [← Spelling.text_ofInt, ← Spelling.datum_ofInt hlow hhigh]
  exact (Spelling.ofInt n).reads

theorem reads_float {x : Float} (h : x.isFinite = true) :
    Reads (if x.isFinite then Decimal.Style.json.write x else "null").toList (.float x) := by
  obtain ⟨s, htext, hdatum⟩ := exists_spelling_write h
  rw [if_pos h, ← htext, ← hdatum]
  exact s.reads

/-! ## Lists -/

theorem ReadsItems.starts (h : ReadsItems cs items) : ∃ c rest, cs = c :: rest ∧ isBlank c = false ∧ c ≠ ']' := by
  have hread := h (2 * cs.length + 1) [] (by omega)
  rw [List.append_nil, readItems] at hread
  apply starts_of_readValue (2 * cs.length)
  intro hnone
  rw [hnone] at hread
  cases hread

/-- The last element. -/
theorem Reads.lastItem (h : Reads cs d) (hblanks : Blank blanks) : ReadsItems (cs ++ (blanks ++ [']'])) [d] := by
  intro fuel rest hfuel
  simp only [List.length_append, List.length_singleton] at hfuel
  obtain ⟨fuel, rfl⟩ := Nat.exists_eq_succ_of_ne_zero (by omega : fuel ≠ 0)
  have hends : Ends (blanks ++ ']' :: rest) := ends_blank_append hblanks (ends_cons (by decide) rest)
  have hvalue := h fuel (blanks ++ ']' :: rest) (by omega) hends
  have hskip : skipBlanks (blanks ++ ']' :: rest) = ']' :: rest := by
    rw [skipBlanks_append hblanks, skipBlanks_cons (by decide)]
  simp [readItems, hvalue, hskip]

/-- An element in front of others. -/
theorem Reads.item (h : Reads cs d) (hblanks : Blank blanks) {others : List Char} (hothers : ReadsItems others items) :
    ReadsItems (cs ++ ',' :: (blanks ++ others)) (d :: items) := by
  intro fuel rest hfuel
  simp only [List.length_append, List.length_cons] at hfuel
  obtain ⟨fuel, rfl⟩ := Nat.exists_eq_succ_of_ne_zero (by omega : fuel ≠ 0)
  have hvalue := h fuel (',' :: (blanks ++ (others ++ rest))) (by omega) (ends_cons (by decide) _)
  have hcomma : skipBlanks (',' :: (blanks ++ (others ++ rest))) = ',' :: (blanks ++ (others ++ rest)) := skipBlanks_cons (by decide) _
  obtain ⟨c, tail, rfl, hc, -⟩ := hothers.starts
  have hskip : skipBlanks (blanks ++ (c :: tail ++ rest)) = c :: tail ++ rest := by
    rw [skipBlanks_append hblanks, List.cons_append, skipBlanks_cons hc]
  have hitems := hothers fuel rest (by omega)
  simp only [List.append_assoc, List.cons_append] at hvalue hcomma hskip hitems ⊢
  simp [readItems, hvalue, hcomma, hskip, hitems]

theorem reads_emptyList : Reads ['[', ']'] (.list []) := by
  intro fuel rest hfuel hrest
  obtain ⟨fuel, rfl⟩ := Nat.exists_eq_succ_of_ne_zero (by simp at hfuel; omega : fuel ≠ 0)
  simp [readValue, skipBlanks_cons (show isBlank ']' = false by decide)]

theorem ReadsItems.list (h : ReadsItems cs items) (hblanks : Blank blanks) : Reads ('[' :: (blanks ++ cs)) (.list items) := by
  intro fuel rest hfuel hrest
  simp only [List.length_cons, List.length_append] at hfuel
  obtain ⟨fuel, rfl⟩ := Nat.exists_eq_succ_of_ne_zero (by omega : fuel ≠ 0)
  have hitems := h fuel rest (by omega)
  obtain ⟨c, tail, rfl, hc, hbracket⟩ := h.starts
  have hskip : skipBlanks (blanks ++ (c :: tail ++ rest)) = c :: (tail ++ rest) := by
    rw [skipBlanks_append hblanks, List.cons_append, skipBlanks_cons hc]
  simp only [List.append_assoc, List.cons_append] at hitems hskip ⊢
  simp [readValue, hskip, hitems, hbracket]

/-! ## Objects -/

/-- A key and its value. -/
def fieldText (key : String) (blanks cs : List Char) : List Char := (quote key).toList ++ ':' :: (blanks ++ cs)

theorem ReadsFields.starts (h : ReadsFields cs fields) : ∃ rest, cs = '"' :: rest := by
  have hread := h (2 * cs.length + 1) [] (by omega)
  rw [List.append_nil] at hread
  cases cs with
  | nil => simp [readFields] at hread
  | cons c rest =>
    by_cases hc : c = '"'
    · exact ⟨rest, by rw [hc]⟩
    · simp [readFields, hc] at hread

/-- A field is read up to the brace or the comma behind it. -/
theorem readFields_fieldText (key : String) (h : Reads cs d) (hblanks : Blank blanks) {rest : List Char} (hrest : Ends rest) (fuel : Nat)
    (hfuel : 2 * cs.length ≤ fuel) :
    readFields (fuel + 1) (fieldText key blanks cs ++ rest) =
      match skipBlanks rest with
      | '\x7d' :: rest => some ([(some key, d)], rest)
      | ',' :: rest => (readFields fuel (skipBlanks rest)).map fun (fields, rest) => ((some key, d) :: fields, rest)
      | _ => none := by
  have hvalue := h fuel rest hfuel hrest
  have hkey := readString_quote key (':' :: (blanks ++ (cs ++ rest)))
  have hcolon : skipBlanks (':' :: (blanks ++ (cs ++ rest))) = ':' :: (blanks ++ (cs ++ rest)) := skipBlanks_cons (by decide) _
  obtain ⟨c, tail, rfl, hc, -⟩ := h.starts
  have hskip : skipBlanks (blanks ++ (c :: tail ++ rest)) = c :: tail ++ rest := by
    rw [skipBlanks_append hblanks, List.cons_append, skipBlanks_cons hc]
  simp only [fieldText, toList_quote, List.append_assoc, List.cons_append, List.nil_append] at hkey hcolon hvalue hskip ⊢
  simp only [readFields, hkey, hcolon, hskip, hvalue, Option.bind_eq_bind, Option.bind_some]
  rcases skipBlanks rest with _ | ⟨next, rest⟩
  · rfl
  · by_cases hbrace : next = '\x7d'
    · subst hbrace
      rfl
    · by_cases hcomma : next = ','
      · subst hcomma
        exact Option.map_eq_bind.symm
      · simp [hbrace, hcomma]

/-- The last field. -/
theorem Reads.lastField (h : Reads cs d) (hblanks : Blank blanks) (hend : Blank blanks') :
    ReadsFields (fieldText key blanks cs ++ (blanks' ++ ['\x7d'])) [(key, d)] := by
  intro fuel rest hfuel
  simp only [fieldText, List.length_append, List.length_cons, List.length_nil] at hfuel
  obtain ⟨fuel, rfl⟩ := Nat.exists_eq_succ_of_ne_zero (by omega : fuel ≠ 0)
  have hends : Ends (blanks' ++ '\x7d' :: rest) := ends_blank_append hend (ends_cons (by decide) rest)
  have hfield := readFields_fieldText key h hblanks hends fuel (by omega)
  rw [skipBlanks_append hend, skipBlanks_cons (by decide)] at hfield
  simpa using hfield

/-- A field in front of others. -/
theorem Reads.field (h : Reads cs d) (hblanks : Blank blanks) (hnext : Blank blanks') {others : List Char}
    (hothers : ReadsFields others fields) :
    ReadsFields (fieldText key blanks cs ++ ',' :: (blanks' ++ others)) ((key, d) :: fields) := by
  intro fuel rest hfuel
  simp only [fieldText, List.length_append, List.length_cons] at hfuel
  obtain ⟨fuel, rfl⟩ := Nat.exists_eq_succ_of_ne_zero (by omega : fuel ≠ 0)
  have hends : Ends (',' :: (blanks' ++ (others ++ rest))) := ends_cons (by decide) _
  have hfield := readFields_fieldText key h hblanks hends fuel (by omega)
  obtain ⟨tail, rfl⟩ := hothers.starts
  have hothers := hothers fuel rest (by omega)
  have hskip : skipBlanks (blanks' ++ '"' :: (tail ++ rest)) = '"' :: (tail ++ rest) := by
    rw [skipBlanks_append hnext, skipBlanks_cons (by decide)]
  rw [skipBlanks_cons (by decide)] at hfield
  rw [List.cons_append] at hothers
  simpa [hskip, hothers] using hfield

/-- An object whose keys can all be read is a record. -/
theorem objectDatum_some (fields : List (String × Datum)) :
    objectDatum (fields.map fun field => (some field.1, field.2)) = .record fields := by
  have hkeys : ((fields.map fun field => (some field.1, field.2)).mapM fun field : Option String × Datum => field.1.map (·, field.2)) =
      some fields := by
    induction fields with
    | nil => rfl
    | cons field fields ih => simp [ih]
  simp only [objectDatum, hkeys]

theorem reads_emptyRecord : Reads ['\x7b', '\x7d'] (.record []) := by
  intro fuel rest hfuel hrest
  obtain ⟨fuel, rfl⟩ := Nat.exists_eq_succ_of_ne_zero (by simp at hfuel; omega : fuel ≠ 0)
  simp [readValue, skipBlanks_cons (show isBlank '\x7d' = false by decide)]

theorem ReadsFields.record (h : ReadsFields cs fields) (hblanks : Blank blanks) : Reads ('\x7b' :: (blanks ++ cs)) (.record fields) := by
  intro fuel rest hfuel hrest
  simp only [List.length_cons, List.length_append] at hfuel
  obtain ⟨fuel, rfl⟩ := Nat.exists_eq_succ_of_ne_zero (by omega : fuel ≠ 0)
  have hfields := h fuel rest (by omega)
  obtain ⟨tail, rfl⟩ := h.starts
  have hskip : skipBlanks (blanks ++ ('"' :: tail ++ rest)) = '"' :: (tail ++ rest) := by
    rw [skipBlanks_append hblanks, List.cons_append, skipBlanks_cons (by decide)]
  simp only [List.append_assoc, List.cons_append] at hfields hskip ⊢
  simp [readValue, hskip, hfields, objectDatum_some]

/-! ## Written data -/

theorem toList_enclose (indent : Option Nat) (opening closing : String) {parts : List String} (h : parts ≠ []) :
    (enclose indent opening closing parts).toList =
      opening.toList ++ ((lineBreak (indent.map (· + 1))).toList ++
        ((("," ++ lineBreak (indent.map (· + 1))).intercalate parts).toList ++ ((lineBreak indent).toList ++ closing.toList))) := by
  simp [enclose, h]

/-- A field is written as its key and its value. -/
theorem exists_fieldText (indent : Option Nat) :
    ∃ blanks, Blank blanks ∧ ∀ key text, (quote key ++ keySeparator indent ++ text).toList = fieldText key blanks text.toList := by
  cases indent with
  | none => exact ⟨[], by simp [Blank], by simp [fieldText, keySeparator]⟩
  | some level => exact ⟨[' '], by simp [Blank, isBlank], by simp [fieldText, keySeparator]⟩

/-- The parts of a value in front of others. -/
theorem toList_intercalate_cons (inner part next : String) (parts : List String) (rest : List Char) :
    (("," ++ inner).intercalate (part :: next :: parts)).toList ++ rest =
      part.toList ++ ',' :: (inner.toList ++ ((("," ++ inner).intercalate (next :: parts)).toList ++ rest)) := by
  simp [String.intercalate_cons_cons]

mutual

/-- Every datum that can be written is read as it was written. -/
theorem reads_writeAt (indent : Option Nat) : ∀ d : Datum, d.Writable exact → Reads (writeAt indent d).toList d
  | .null, _ => reads_null
  | .bool value, _ => reads_bool value
  | .int value, h => reads_int h.1 h.2
  | .float value, h => reads_float h.1
  | .string text, _ => reads_string text
  | .list [], _ => by simpa [writeAt, writeItems, enclose] using reads_emptyList
  | .list (item :: rest), h => by
    have hitems := readsItems_writeItems (indent.map (· + 1)) (blank_lineBreak (indent.map (· + 1))) (blank_lineBreak indent) (item :: rest)
      (List.cons_ne_nil _ _) h
    rw [writeAt, toList_enclose _ _ _ (by simp [writeItems])]
    exact hitems.list (blank_lineBreak _)
  | .record [], _ => by simpa [writeAt, writeFields, enclose] using reads_emptyRecord
  | .record (field :: rest), h => by
    have hfields := readsFields_writeFields (indent.map (· + 1)) (blank_lineBreak (indent.map (· + 1))) (blank_lineBreak indent)
      (field :: rest) (List.cons_ne_nil _ _) h.2
    rw [writeAt, toList_enclose _ _ _ (by simp [writeFields])]
    exact hfields.record (blank_lineBreak _)
  | .unreadable, h => h.elim

theorem readsItems_writeItems (indent : Option Nat) {inner outer : String} (hinner : Blank inner.toList) (houter : Blank outer.toList) :
    ∀ items : List Datum, items ≠ [] → Datum.WritableItems exact items →
      ReadsItems ((("," ++ inner).intercalate (writeItems indent items)).toList ++ (outer.toList ++ [']'])) items
  | [], h, _ => absurd rfl h
  | [item], _, h => by
    rw [writeItems, writeItems, String.intercalate_singleton]
    exact (reads_writeAt indent item h.1).lastItem houter
  | item :: next :: rest, _, h => by
    have hrest := readsItems_writeItems indent hinner houter (next :: rest) (List.cons_ne_nil _ _) h.2
    rw [writeItems, writeItems, toList_intercalate_cons]
    exact (reads_writeAt indent item h.1).item hinner hrest

theorem readsFields_writeFields (indent : Option Nat) {inner outer : String} (hinner : Blank inner.toList) (houter : Blank outer.toList) :
    ∀ fields : List (String × Datum), fields ≠ [] → Datum.WritableFields exact fields →
      ReadsFields ((("," ++ inner).intercalate (writeFields indent fields)).toList ++ (outer.toList ++ ['\x7d'])) fields
  | [], h, _ => absurd rfl h
  | [(key, value)], _, h => by
    rw [Datum.WritableFields] at h
    obtain ⟨blanks, hblanks, htext⟩ := exists_fieldText indent
    rw [writeFields, writeFields, String.intercalate_singleton, htext]
    exact (reads_writeAt indent value h.1).lastField hblanks houter
  | (key, value) :: (key', value') :: rest, _, h => by
    rw [Datum.WritableFields] at h
    obtain ⟨blanks, hblanks, htext⟩ := exists_fieldText indent
    have hrest := readsFields_writeFields indent hinner houter ((key', value') :: rest) (List.cons_ne_nil _ _) h.2
    rw [writeFields] at hrest
    rw [writeFields, writeFields, toList_intercalate_cons, htext]
    exact (reads_writeAt indent value h.1).field hblanks hinner hrest

end

/-- A written datum is a text with its value, on one line and on several. -/
theorem read_writeAt (indent : Option Nat) {d : Datum} (h : d.Writable exact) : read (writeAt indent d) = some d := by
  have hreads := reads_writeAt indent d h
  obtain ⟨c, rest, htext, hc, -⟩ := hreads.starts
  have hskip : skipBlanks (writeAt indent d).toList = (writeAt indent d).toList := by rw [htext, skipBlanks_cons hc]
  have hvalue := hreads (2 * (writeAt indent d).toList.length + 2) [] (by omega) ends_nil
  rw [List.append_nil] at hvalue
  simp only [read, hskip, hvalue]
  rfl

/-- JSON as a text layer, on one line or on several. -/
def layer (indent : Option Nat) : TextLayer := { write := writeAt indent, read }

theorem layer_readsBack (exact : Float → Prop) (indent : Option Nat) {d : Datum} (h : d.Writable exact) : (layer indent).ReadsBack d :=
  read_writeAt indent h

/-- JSON reads back what it wrote, every finite double among it. -/
theorem faithful (indent : Option Nat) (exact : Float → Prop) : (layer indent).Faithful exact where
  null := layer_readsBack exact indent (by simp [Datum.Writable])
  bool value := layer_readsBack exact indent (by simp [Datum.Writable])
  string text := layer_readsBack exact indent (by simp [Datum.Writable])
  int value hlow hhigh := layer_readsBack exact indent (by simpa [Datum.Writable] using ⟨hlow, hhigh⟩)
  float value hfinite hexact := layer_readsBack exact indent (by simpa [Datum.Writable] using ⟨hfinite, hexact⟩)
  list _ hplain _ := layer_readsBack exact indent hplain.writable
  record _ hplain _ := layer_readsBack exact indent hplain.writable

end Json

end PlacementTree
