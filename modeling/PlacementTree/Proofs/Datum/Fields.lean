import PlacementTree.Datum
import PlacementTree.Proofs.Labels.Sorted

/-!
# Data are read as they are written

A record with known fields, each of them once, is taken apart into these fields (`Datum.fields?_record`), and a field is found by its name
past the others (`Fields.required_cons`, `Fields.defaulted_cons`, `Fields.optional_cons`). A tag in front of other fields is found, and
they stand beside it (`Datum.tagged?_record`). Whole numbers, names and tags are read as they are written.
-/

namespace PlacementTree

/-! ## Fields of records -/

/-- Known fields with different names are all the fields of their record. -/
theorem Datum.fields?_record {names : List String} {surplus : Surplus} {fields : List (String × Datum)}
    (hknown : ∀ name ∈ fields.map (·.1), name ∈ names) (hnodup : (fields.map (·.1)).Nodup) :
    Datum.fields? names surplus (.record fields) = some { given := fields, fromList := false } := by
  have hfilter : fields.filter (fun field => names.contains field.1) = fields := by
    simp only [List.filter_eq_self, List.contains_iff_mem]
    exact fun field hfield => hknown field.1 (List.mem_map_of_mem hfield)
  simp only [Datum.fields?, hfilter, if_pos hnodup]

namespace Fields

variable {α : Type} (key name : String) (datum : Datum) (rest : List (String × Datum)) (default : α) (read : Datum → Option α)

theorem get?_cons : get? { given := (key, datum) :: rest, fromList := false } name =
    if name = key then some datum else get? { given := rest, fromList := false } name := by
  unfold get?
  by_cases h : name = key
  · simp [h]
  · simp [h, List.lookup_cons, beq_eq_false_iff_ne.mpr h]

/-- A field is found past others. -/
theorem defaulted_cons :
    defaulted { given := (key, datum) :: rest, fromList := false } name default read =
      if name = key then read datum else defaulted { given := rest, fromList := false } name default read := by
  unfold defaulted
  rw [get?_cons]
  by_cases h : name = key
  · rw [if_pos h, if_pos h]
  · rw [if_neg h, if_neg h]

theorem defaulted_nil : defaulted { given := [], fromList := false } name default read = some default := rfl

theorem required_cons :
    required { given := (key, datum) :: rest, fromList := false } name read =
      if name = key then read datum else required { given := rest, fromList := false } name read := by
  unfold required
  rw [get?_cons]
  by_cases h : name = key
  · rw [if_pos h, if_pos h]
    rfl
  · rw [if_neg h, if_neg h]

theorem optional_cons :
    optional { given := (key, datum) :: rest, fromList := false } name read =
      if name = key then datum.nullable? read else optional { given := rest, fromList := false } name read := by
  unfold optional
  rw [get?_cons]
  by_cases h : name = key
  · rw [if_pos h, if_pos h]
  · rw [if_neg h, if_neg h]

end Fields

namespace Datum

/-! ## Tags of objects -/

/-- The tag in front of the other fields of an object that can be held. -/
theorem tagged?_record {key : String} {tag : Datum} {fields : List (String × Datum)} (hkey : key ∉ fields.map (·.1))
    (hheld : (record ((key, tag) :: fields)).holdable = true) :
    (record ((key, tag) :: fields)).tagged? key = some { tag, content := .record fields } := by
  have hnone : ∀ field ∈ fields, (field.1 == key) = false := by
    intro field hfield
    rw [beq_eq_false_iff_ne]
    rintro rfl
    exact hkey (List.mem_map_of_mem hfield)
  have htag : fields.filter (·.1 == key) = [] := by simpa using hnone
  have hrest : fields.filter (·.1 != key) = fields := by
    rw [List.filter_eq_self]
    exact fun field hfield => by simp [bne, hnone field hfield]
  simp [tagged?, hheld, htag, hrest]

/-! ## Values -/

theorem string?_string (text : String) : (string text).string? = some text := rfl

/-- A whole number is read as it is written. -/
@[simp] theorem uint64?_ofUInt64 (n : UInt64) : (ofUInt64 n).uint64? = some n := by
  have hlt : n.toNat < UInt64.size := n.toNat_lt_size
  simp [ofUInt64, uint64?, hlt]

@[simp] theorem uint32?_ofUInt32 (n : UInt32) : (ofUInt32 n).uint32? = some n := by
  have hlt : n.toNat < UInt32.size := n.toNat_lt_size
  simp [ofUInt32, uint32?, hlt]

/-- A list is read as it is written if its elements are. -/
theorem list?_map {α : Type} {write : α → Datum} {read : Datum → Option α} (h : ∀ a, read (write a) = some a) (items : List α) :
    (list (items.map write)).list? read = some items := by
  have hitems : (items.map write).mapM read = some items := by
    induction items with
    | nil => rfl
    | cons a items ih => simp [h a, ih]
  exact hitems

theorem list?_strings (texts : List String) : (list (texts.map .string)).list? string? = some texts := list?_map string?_string texts

@[simp] theorem names?_ofNames (names : NameSet) : (ofNames names).names? = some names := by
  rw [ofNames, names?, list?_strings, Option.map_some, NameSet.ofList_toList]

@[simp] theorem tags?_ofTags (tags : TagMap) : (ofTags tags).tags? = some tags := by
  have htags (pairs : List (String × String)) :
      (pairs.map fun pair => (pair.1, string pair.2)).mapM (fun field => (string? field.2).map (field.1, ·)) = some pairs := by
    induction pairs with
    | nil => rfl
    | cons p pairs ih => simp [string?_string, ih]
  have hread : (ofTags tags).tags? = (some tags.toList).map TagMap.ofList :=
    congrArg (Option.map TagMap.ofList) (htags tags.toList)
  rw [hread, Option.map_some, TagMap.ofList_toList]

/-- A name that may be missing is read as it is written. -/
@[simp] theorem nullable?_ofOption (text : Option String) : (ofOption string text).nullable? string? = some text := by
  cases text <;> rfl

end Datum

end PlacementTree
