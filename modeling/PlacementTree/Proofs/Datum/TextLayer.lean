import Mathlib.Data.List.Basic
import PlacementTree.Datum

/-!
# Text layers

A value goes into a text by way of its datum, and comes out of the text by way of what is read there. How data are written and read is the
matter of a `TextLayer`. What a value asks of it is little (`TextLayer.Faithful`): strings, whole numbers of 64 bits and doubles are read as
they were written, and so are lists and records whose parts are, as far as they may nest. A layer need not read back every double: it may
round a numeral more than once. So the doubles that it reads back are a parameter, `exact`.

From this follows that every plain datum is read back (`TextLayer.Faithful.readsBack`), by induction over its parts.
-/

namespace PlacementTree

/-! ## Plain data -/

mutual

/-- Whether a datum has a notation: its whole numbers fit 64 bits, its doubles are finite and are read as they are written, and the fields
of its records have different names. -/
def Datum.Writable (exact : Float → Prop) : Datum → Prop
  | .int value => -0x8000000000000000 ≤ value ∧ value < UInt64.size
  | .float value => value.isFinite = true ∧ exact value
  | .list items => Datum.WritableItems exact items
  | .record fields => (fields.map (·.1)).Nodup ∧ Datum.WritableFields exact fields
  | .unreadable => False
  | _ => True

def Datum.WritableItems (exact : Float → Prop) : List Datum → Prop
  | [] => True
  | d :: rest => d.Writable exact ∧ Datum.WritableItems exact rest

def Datum.WritableFields (exact : Float → Prop) : List (String × Datum) → Prop
  | [] => True
  | (_, d) :: rest => d.Writable exact ∧ Datum.WritableFields exact rest

end

namespace Datum

variable {exact : Float → Prop} {levels : Nat} {items : List Datum} {fields : List (String × Datum)}

theorem writableItems_iff : WritableItems exact items ↔ ∀ d ∈ items, d.Writable exact := by
  induction items with
  | nil => simp [WritableItems]
  | cons d items ih => simp [WritableItems, ih]

theorem writableFields_iff : WritableFields exact fields ↔ ∀ field ∈ fields, field.2.Writable exact := by
  induction fields with
  | nil => simp [WritableFields]
  | cons field fields ih => simp [WritableFields, ih]

theorem depthOfItems_le_iff : depthOfItems items ≤ levels ↔ ∀ d ∈ items, d.depth ≤ levels := by
  induction items with
  | nil => simp [depthOfItems]
  | cons d items ih => rw [depthOfItems, Nat.max_le, ih, List.forall_mem_cons]

theorem depthOfFields_le_iff : depthOfFields fields ≤ levels ↔ ∀ field ∈ fields, field.2.depth ≤ levels := by
  induction fields with
  | nil => simp [depthOfFields]
  | cons field fields ih => rw [depthOfFields, Nat.max_le, ih, List.forall_mem_cons]

/-- A datum that has a notation and nests at most so many levels deep. -/
structure Plain (exact : Float → Prop) (levels : Nat) (d : Datum) : Prop where
  writable : d.Writable exact
  depth : d.depth ≤ levels

theorem Plain.mono {levels' : Nat} {d : Datum} (h : d.Plain exact levels) (hle : levels ≤ levels') : d.Plain exact levels' :=
  ⟨h.writable, Nat.le_trans h.depth hle⟩

theorem plain_list_iff : (list items).Plain exact (levels + 1) ↔ ∀ d ∈ items, d.Plain exact levels := by
  have hdepth : (list items).depth ≤ levels + 1 ↔ depthOfItems items ≤ levels := by
    rw [Datum.depth]
    omega
  constructor
  · intro h d hd
    exact ⟨writableItems_iff.mp h.writable d hd, depthOfItems_le_iff.mp (hdepth.mp h.depth) d hd⟩
  · exact fun h => ⟨writableItems_iff.mpr fun d hd => (h d hd).writable,
      hdepth.mpr (depthOfItems_le_iff.mpr fun d hd => (h d hd).depth)⟩

theorem plain_record_iff :
    (record fields).Plain exact (levels + 1) ↔ (fields.map (·.1)).Nodup ∧ ∀ field ∈ fields, field.2.Plain exact levels := by
  have hdepth : (record fields).depth ≤ levels + 1 ↔ depthOfFields fields ≤ levels := by
    rw [Datum.depth]
    omega
  constructor
  · intro h
    obtain ⟨hnodup, hfields⟩ := h.writable
    exact ⟨hnodup, fun field hfield =>
      ⟨writableFields_iff.mp hfields field hfield, depthOfFields_le_iff.mp (hdepth.mp h.depth) field hfield⟩⟩
  · rintro ⟨hnodup, h⟩
    exact ⟨⟨hnodup, writableFields_iff.mpr fun field hfield => (h field hfield).writable⟩,
      hdepth.mpr (depthOfFields_le_iff.mpr fun field hfield => (h field hfield).depth)⟩

theorem plain_string (text : String) : (string text).Plain exact levels := ⟨trivial, Nat.zero_le _⟩

theorem plain_null : null.Plain exact levels := ⟨trivial, Nat.zero_le _⟩

theorem plain_ofUInt64 (n : UInt64) : (ofUInt64 n).Plain exact levels := by
  have hsize := n.toNat_lt_size
  refine ⟨?_, Nat.zero_le _⟩
  simp only [ofUInt64, Writable, Int.ofNat_eq_natCast]
  omega

theorem plain_ofUInt32 (n : UInt32) : (ofUInt32 n).Plain exact levels := by
  have hsize : n.toNat < 4294967296 := n.toNat_lt_size
  refine ⟨?_, Nat.zero_le _⟩
  simp [ofUInt32, Writable]
  omega

theorem plain_ofOption (text : Option String) : (ofOption string text).Plain exact levels := by
  cases text with
  | none => exact plain_null
  | some text => exact plain_string text

theorem plain_strings (texts : List String) : (list (texts.map .string)).Plain exact (levels + 1) := by
  rw [plain_list_iff]
  intro d hd
  obtain ⟨text, -, rfl⟩ := List.mem_map.mp hd
  exact plain_string text

theorem plain_ofNames (names : NameSet) : (ofNames names).Plain exact (levels + 1) := plain_strings names.toList

theorem plain_ofTags (tags : TagMap) : (ofTags tags).Plain exact (levels + 1) := by
  rw [ofTags, plain_record_iff]
  constructor
  · rw [List.map_map]
    exact List.pairwise_map.mpr (tags.increasing.imp fun hlt heq => String.ne_of_lt hlt heq)
  · intro field hfield
    obtain ⟨p, -, rfl⟩ := List.mem_map.mp hfield
    exact plain_string p.2

end Datum

/-! ## What is asked of a layer -/

/-- How data are written as texts and read from them. -/
structure TextLayer where
  write : Datum → String
  read : String → Option Datum

namespace TextLayer

variable {l : TextLayer} {exact : Float → Prop}

/-- A datum is read as it was written. -/
def ReadsBack (l : TextLayer) (d : Datum) : Prop := l.read (l.write d) = some d

/-- A layer that reads back the strings and the whole numbers it wrote, and the doubles of which this is known; and so it does lists and
records, if it does their parts. -/
structure Faithful (l : TextLayer) (exact : Float → Prop) : Prop where
  null : l.ReadsBack .null
  bool : ∀ value, l.ReadsBack (.bool value)
  string : ∀ text, l.ReadsBack (.string text)
  int : ∀ value : Int, -0x8000000000000000 ≤ value → value < UInt64.size → l.ReadsBack (.int value)
  float : ∀ value, value.isFinite = true → exact value → l.ReadsBack (.float value)
  list : ∀ items, (Datum.list items).Plain exact Datum.heldDepth → (∀ d ∈ items, l.ReadsBack d) → l.ReadsBack (.list items)
  record : ∀ fields, (Datum.record fields).Plain exact Datum.heldDepth → (∀ field ∈ fields, l.ReadsBack field.2) →
    l.ReadsBack (.record fields)

mutual

/-- A faithful layer reads back every plain datum. -/
theorem Faithful.readsBack (h : l.Faithful exact) : ∀ d : Datum, d.Plain exact Datum.heldDepth → l.ReadsBack d
  | .null, _ => h.null
  | .bool value, _ => h.bool value
  | .int value, hd => h.int value hd.writable.1 hd.writable.2
  | .float value, hd => h.float value hd.writable.1 hd.writable.2
  | .string text, _ => h.string text
  | .list items, hd => by
    have hitems : ∀ d ∈ items, d.Plain exact Datum.heldDepth := fun d hmem => ((Datum.plain_list_iff.mp hd) d hmem).mono (Nat.le_succ _)
    exact h.list items hd (h.readsBack_items items hitems)
  | .record fields, hd => by
    have hfields : ∀ field ∈ fields, field.2.Plain exact Datum.heldDepth := fun field hmem =>
      ((Datum.plain_record_iff.mp hd).2 field hmem).mono (Nat.le_succ _)
    exact h.record fields hd (h.readsBack_fields fields hfields)
  | .unreadable, hd => hd.writable.elim

theorem Faithful.readsBack_items (h : l.Faithful exact) :
    ∀ items : List Datum, (∀ d ∈ items, d.Plain exact Datum.heldDepth) → ∀ d ∈ items, l.ReadsBack d
  | [], _ => nofun
  | item :: rest, hitems => by
    obtain ⟨hitem, hrest⟩ := List.forall_mem_cons.mp hitems
    rw [List.forall_mem_cons]
    exact ⟨h.readsBack item hitem, h.readsBack_items rest hrest⟩

theorem Faithful.readsBack_fields (h : l.Faithful exact) :
    ∀ fields : List (String × Datum), (∀ field ∈ fields, field.2.Plain exact Datum.heldDepth) → ∀ field ∈ fields, l.ReadsBack field.2
  | [], _ => nofun
  | (key, value) :: rest, hfields => by
    obtain ⟨hvalue, hrest⟩ := List.forall_mem_cons.mp hfields
    rw [List.forall_mem_cons]
    exact ⟨h.readsBack value hvalue, h.readsBack_fields rest hrest⟩

end

/-- The value that a text says, if it says one. -/
def decode? {α : Type} (l : TextLayer) (ofDatum? : Datum → Option α) (text : String) : Option α := (l.read text).bind ofDatum?

/-- What is written is read as what its datum says. -/
theorem Faithful.decode?_write (h : l.Faithful exact) {α : Type} (ofDatum? : Datum → Option α) {levels : Nat} {d : Datum}
    (hd : d.Plain exact levels) (hlevels : levels ≤ Datum.heldDepth) : l.decode? ofDatum? (l.write d) = ofDatum? d := by
  have hread : l.read (l.write d) = some d := h.readsBack d (hd.mono hlevels)
  rw [decode?, hread, Option.bind_some]

end TextLayer

end PlacementTree
