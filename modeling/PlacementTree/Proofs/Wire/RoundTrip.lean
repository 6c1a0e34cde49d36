import PlacementTree.Proofs.Binary64.TotalOrder
import PlacementTree.Proofs.Datum.Fields
import PlacementTree.Proofs.Json.Document
import PlacementTree.Wire.Decision
import PlacementTree.Wire.Inventory
import PlacementTree.Wire.Request
import PlacementTree.Wire.Snapshot

/-!
# What goes over the wire comes back

A value is written as a datum and the datum as text, and both steps are undone. The text is the matter of a text layer, which is only asked
to read back strings, whole numbers, and the doubles that occur (`TextLayer.Faithful`); JSON is one (`Json.faithful`). Each type finds its
fields in the datum: the fields have different names, a tag stands first and is taken out before the rest is read, and an absent value is
written as the null that it is read from. Only numbers that are no numbers or infinite have no spelling: they are written as null, and a null
is no number (`Datum.binary64?_ofBinary64`). `TextLayer.decode_written` states this of every type on the wire.
-/

namespace PlacementTree

/-! ## Doubles -/

/-- A number is read as it is written, bits and all; what is no number or infinite is not read. -/
@[simp] theorem Datum.binary64?_ofBinary64 (x : Binary64) : (ofBinary64 x).binary64? = if x.isFinite then some x else none := by
  by_cases h : x.isFinite = true
  · have hnumber : x.toFloat.isNaN = false := by
      rw [← Binary64.isFinite_toFloat] at h
      obtain ⟨q, hq⟩ := Binary64.isFinite_iff.mp h
      exact hq.isNaN_eq
    rw [ofBinary64, if_pos h, if_pos h, binary64?, float?, Option.map_some, Binary64.ofFloat_eq hnumber, Binary64.toBits_toFloat hnumber]
  · rw [ofBinary64, if_neg h, if_neg h]
    rfl

/-! ## Requests and snapshots -/

theorem ResourceDemand.ofDatum?_toDatum (d : ResourceDemand) : ofDatum? d.toDatum = some d := by
  unfold ofDatum? toDatum
  rw [Datum.fields?_record (by simp [fieldNames]) (by simp)]
  simp [Fields.required_cons, Fields.defaulted_cons]

theorem ResourceSnapshot.ofDatum?_toDatum (s : ResourceSnapshot) : ofDatum? s.toDatum = some s := by
  unfold ofDatum? toDatum
  rw [Datum.fields?_record (by simp [fieldNames]) (by simp)]
  simp [Fields.required_cons, Fields.optional_cons, Datum.string?_string]

theorem Constraint.ofDatum?_toDatum (c : Constraint) : ofDatum? c.toDatum = some c := by
  unfold ofDatum?
  cases c with
  | datastore id | network id | hostType name | tag key value =>
    rw [toDatum, Datum.tagged?_record (by simp) rfl]
    simp only [Tagged.name?, ofKind?, oneName?, Option.bind_eq_bind, Option.map_bind, Function.comp_apply, Option.pure_def, Option.bind_some,
      Datum.string?_string]
    rw [Datum.fields?_record (by simp) (by simp)]
    simp [Fields.required_cons, Datum.string?_string]

/-! ## Inventories -/

theorem SchedulerEntry.ofDatum?_toDatum (surplus : Surplus) (s : SchedulerEntry) : ofDatum? surplus s.toDatum = some s := by
  unfold ofDatum? toDatum
  rw [Datum.fields?_record (by simp [fieldNames]) (by simp)]
  simp [Fields.required_cons, Fields.defaulted_cons, Datum.string?_string, Datum.list?_strings]

theorem HostEntry.ofDatum?_toDatum (surplus : Surplus) (h : HostEntry) : ofDatum? surplus h.toDatum = some h := by
  unfold ofDatum? toDatum
  rw [Datum.fields?_record (by simp [fieldNames]) (by simp)]
  simp [Fields.required_cons, Fields.defaulted_cons, Fields.optional_cons, Datum.string?_string]

theorem Inventory.ofDatum?_toDatum (surplus : Surplus) (inv : Inventory) : ofDatum? surplus inv.toDatum = some inv := by
  unfold ofDatum? toDatum
  rw [Datum.fields?_record (by simp [fieldNames]) (by simp)]
  simp [Fields.required_cons, Fields.defaulted_cons, Datum.string?_string, Datum.list?_map (SchedulerEntry.ofDatum?_toDatum surplus),
    Datum.list?_map (HostEntry.ofDatum?_toDatum surplus)]

/-! ## Decisions -/

/-- All numbers of a score are finite. -/
def CandidateScore.isFinite (s : CandidateScore) : Bool :=
  s.cpuScore.isFinite && s.memoryScore.isFinite && s.combined.isFinite && s.freeMemoryMb.isFinite

theorem CandidateScore.ofDatum?_toDatum (s : CandidateScore) : ofDatum? s.toDatum = if s.isFinite then some s else none := by
  unfold ofDatum? toDatum
  rw [Datum.fields?_record (by simp [fieldNames]) (by simp)]
  by_cases hcpu : s.cpuScore.isFinite = true <;> by_cases hmemory : s.memoryScore.isFinite = true <;>
    by_cases hcombined : s.combined.isFinite = true <;> by_cases hfree : s.freeMemoryMb.isFinite = true <;>
      simp [Fields.required_cons, Datum.string?_string, isFinite, hcpu, hmemory, hcombined, hfree]

theorem PlacementResponse.ofDatum?_record (r : PlacementResponse) :
    ofDatum? (.record r.fieldData) = if r.score.isFinite then some r else none := by
  unfold ofDatum?
  rw [Datum.fields?_record (by simp [fieldNames, fieldData]) (by simp [fieldData])]
  by_cases h : r.score.isFinite = true <;>
    simp [fieldData, Fields.required_cons, CandidateScore.ofDatum?_toDatum, Datum.list?_strings, h]

theorem PlacementResponse.ofDatum?_toDatum (r : PlacementResponse) : ofDatum? r.toDatum = if r.score.isFinite then some r else none :=
  r.ofDatum?_record

/-- A placement can be held as a whole: it nests two levels deep. -/
theorem PlacementDecision.holdable_placed (response : PlacementResponse) : (placed response).toDatum.holdable = true := by
  have hnumbers (x : Binary64) : (Datum.ofBinary64 x).readable = true ∧ (Datum.ofBinary64 x).depth = 0 := by
    unfold Datum.ofBinary64
    split <;> simp [Datum.readable, Datum.depth]
  have hpath (texts : List String) :
      Datum.readableItems (texts.map .string) = true ∧ Datum.depthOfItems (texts.map .string) = 0 := by
    induction texts with
    | nil => simp [Datum.readableItems, Datum.depthOfItems]
    | cons text texts ih => simp [Datum.readableItems, Datum.depthOfItems, Datum.readable, Datum.depth, ih]
  simp [toDatum, PlacementResponse.fieldData, CandidateScore.toDatum, Datum.holdable, Datum.heldDepth, Datum.readable, Datum.readableFields,
    Datum.depth, Datum.depthOfFields, hnumbers, hpath]

/-- All numbers of a decision are finite. -/
def PlacementDecision.isFinite (d : PlacementDecision) : Bool := d.response?.all (·.score.isFinite)

theorem PlacementDecision.ofDatum?_toDatum (d : PlacementDecision) : ofDatum? d.toDatum = if d.isFinite then some d else none := by
  unfold ofDatum?
  cases d with
  | placed response =>
    rw [toDatum, Datum.tagged?_record (by simp [PlacementResponse.fieldData]) (holdable_placed response)]
    by_cases h : response.score.isFinite = true <;>
      simp [Tagged.name?, Datum.string?_string, ofOutcome?, PlacementResponse.ofDatum?_record, isFinite, response?, h]
  | unschedulable =>
    rw [toDatum, Datum.tagged?_record (by simp) rfl]
    rfl
  | timedOut =>
    rw [toDatum, Datum.tagged?_record (by simp) rfl]
    rfl

/-! ## Texts -/

/-- The numbers of a score. -/
def CandidateScore.numbers (s : CandidateScore) : List Binary64 := [s.cpuScore, s.memoryScore, s.combined, s.freeMemoryMb]

/-- The finite numbers of a score are among those that are read as they are written. -/
def CandidateScore.Exact (exact : Float → Prop) (s : CandidateScore) : Prop :=
  ∀ x ∈ s.numbers, x.isFinite = true → exact x.toFloat

section

open Datum

variable {exact : Float → Prop} {levels : Nat}

theorem Datum.plain_ofBinary64 {x : Binary64} (h : x.isFinite = true → exact x.toFloat) : (ofBinary64 x).Plain exact levels := by
  unfold ofBinary64
  split
  · rename_i hfinite
    exact ⟨⟨by rwa [Binary64.isFinite_toFloat], h hfinite⟩, Nat.zero_le _⟩
  · exact plain_null

theorem ResourceDemand.plain_toDatum (d : ResourceDemand) : d.toDatum.Plain exact 1 := by
  simp [toDatum, plain_record_iff, plain_ofUInt32, plain_ofUInt64]

theorem ResourceSnapshot.plain_toDatum (s : ResourceSnapshot) : s.toDatum.Plain exact 2 := by
  simp [toDatum, plain_record_iff, plain_string, plain_ofUInt32, plain_ofUInt64, plain_ofNames, plain_ofTags, plain_ofOption]

theorem Constraint.plain_toDatum (c : Constraint) : c.toDatum.Plain exact 1 := by
  cases c <;> simp [toDatum, plain_record_iff, plain_string]

theorem SchedulerEntry.plain_toDatum (s : SchedulerEntry) : s.toDatum.Plain exact 2 := by
  simp [toDatum, plain_record_iff, plain_string, plain_strings]

theorem HostEntry.plain_toDatum (h : HostEntry) : h.toDatum.Plain exact 2 := by
  simp [toDatum, plain_record_iff, plain_string, plain_ofUInt32, plain_ofUInt64, plain_ofNames, plain_ofTags, plain_ofOption]

theorem Inventory.plain_toDatum (inv : Inventory) : inv.toDatum.Plain exact 4 := by
  simp [toDatum, plain_record_iff, plain_list_iff, plain_string, SchedulerEntry.plain_toDatum, HostEntry.plain_toDatum]

theorem CandidateScore.plain_toDatum {s : CandidateScore} (h : s.Exact exact) : s.toDatum.Plain exact (levels + 1) := by
  have hnumbers : ∀ x ∈ s.numbers, (ofBinary64 x).Plain exact levels := fun x hx => plain_ofBinary64 (h x hx)
  simp only [numbers, List.forall_mem_cons] at hnumbers
  simp [toDatum, plain_record_iff, plain_string, hnumbers]

theorem PlacementResponse.plain_toDatum {r : PlacementResponse} (h : r.score.Exact exact) : r.toDatum.Plain exact 2 := by
  simp [toDatum, fieldData, plain_record_iff, plain_strings, CandidateScore.plain_toDatum h]

theorem PlacementDecision.plain_toDatum {d : PlacementDecision} (h : ∀ r, d.response? = some r → r.score.Exact exact) :
    d.toDatum.Plain exact 2 := by
  cases d with
  | placed r => simp [toDatum, PlacementResponse.fieldData, plain_record_iff, plain_string, plain_strings, CandidateScore.plain_toDatum (h r rfl)]
  | unschedulable => simp [toDatum, plain_record_iff, plain_string]
  | timedOut => simp [toDatum, plain_record_iff, plain_string]

end

/-- Over a text layer that reads back the strings and the whole numbers that it wrote, values on the wire are read as they were written:
snapshots, demands, constraints and inventories always, scores, responses and decisions if their numbers are finite and the layer reads these
back. A decision with another number is written as a well-formed text that is no decision. -/
theorem TextLayer.decode_written {l : TextLayer} {exact : Float → Prop} (h : l.Faithful exact) :
    (∀ s : ResourceSnapshot, l.decode? ResourceSnapshot.ofDatum? (l.write s.toDatum) = some s) ∧
      (∀ d : ResourceDemand, l.decode? ResourceDemand.ofDatum? (l.write d.toDatum) = some d) ∧
      (∀ c : Constraint, l.decode? Constraint.ofDatum? (l.write c.toDatum) = some c) ∧
      (∀ surplus, ∀ inv : Inventory, l.decode? (Inventory.ofDatum? surplus) (l.write inv.toDatum) = some inv) ∧
      (∀ s : CandidateScore, s.isFinite = true → s.Exact exact →
        l.decode? CandidateScore.ofDatum? (l.write s.toDatum) = some s) ∧
      (∀ r : PlacementResponse, r.score.isFinite = true → r.score.Exact exact →
        l.decode? PlacementResponse.ofDatum? (l.write r.toDatum) = some r) ∧
      (∀ d : PlacementDecision, d.isFinite = true → (∀ r, d.response? = some r → r.score.Exact exact) →
        l.decode? PlacementDecision.ofDatum? (l.write d.toDatum) = some d) ∧
      ∀ r : PlacementResponse, r.score.isFinite = false → r.score.Exact exact →
        (l.read (l.write (PlacementDecision.placed r).toDatum)).isSome = true ∧
          l.decode? PlacementDecision.ofDatum? (l.write (PlacementDecision.placed r).toDatum) = none := by
  refine ⟨fun s => ?_, fun d => ?_, fun c => ?_, fun surplus inv => ?_, fun s hs hexact => ?_, fun r hr hexact => ?_, fun d hd hexact => ?_,
    fun r hr hexact => ?_⟩
  · rw [h.decode?_write _ s.plain_toDatum (by decide), s.ofDatum?_toDatum]
  · rw [h.decode?_write _ d.plain_toDatum (by decide), d.ofDatum?_toDatum]
  · rw [h.decode?_write _ c.plain_toDatum (by decide), c.ofDatum?_toDatum]
  · rw [h.decode?_write _ inv.plain_toDatum (by decide), inv.ofDatum?_toDatum]
  · rw [h.decode?_write _ (CandidateScore.plain_toDatum hexact) (Nat.succ_le_succ (Nat.zero_le _)), s.ofDatum?_toDatum, if_pos hs]
  · rw [h.decode?_write _ (PlacementResponse.plain_toDatum hexact) (by decide), r.ofDatum?_toDatum, if_pos hr]
  · rw [h.decode?_write _ (PlacementDecision.plain_toDatum hexact) (by decide), d.ofDatum?_toDatum, if_pos hd]
  · have hplain : (PlacementDecision.placed r).toDatum.Plain exact 2 := PlacementDecision.plain_toDatum fun r' hr' => by
      cases hr'
      exact hexact
    have hread : l.read (l.write (PlacementDecision.placed r).toDatum) = some _ := h.readsBack _ (hplain.mono (by decide))
    refine ⟨by rw [hread, Option.isSome_some], ?_⟩
    rw [h.decode?_write _ hplain (by decide), PlacementDecision.ofDatum?_toDatum]
    simp [PlacementDecision.isFinite, PlacementDecision.response?, hr]

/-- A score with negative zero, the least and the largest number and one tenth, and with quotes and control characters in its id; and the
same score with a number that is none. JSON reads the four numbers back however often it rounds. -/
theorem TextLayer.decode_written_odd_values :
    let json := Json.layer none
    let score (combined : Binary64) : CandidateScore :=
      { candidateId := "\"\\\n\x01é😀", cpuScore := ⟨0x8000000000000000⟩, memoryScore := ⟨1⟩, combined, freeMemoryMb := ⟨0x3fb999999999999a⟩ }
    let largest : PlacementResponse := { score := score ⟨0x7fefffffffffffff⟩, path := ["", "\t/"] }
    let undefined : PlacementResponse := { score := score ⟨0x7ff8000000000000⟩, path := [] }
    let exact (x : Float) : Prop := x ∈ largest.score.numbers.map (·.toFloat)
    json.Faithful exact ∧ largest.score.Exact exact ∧ undefined.score.Exact exact ∧ largest.score.isFinite = true ∧
      undefined.score.isFinite = false ∧
      json.decode? CandidateScore.ofDatum? (json.write largest.score.toDatum) = some largest.score ∧
      json.decode? PlacementResponse.ofDatum? (json.write largest.toDatum) = some largest ∧
      json.decode? PlacementDecision.ofDatum? (json.write (PlacementDecision.placed largest).toDatum) = some (.placed largest) ∧
      (json.read (json.write (PlacementDecision.placed undefined).toDatum)).isSome = true ∧
      json.decode? PlacementDecision.ofDatum? (json.write (PlacementDecision.placed undefined).toDatum) = none := by
  intro json score largest undefined exact
  have hfaithful : json.Faithful exact := Json.faithful none exact
  have hexact : largest.score.Exact exact := fun x hx _ => List.mem_map_of_mem hx
  have hundefinedExact : undefined.score.Exact exact := by
    intro x hx hfinite
    have hsame : x = ⟨0x7ff8000000000000⟩ ∨ x ∈ largest.score.numbers := by
      simp [undefined, largest, score, CandidateScore.numbers] at hx ⊢
      tauto
    rcases hsame with rfl | hsame
    · exact absurd hfinite (by decide)
    · exact List.mem_map_of_mem hsame
  have hfinite : largest.score.isFinite = true := by decide
  have hundefined : undefined.score.isFinite = false := by decide
  obtain ⟨-, -, -, -, hscore, hresponse, hdecision, hrejected⟩ := TextLayer.decode_written hfaithful
  refine ⟨hfaithful, hexact, hundefinedExact, hfinite, hundefined, hscore largest.score hfinite hexact, hresponse largest hfinite hexact,
    hdecision (.placed largest) (by decide) (fun r hr => ?_), hrejected undefined hundefined hundefinedExact⟩
  cases hr
  exact hexact

end PlacementTree
