/-!
# Sorted names and tags

The datastores and networks of a host are sets of names, its tags a map from names to names. Both are kept as lists in
increasing order of their keys, so two sets are equal exactly when they have the same members, and they are written in that
order. The order of names is that of their code points, which is also the order of their UTF-8 bytes.
-/

namespace PlacementTree

/-- Of two names that are neither in order nor equal, the second comes first. -/
theorem name_lt_of_not_lt_of_ne {x y : String} (h : ¬x < y) (hne : x ≠ y) : y < x := by
  rcases String.le_total y x with hle | hle
  · by_cases hlt : y < x
    · exact hlt
    · exact absurd (String.le_antisymm (a := x) (b := y) hlt h) hne
  · by_cases hlt : y < x
    · exact hlt
    · exact absurd (String.le_antisymm (a := x) (b := y) hlt h) hne

/-- Put a name into its place. -/
def insertName (x : String) : List String → List String
  | [] => [x]
  | y :: ys => if x < y then x :: y :: ys else if x = y then y :: ys else y :: insertName x ys

theorem mem_insertName {x z : String} {ys : List String} : z ∈ insertName x ys ↔ z = x ∨ z ∈ ys := by
  induction ys with
  | nil => simp [insertName]
  | cons y ys ih =>
    by_cases hlt : x < y
    · simp [insertName, hlt]
    · by_cases heq : x = y
      · subst heq
        simp [insertName]
      · simp only [insertName, hlt, heq, if_false, List.mem_cons, ih]
        constructor
        · rintro (h | h | h)
          · exact Or.inr (Or.inl h)
          · exact Or.inl h
          · exact Or.inr (Or.inr h)
        · rintro (h | h | h)
          · exact Or.inr (Or.inl h)
          · exact Or.inl h
          · exact Or.inr (Or.inr h)

theorem increasing_insertName {x : String} {ys : List String} (h : ys.Pairwise (· < ·)) :
    (insertName x ys).Pairwise (· < ·) := by
  induction ys with
  | nil => simp [insertName]
  | cons y ys ih =>
    rw [List.pairwise_cons] at h
    by_cases hlt : x < y
    · simp only [insertName, hlt, if_true, List.pairwise_cons, List.mem_cons]
      refine ⟨?_, h.1, h.2⟩
      rintro z (rfl | hz)
      · exact hlt
      · exact String.lt_trans hlt (h.1 z hz)
    · by_cases heq : x = y
      · subst heq
        simpa [insertName] using h
      · simp only [insertName, hlt, heq, if_false, List.pairwise_cons]
        refine ⟨?_, ih h.2⟩
        intro z hz
        rcases mem_insertName.mp hz with rfl | hz
        · exact name_lt_of_not_lt_of_ne hlt heq
        · exact h.1 z hz

/-- A set of names, in increasing order. -/
structure NameSet where
  toList : List String
  increasing : toList.Pairwise (· < ·)
  deriving DecidableEq

namespace NameSet

def empty : NameSet := { toList := [], increasing := List.Pairwise.nil }

instance : Inhabited NameSet := ⟨empty⟩

def insert (s : NameSet) (x : String) : NameSet :=
  { toList := insertName x s.toList, increasing := increasing_insertName s.increasing }

/-- The set of the members of a list. -/
def ofList (xs : List String) : NameSet := xs.foldl insert empty

def contains (s : NameSet) (x : String) : Bool := s.toList.contains x

end NameSet

/-- Put a tag into its place. A tag of the same key is replaced. -/
def insertTag (key value : String) : List (String × String) → List (String × String)
  | [] => [(key, value)]
  | (k, v) :: rest =>
    if key < k then (key, value) :: (k, v) :: rest
    else if key = k then (key, value) :: rest
    else (k, v) :: insertTag key value rest

theorem key_of_mem_insertTag {key value : String} {p : String × String} {rest : List (String × String)}
    (h : p ∈ insertTag key value rest) : p.1 = key ∨ p ∈ rest := by
  induction rest with
  | nil =>
    rw [insertTag, List.mem_singleton] at h
    exact Or.inl (h ▸ rfl)
  | cons q rest ih =>
    obtain ⟨k, v⟩ := q
    by_cases hlt : key < k
    · simp only [insertTag, hlt, if_true, List.mem_cons] at h
      rcases h with rfl | h
      · exact Or.inl rfl
      · exact Or.inr (List.mem_cons.mpr h)
    · by_cases heq : key = k
      · subst heq
        simp only [insertTag, hlt, if_false, if_true, List.mem_cons] at h
        rcases h with rfl | h
        · exact Or.inl rfl
        · exact Or.inr (List.mem_cons_of_mem _ h)
      · simp only [insertTag, hlt, heq, if_false, List.mem_cons] at h
        rcases h with rfl | h
        · exact Or.inr (List.mem_cons_self ..)
        · rcases ih h with h | h
          · exact Or.inl h
          · exact Or.inr (List.mem_cons_of_mem _ h)

theorem increasing_insertTag {key value : String} {rest : List (String × String)}
    (h : rest.Pairwise (fun p q => p.1 < q.1)) : (insertTag key value rest).Pairwise (fun p q => p.1 < q.1) := by
  induction rest with
  | nil => simp [insertTag]
  | cons q rest ih =>
    obtain ⟨k, v⟩ := q
    rw [List.pairwise_cons] at h
    by_cases hlt : key < k
    · simp only [insertTag, hlt, if_true, List.pairwise_cons, List.mem_cons]
      refine ⟨?_, h.1, h.2⟩
      rintro p (rfl | hp)
      · exact hlt
      · exact String.lt_trans hlt (h.1 p hp)
    · by_cases heq : key = k
      · subst heq
        simp only [insertTag, hlt, if_false, if_true, List.pairwise_cons]
        exact ⟨fun p hp => h.1 p hp, h.2⟩
      · simp only [insertTag, hlt, heq, if_false, List.pairwise_cons]
        refine ⟨?_, ih h.2⟩
        intro p hp
        rcases key_of_mem_insertTag hp with hp | hp
        · exact hp ▸ name_lt_of_not_lt_of_ne hlt heq
        · exact h.1 p hp

/-- A map from tag keys to values, in increasing order of the keys. -/
structure TagMap where
  toList : List (String × String)
  increasing : toList.Pairwise (fun p q => p.1 < q.1)
  deriving DecidableEq

namespace TagMap

def empty : TagMap := { toList := [], increasing := List.Pairwise.nil }

instance : Inhabited TagMap := ⟨empty⟩

/-- Set a tag; a later value replaces an earlier one. -/
def insert (m : TagMap) (key value : String) : TagMap :=
  { toList := insertTag key value m.toList, increasing := increasing_insertTag m.increasing }

/-- The map of a list of tags, of which a later one replaces an earlier one of the same key. -/
def ofList (tags : List (String × String)) : TagMap := tags.foldl (fun m p => m.insert p.1 p.2) empty

def get? (m : TagMap) (key : String) : Option String := m.toList.lookup key

end TagMap

end PlacementTree
