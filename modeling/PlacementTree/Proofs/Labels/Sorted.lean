import PlacementTree.Labels

/-!
# Names and tags in their order

A name above all others is put in at the end, so the names of a set, put in one by one in their order, make up the same set
(`NameSet.ofList_toList`). The same holds of the tags of a map (`TagMap.ofList_toList`).
-/

namespace PlacementTree

/-! ## Names -/

/-- A name above all others comes last. -/
theorem insertName_of_forall_lt {x : String} {names : List String} (h : ∀ y ∈ names, y < x) : insertName x names = names ++ [x] := by
  induction names with
  | nil => rfl
  | cons y names ih =>
    have hy : y < x := h y (List.mem_cons_self ..)
    have hne : x ≠ y := by
      rintro rfl
      exact String.lt_irrefl x hy
    rw [insertName, if_neg (String.lt_asymm hy), if_neg hne, ih fun z hz => h z (List.mem_cons_of_mem _ hz), List.cons_append]

/-- Names in increasing order, all above those of a set, come behind them. -/
theorem NameSet.toList_foldl_insert {names : List String} (s : NameSet) (h : (s.toList ++ names).Pairwise (· < ·)) :
    (names.foldl insert s).toList = s.toList ++ names := by
  induction names generalizing s with
  | nil => simp
  | cons x names ih =>
    have hlast : (s.insert x).toList = s.toList ++ [x] :=
      insertName_of_forall_lt fun y hy => (List.pairwise_append.mp h).2.2 y hy x (List.mem_cons_self ..)
    have hrest : (s.insert x).toList ++ names = s.toList ++ x :: names := by rw [hlast, List.append_assoc, List.singleton_append]
    rw [List.foldl_cons, ih (s.insert x) (hrest ▸ h), hrest]

/-- The names of a set make up the set. -/
theorem NameSet.ofList_toList (s : NameSet) : ofList s.toList = s := by
  have h : (ofList s.toList).toList = s.toList := toList_foldl_insert empty s.increasing
  cases s
  rwa [← NameSet.mk.injEq] at h

/-! ## Tags -/

/-- A tag whose key is above all others comes last. -/
theorem insertTag_of_forall_lt {key value : String} {tags : List (String × String)} (h : ∀ p ∈ tags, p.1 < key) :
    insertTag key value tags = tags ++ [(key, value)] := by
  induction tags with
  | nil => rfl
  | cons p tags ih =>
    have hp : p.1 < key := h p (List.mem_cons_self ..)
    have hne : key ≠ p.1 := by
      rintro rfl
      exact String.lt_irrefl _ hp
    rw [insertTag, if_neg (String.lt_asymm hp), if_neg hne, ih fun q hq => h q (List.mem_cons_of_mem _ hq), List.cons_append]

/-- Tags in increasing order of their keys, all above those of a map, come behind them. -/
theorem TagMap.toList_foldl_insert {tags : List (String × String)} (m : TagMap)
    (h : (m.toList ++ tags).Pairwise fun p q => p.1 < q.1) :
    (tags.foldl (fun m p => m.insert p.1 p.2) m).toList = m.toList ++ tags := by
  induction tags generalizing m with
  | nil => simp
  | cons p tags ih =>
    have hlast : (m.insert p.1 p.2).toList = m.toList ++ [p] :=
      insertTag_of_forall_lt fun q hq => (List.pairwise_append.mp h).2.2 q hq p (List.mem_cons_self ..)
    have hrest : (m.insert p.1 p.2).toList ++ tags = m.toList ++ p :: tags := by
      rw [hlast, List.append_assoc, List.singleton_append]
    rw [List.foldl_cons, ih (m.insert p.1 p.2) (hrest ▸ h), hrest]

/-- The tags of a map make up the map. -/
theorem TagMap.ofList_toList (m : TagMap) : ofList m.toList = m := by
  have h : (ofList m.toList).toList = m.toList := toList_foldl_insert empty m.increasing
  cases m
  rwa [← TagMap.mk.injEq] at h

end PlacementTree
