import FacetSearch.Proofs.Request.FormEncoding
import FacetSearch.Proofs.Request.Params
import FacetSearch.Proofs.Text.Trimming

set_option autoImplicit false

/-! # Requests and query texts

The parameters of a request are read back from the query text that they write (`parse_toQueryString`),
with their names and values in order, as long as no name comes twice and none is without a value
(`WellFormed`). Every request that was read is of that kind, and edits keep it so. -/

namespace FacetSearch.Params

/-- No name comes twice, and none is without a value. -/
structure WellFormed (p : Params) : Prop where
  distinct : p.DistinctNames
  valued : ∀ entry ∈ p.entries, entry.2 ≠ []

variable {p : Params} {name value : String}

/-! ## Edits -/

theorem mem_editEntries {f : List String → List String} {entries : List (String × List String)}
    {entry : String × List String} (h : entry ∈ editEntries name f entries) :
    entry ∈ entries ∨ ∃ held, entry = (name, f held) := by
  induction entries with
  | nil => exact .inr ⟨[], List.mem_singleton.1 h⟩
  | cons first rest ih =>
      obtain ⟨other, held⟩ := first
      rw [editEntries] at h
      split at h
      · rcases List.mem_cons.1 h with rfl | hrest
        · exact .inr ⟨held, rfl⟩
        · exact .inl (List.mem_cons_of_mem _ hrest)
      · rcases List.mem_cons.1 h with rfl | hrest
        · exact .inl (List.mem_cons_self ..)
        · exact (ih hrest).imp_left (List.mem_cons_of_mem _)

theorem WellFormed.edit (h : p.WellFormed) (name : String) {f : List String → List String}
    (hf : ∀ held, f held ≠ []) : (p.edit name f).WellFormed := by
  refine ⟨h.distinct.edit name f, fun entry hentry => ?_⟩
  rcases mem_editEntries hentry with hold | ⟨held, rfl⟩
  · exact h.valued entry hold
  · exact hf held

theorem WellFormed.push (h : p.WellFormed) (name value : String) : (p.push name value).WellFormed :=
  h.edit name (by simp)

theorem WellFormed.withSingle (h : p.WellFormed) (name value : String) :
    (p.withSingle name value).WellFormed :=
  h.edit name (by simp)

theorem WellFormed.without (h : p.WellFormed) (name : String) : (p.without name).WellFormed where
  distinct := h.distinct.sublist (List.filter_sublist.map _)
  valued entry hentry := h.valued entry (List.mem_filter.1 hentry).1

theorem WellFormed.withoutValue (h : p.WellFormed) (name value : String) :
    (p.withoutValue name value).WellFormed := by
  unfold Params.withoutValue
  dsimp only
  split
  · exact h.without name
  · next hkept => exact h.edit name fun _ => by simpa using hkept

/-- An entry without a value, wherever it stands under a name; a name that has no other goes with it. -/
def dropValue (name value : String) (entry : String × List String) : Option (String × List String) :=
  if entry.1 = name then
    if (entry.2.filter (· ≠ value)).isEmpty then none else some (name, entry.2.filter (· ≠ value))
  else some entry

theorem filterMap_dropValue_of_absent {rest : List (String × List String)}
    (h : name ∉ rest.map Prod.fst) : rest.filterMap (dropValue name value) = rest := by
  refine (List.filterMap_congr fun entry hentry => ?_).trans List.filterMap_some
  have hne : entry.1 ≠ name := fun he => h (he ▸ List.mem_map_of_mem hentry)
  rw [dropValue, if_neg hne]

/-- Removing a value from a list of entries. -/
theorem filterMap_dropValue {entries : List (String × List String)} (h : (entries.map Prod.fst).Nodup) :
    entries.filterMap (dropValue name value)
      = if (((entries.lookup name).getD []).filter (· ≠ value)).isEmpty then
          entries.filter (·.1 ≠ name)
        else editEntries name (fun _ => ((entries.lookup name).getD []).filter (· ≠ value)) entries := by
  induction entries with
  | nil => rfl
  | cons first rest ih =>
      obtain ⟨other, held⟩ := first
      obtain ⟨hother, hrest⟩ := List.nodup_cons.1 h
      by_cases hsame : other = name
      · subst hsame
        rw [List.lookup_cons_self, Option.getD_some, editEntries, if_pos rfl]
        by_cases hempty : (held.filter (· ≠ value)).isEmpty = true
        · -- the name goes, and stands nowhere else
          have hnone : rest.filter (·.1 ≠ other) = rest := List.filter_eq_self.2 fun entry hentry =>
            decide_eq_true fun he => hother (List.mem_map.2 ⟨entry, hentry, he⟩)
          rw [List.filterMap_cons_none (by rw [dropValue, if_pos rfl, if_pos hempty]),
            filterMap_dropValue_of_absent hother, if_pos hempty, List.filter_cons_of_neg (by simp), hnone]
        · rw [List.filterMap_cons_some (by rw [dropValue, if_pos rfl, if_neg hempty]),
            filterMap_dropValue_of_absent hother, if_neg hempty]
      · have hlookup : List.lookup name ((other, held) :: rest) = rest.lookup name := by
          rw [List.lookup_cons, beq_eq_false_iff_ne.2 (Ne.symm hsame)]
        rw [List.filterMap_cons_some (by rw [dropValue, if_neg hsame]), ih hrest, hlookup, editEntries,
          if_neg hsame, List.filter_cons_of_pos (by simpa using hsame), apply_ite (List.cons (other, held))]

/-- **Removing a value leaves all else unchanged and in order.** -/
theorem entries_withoutValue (h : p.DistinctNames) (name value : String) :
    (p.withoutValue name value).entries = p.entries.filterMap (dropValue name value) := by
  rw [filterMap_dropValue h]
  unfold Params.withoutValue values
  dsimp only
  split <;> rfl

/-! ## Reading -/

/-- Edits pass over what has other names. -/
theorem editEntries_append {f : List String → List String} {front rest : List (String × List String)}
    (h : name ∉ front.map Prod.fst) :
    editEntries name f (front ++ rest) = front ++ editEntries name f rest := by
  induction front with
  | nil => rfl
  | cons first front ih =>
      obtain ⟨other, held⟩ := first
      rw [List.map_cons, List.mem_cons, not_or] at h
      rw [List.cons_append, editEntries, if_neg (Ne.symm h.1), ih h.2, List.cons_append]

/-- The values of a name come after those that it has. -/
theorem foldl_push {front : List (String × List String)} (h : name ∉ front.map Prod.fst)
    (done held : List String) :
    (held.map fun value => (name, value)).foldl (fun (p : Params) pair => p.push pair.1 pair.2)
        ⟨front ++ [(name, done)]⟩
      = ⟨front ++ [(name, done ++ held)]⟩ := by
  induction held generalizing done with
  | nil => rw [List.append_nil, List.map_nil, List.foldl_nil]
  | cons value held ih =>
      rw [List.map_cons, List.foldl_cons, Params.push, Params.edit, editEntries_append h, editEntries,
        if_pos rfl, ih, List.append_assoc, List.singleton_append]

/-- Entries with new names come after those that are there. -/
theorem foldl_toPairs (front entries : List (String × List String))
    (hdistinct : ((front ++ entries).map Prod.fst).Nodup) (hvalued : ∀ entry ∈ entries, entry.2 ≠ []) :
    (toPairs ⟨entries⟩).foldl (fun (p : Params) pair => p.push pair.1 pair.2) ⟨front⟩
      = ⟨front ++ entries⟩ := by
  induction entries generalizing front with
  | nil => rw [List.append_nil]; rfl
  | cons entry rest ih =>
      obtain ⟨name, held⟩ := entry
      obtain ⟨value, held, rfl⟩ := List.exists_cons_of_ne_nil (hvalued _ (List.mem_cons_self ..))
      have hname : name ∉ front.map Prod.fst := by
        rw [List.map_append, List.map_cons, List.nodup_append] at hdistinct
        exact fun hmem => hdistinct.2.2 name hmem name (List.mem_cons_self ..) rfl
      have hfirst : (⟨front⟩ : Params).push name value = ⟨front ++ [(name, [value])]⟩ := by
        have happend : editEntries name (· ++ [value]) (front ++ []) = front ++ [(name, [value])] :=
          editEntries_append hname
        rw [Params.push, Params.edit, ← happend, List.append_nil]
      have hpairs : toPairs ⟨(name, value :: held) :: rest⟩
          = (name, value) :: ((held.map fun value => (name, value)) ++ toPairs ⟨rest⟩) := rfl
      rw [hpairs, List.foldl_cons, List.foldl_append, hfirst, foldl_push hname, List.singleton_append]
      refine (ih _ ?_ fun entry hentry => hvalued entry (List.mem_cons_of_mem _ hentry)).trans ?_
      · rwa [List.append_assoc, List.singleton_append]
      · rw [List.append_assoc, List.singleton_append]

theorem ofPairs_toPairs (h : p.WellFormed) : ofPairs p.toPairs = p :=
  foldl_toPairs [] p.entries h.distinct h.valued

theorem wellFormed_ofPairs (pairs : List (String × String)) : (ofPairs pairs).WellFormed := by
  have hnew : ({} : Params).WellFormed := ⟨List.nodup_nil, by simp⟩
  unfold ofPairs
  generalize ({} : Params) = p at hnew
  induction pairs generalizing p with
  | nil => exact hnew
  | cons pair rest ih => exact ih _ (hnew.push pair.1 pair.2)

/-- **Every request that is read is well-formed.** -/
theorem wellFormed_parse (query : String) : (parse query).WellFormed := wellFormed_ofPairs _

/-- A query text is read as it is: it has nothing around it that would not count. -/
theorem dropWhile_trimChars_encode (pairs : List (String × String)) :
    (Text.trimChars (FormEncoding.encode pairs).toList).dropWhile (· = '?')
      = (FormEncoding.encode pairs).toList := by
  have htrimmed : Text.Trimmed (FormEncoding.encode pairs).toList :=
    ⟨fun c hc => (FormEncoding.not_blank_of_mem_encode (List.mem_of_mem_head? hc)).1,
      fun c hc => (FormEncoding.not_blank_of_mem_encode (List.mem_of_mem_getLast? hc)).1⟩
  rw [Text.trimChars_eq_self_iff.2 htrimmed]
  cases hquery : (FormEncoding.encode pairs).toList with
  | nil => rfl
  | cons c rest =>
      have hmark := (FormEncoding.not_blank_of_mem_encode (hquery ▸ List.mem_cons_self ..)).2
      rw [List.dropWhile_cons_of_neg (by simpa using hmark)]

/-- **What a request writes is read back as the request.** -/
theorem parse_toQueryString (h : p.WellFormed) : parse p.toQueryString = p := by
  rw [parse, toQueryString, dropWhile_trimChars_encode, FormEncoding.decode_encode, ofPairs_toPairs h]

end FacetSearch.Params
