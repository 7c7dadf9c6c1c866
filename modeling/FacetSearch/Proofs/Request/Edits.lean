import FacetSearch.Proofs.Request.QueryText

set_option autoImplicit false

/-! # Edits of requests

Links are made of edits, each about one name. An edit leaves the entries of all other names as they are
and in their order (`filter_ne_apply`), so that what it does is told by the values of its own name.
Requests that come of pairs or of a query text by edits (`Reached`) have a value under every name they
list, which is why a value can be added and taken away again without a trace. -/

namespace FacetSearch.Params

/-! ## Edits as data -/

/-- A step from one request to the next. -/
inductive Edit where
  | push (name value : String)
  | withValue (name value : String)
  | withoutValue (name value : String)
  | replaceValue (name old new : String)
  | withSingle (name value : String)
  | without (name : String)
deriving DecidableEq, Repr

namespace Edit

/-- The name whose values change. -/
def name : Edit → String
  | push name _ | withValue name _ | withoutValue name _ | replaceValue name _ _ | withSingle name _
  | without name => name

def apply (p : Params) : Edit → Params
  | push name value => p.push name value
  | withValue name value => p.withValue name value
  | withoutValue name value => p.withoutValue name value
  | replaceValue name old new => p.replaceValue name old new
  | withSingle name value => p.withSingle name value
  | without name => p.without name

/-- What becomes of the values of that name. -/
def act : Edit → List String → List String
  | push _ value, held => held ++ [value]
  | withValue _ value, held => if value ∈ held then held else held ++ [value]
  | withoutValue _ value, held => held.filter (· ≠ value)
  | replaceValue _ old new, held => dropRepeats (swapFirst old new held)
  | withSingle _ value, _ => [value]
  | without _, _ => []

end Edit

/-- The request comes of pairs or of a query text by edits. -/
inductive Reached : Params → Prop
  | ofPairs (pairs : List (String × String)) : Reached (ofPairs pairs)
  | parse (query : String) : Reached (parse query)
  | edit {p : Params} (h : Reached p) (e : Edit) : Reached (e.apply p)

/-- The names that are listed, in order. -/
def names (p : Params) : List String := p.entries.map Prod.fst

variable {p : Params} {name value name' value' old new : String}

theorem eq_of_entries {p p' : Params} (h : p.entries = p'.entries) : p = p' := by
  cases p
  exact congrArg Params.mk h

/-! ## Values of one name -/

theorem mem_dropRepeats_iff {held : List String} : value ∈ dropRepeats held ↔ value ∈ held := by
  induction held using dropRepeats.induct with
  | case1 => rfl
  | case2 first => rfl
  | case3 first rest ih =>
      rw [dropRepeats, if_pos rfl, ih]
      simp
  | case4 first next rest hne ih =>
      rw [dropRepeats, if_neg hne, List.mem_cons, List.mem_cons, ih]

/-- Only the first `old` gives way, so that another one stays. -/
theorem mem_swapFirst_iff {held : List String} :
    value ∈ swapFirst old new held
      ↔ value = new ∨ value ∈ held ∧ ¬ (value = old ∧ held.count old = 1) := by
  induction held with
  | nil => simp [swapFirst]
  | cons first rest ih =>
      rw [swapFirst]
      by_cases hfirst : first = old
      · subst hfirst
        have hcount : (first :: rest).count first = 1 ↔ first ∉ rest := by
          rw [List.count_cons_self, ← List.count_eq_zero]
          omega
        rw [if_pos rfl, List.mem_cons, List.mem_cons, hcount]
        by_cases hvalue : value = first
        · subst hvalue
          simp
        · simp [hvalue]
      · rw [if_neg hfirst, List.mem_cons, ih, List.mem_cons, List.count_cons_of_ne hfirst]
        by_cases hvalue : value = first
        · simp [hvalue, hfirst]
        · simp [hvalue]

theorem mem_values_replaceValue_iff :
    value ∈ (p.replaceValue name old new).values name
      ↔ value = new ∨ value ∈ p.values name ∧ ¬ (value = old ∧ (p.values name).count old = 1) := by
  rw [replaceValue, values_edit, mem_dropRepeats_iff, mem_swapFirst_iff]

/-! ## Well-formed requests -/

theorem WellFormed.replaceValue (h : p.WellFormed) (name old new : String) :
    (p.replaceValue name old new).WellFormed :=
  h.edit name fun held => List.ne_nil_of_mem (a := new) <| by
    rw [mem_dropRepeats_iff, mem_swapFirst_iff]
    exact .inl rfl

theorem WellFormed.withValue (h : p.WellFormed) (name value : String) :
    (p.withValue name value).WellFormed := by
  unfold Params.withValue
  split
  · exact h
  · exact h.push name value

theorem WellFormed.apply (h : p.WellFormed) (e : Edit) : (e.apply p).WellFormed := by
  cases e with
  | push name value => exact h.push name value
  | withValue name value => exact h.withValue name value
  | withoutValue name value => exact h.withoutValue name value
  | replaceValue name old new => exact h.replaceValue name old new
  | withSingle name value => exact h.withSingle name value
  | without name => exact h.without name

theorem Reached.wellFormed (h : p.Reached) : p.WellFormed := by
  induction h with
  | ofPairs pairs => exact wellFormed_ofPairs pairs
  | parse query => exact wellFormed_parse query
  | edit _ e ih => exact ih.apply e

/-- A listed name has a value. -/
theorem WellFormed.contains_iff (h : p.WellFormed) (name : String) :
    p.contains name = true ↔ name ∈ p.names := by
  have hempty : p.contains name = true ↔ p.values name ≠ [] := by
    simp [contains]
  rw [hempty]
  constructor
  · intro hvalues
    have hmem := (p.mem_or_values_eq_nil name).resolve_right hvalues
    exact List.mem_map_of_mem (f := Prod.fst) hmem
  · intro hname
    obtain ⟨⟨_, held⟩, hentry, rfl⟩ := List.mem_map.1 hname
    rw [values_of_mem h.distinct hentry]
    exact h.valued _ hentry

/-! ## The name of an edit -/

theorem values_without (p : Params) (name : String) : (p.without name).values name = [] := by
  have hnone : (p.without name).entries.lookup name = none :=
    List.lookup_eq_none_iff.2 fun entry hentry =>
      bne_iff_ne.2 (of_decide_eq_true (List.mem_filter.1 hentry).2).symm
  rw [values, hnone, Option.getD_none]

theorem values_apply_self (p : Params) (e : Edit) :
    (e.apply p).values e.name = e.act (p.values e.name) := by
  cases e with
  | push name value => exact values_edit p name _
  | withValue name value =>
      rw [Edit.apply, Edit.name, Edit.act, withValue]
      simp only [List.contains_eq_mem, decide_eq_true_eq]
      split
      · rfl
      · exact values_edit p name _
  | withoutValue name value =>
      rw [Edit.apply, Edit.name, Edit.act, withoutValue]
      split
      · next hkept => rw [values_without, List.isEmpty_iff.1 hkept]
      · exact values_edit p name _
  | replaceValue name old new => exact values_edit p name _
  | withSingle name value => exact values_edit p name _
  | without name => exact values_without p name

/-! ## Other names -/

theorem filter_ne_editEntries (name : String) (f : List String → List String)
    (entries : List (String × List String)) :
    (editEntries name f entries).filter (·.1 ≠ name) = entries.filter (·.1 ≠ name) := by
  induction entries with
  | nil => simp [editEntries]
  | cons entry rest ih =>
      obtain ⟨other, held⟩ := entry
      rw [editEntries]
      by_cases hother : other = name
      · simp [hother]
      · rw [if_neg hother, List.filter_cons, List.filter_cons, ih]

theorem filter_ne_edit (f : List String → List String) :
    (p.edit name f).entries.filter (·.1 ≠ name) = p.entries.filter (·.1 ≠ name) :=
  filter_ne_editEntries name f p.entries

theorem filter_ne_without :
    (p.without name).entries.filter (·.1 ≠ name) = p.entries.filter (·.1 ≠ name) := by
  simp [without, List.filter_filter]

/-- **The entries of other names stay as they are, in their order.** -/
theorem filter_ne_apply (p : Params) (e : Edit) :
    (e.apply p).entries.filter (·.1 ≠ e.name) = p.entries.filter (·.1 ≠ e.name) := by
  cases e with
  | push name value => exact filter_ne_edit _
  | withValue name value =>
      rw [Edit.apply, Edit.name, withValue]
      split
      · rfl
      · exact filter_ne_edit _
  | withoutValue name value =>
      rw [Edit.apply, Edit.name, withoutValue]
      split
      · exact filter_ne_without
      · exact filter_ne_edit _
  | replaceValue name old new => exact filter_ne_edit _
  | withSingle name value => exact filter_ne_edit _
  | without name => exact filter_ne_without

theorem lookup_filter_ne {other : String} (h : other ≠ name) (entries : List (String × List String)) :
    (entries.filter (·.1 ≠ name)).lookup other = entries.lookup other := by
  induction entries with
  | nil => rfl
  | cons entry rest ih =>
      obtain ⟨first, held⟩ := entry
      by_cases hfirst : first = name
      · rw [List.filter_cons_of_neg (by simpa using hfirst), ih, List.lookup_cons,
          beq_eq_false_iff_ne.2 (hfirst ▸ h)]
      · rw [List.filter_cons_of_pos (by simpa using hfirst), List.lookup_cons, List.lookup_cons, ih]

theorem values_apply_of_ne (p : Params) (e : Edit) {other : String} (h : other ≠ e.name) :
    (e.apply p).values other = p.values other := by
  unfold values
  rw [← lookup_filter_ne h, filter_ne_apply, lookup_filter_ne h]

theorem names_apply_filter_ne (p : Params) (e : Edit) :
    (e.apply p).names.filter (· ≠ e.name) = p.names.filter (· ≠ e.name) := by
  unfold names
  have hcomp (entries : List (String × List String)) :
      (entries.map Prod.fst).filter (· ≠ e.name) = (entries.filter (·.1 ≠ e.name)).map Prod.fst :=
    List.filter_map
  rw [hcomp, hcomp, filter_ne_apply]

/-! ## Adding and removing -/

theorem withValue_withValue (p : Params) (name value : String) :
    (p.withValue name value).withValue name value = p.withValue name value := by
  have hmem : ((p.withValue name value).values name).contains value = true := by
    unfold withValue
    split
    · assumption
    · rw [push, values_edit]
      simp
  rw [withValue, if_pos hmem]

/-- A value behind those of its name goes, and its name too if it was put there for it. -/
theorem filterMap_dropValue_editEntries {entries : List (String × List String)}
    (hdistinct : (entries.map Prod.fst).Nodup) (hvalued : ∀ entry ∈ entries, entry.2 ≠ [])
    (habsent : value ∉ (entries.lookup name).getD []) :
    (editEntries name (· ++ [value]) entries).filterMap (dropValue name value) = entries := by
  induction entries with
  | nil => simp [editEntries, dropValue]
  | cons entry rest ih =>
      obtain ⟨other, held⟩ := entry
      obtain ⟨hother, hrest⟩ := List.nodup_cons.1 hdistinct
      rw [editEntries]
      by_cases hsame : other = name
      · subst hsame
        rw [List.lookup_cons_self, Option.getD_some] at habsent
        have hkept : (held ++ [value]).filter (· ≠ value) = held := by
          have hall : held.filter (· ≠ value) = held := List.filter_eq_self.2 fun kept hmem =>
            decide_eq_true fun (he : kept = value) => habsent (he ▸ hmem)
          rw [List.filter_append, hall]
          simp
        -- the name was there before, so it had a value and stays
        have hne : held ≠ [] := hvalued _ (List.mem_cons_self ..)
        have hdrop : dropValue other value (other, held ++ [value]) = some (other, held) := by
          rw [dropValue, if_pos rfl, hkept, if_neg (by simpa using hne)]
        rw [if_pos rfl, List.filterMap_cons_some hdrop, filterMap_dropValue_of_absent hother]
      · rw [List.lookup_cons, beq_eq_false_iff_ne.2 (Ne.symm hsame)] at habsent
        have hdrop : dropValue name value (other, held) = some (other, held) := by
          rw [dropValue, if_neg hsame]
        rw [if_neg hsame, List.filterMap_cons_some hdrop,
          ih hrest (fun entry hentry => hvalued entry (List.mem_cons_of_mem _ hentry)) habsent]

theorem WellFormed.withoutValue_withValue (h : p.WellFormed) (habsent : value ∉ p.values name) :
    (p.withValue name value).withoutValue name value = p := by
  have hpush : p.withValue name value = p.push name value := by
    rw [Params.withValue, if_neg (by simpa using habsent)]
  have hentries : ((p.push name value).withoutValue name value).entries = p.entries := by
    rw [entries_withoutValue (h.push name value).distinct]
    exact filterMap_dropValue_editEntries h.distinct h.valued habsent
  rw [hpush]
  exact eq_of_entries hentries

theorem dropValue_of_ne {entry : String × List String} (h : entry.1 ≠ name) :
    dropValue name value entry = some entry :=
  if_neg h

theorem fst_of_dropValue {entry kept : String × List String} (h : dropValue name value entry = some kept) :
    kept.1 = entry.1 := by
  rw [dropValue] at h
  split at h
  · next hname =>
    split at h
    · exact absurd h (by simp)
    · exact Option.some.inj h ▸ hname.symm
  · exact Option.some.inj h ▸ rfl

/-- Two values of one name go together, whichever is first. -/
theorem dropValue_bind_self (name value value' : String) (held : List String) :
    (dropValue name value (name, held)).bind (dropValue name value')
      = if (held.filter fun kept => kept ≠ value ∧ kept ≠ value').isEmpty then none
        else some (name, held.filter fun kept => kept ≠ value ∧ kept ≠ value') := by
  have htwice : (held.filter (· ≠ value)).filter (· ≠ value')
      = held.filter fun kept => kept ≠ value ∧ kept ≠ value' := by
    rw [List.filter_filter]
    exact List.filter_congr fun kept _ => by simp [Bool.and_comm]
  rw [← htwice, dropValue, if_pos rfl]
  by_cases hnone : (held.filter (· ≠ value)).isEmpty = true
  · rw [if_pos hnone, List.isEmpty_iff.1 hnone]
    rfl
  · rw [if_neg hnone, Option.bind_some, dropValue, if_pos rfl]

theorem dropValue_bind_of_ne {entry : String × List String} (h : entry.1 ≠ name') :
    (dropValue name value entry).bind (dropValue name' value') = dropValue name value entry := by
  cases hdrop : dropValue name value entry with
  | none => rfl
  | some kept => exact dropValue_of_ne (fst_of_dropValue hdrop ▸ h)

theorem dropValue_comm (name value name' value' : String) (entry : String × List String) :
    (dropValue name value entry).bind (dropValue name' value')
      = (dropValue name' value' entry).bind (dropValue name value) := by
  by_cases hname : entry.1 = name
  · by_cases hname' : entry.1 = name'
    · obtain ⟨other, held⟩ := entry
      subst hname hname'
      simp only [dropValue_bind_self, and_comm]
    · rw [dropValue_bind_of_ne hname', dropValue_of_ne hname', Option.bind_some]
  · rw [dropValue_bind_of_ne hname, dropValue_of_ne hname, Option.bind_some]

theorem WellFormed.withoutValue_comm (h : p.WellFormed) (name value name' value' : String) :
    (p.withoutValue name value).withoutValue name' value'
      = (p.withoutValue name' value').withoutValue name value := by
  have hentries (name value name' value' : String) :
      ((p.withoutValue name value).withoutValue name' value').entries
        = p.entries.filterMap fun entry =>
            (dropValue name value entry).bind (dropValue name' value') := by
    rw [entries_withoutValue (h.withoutValue name value).distinct, entries_withoutValue h.distinct,
      List.filterMap_filterMap]
  refine eq_of_entries ?_
  rw [hentries, hentries]
  exact List.filterMap_congr fun entry _ => dropValue_comm ..

/-! ## Laws of edits -/

/-- **Edits touch their own name only.** A request that is reached lists no name twice and none without
    a value, so it contains what it lists. An edit changes the values of its name as its kind says; all
    other names keep their values and their order. Adding a value twice is adding it once, removing a
    value that was added anew leaves no trace, and removals may come in any order. Where `new` takes the
    place of `old`, no other value is lost, and `old` itself only if it stood there once. -/
theorem edits_touch_their_name (h : p.Reached) :
    p.names.Nodup ∧ (∀ entry ∈ p.entries, entry.2 ≠ []) ∧
    (∀ name, p.contains name = true ↔ name ∈ p.names) ∧
    (∀ e : Edit, (e.apply p).values e.name = e.act (p.values e.name) ∧
      (∀ other, other ≠ e.name → (e.apply p).values other = p.values other) ∧
      (e.apply p).names.filter (· ≠ e.name) = p.names.filter (· ≠ e.name)) ∧
    (∀ name value, (p.withValue name value).withValue name value = p.withValue name value) ∧
    (∀ name value, value ∉ p.values name → (p.withValue name value).withoutValue name value = p) ∧
    (∀ name value name' value', (p.withoutValue name value).withoutValue name' value'
      = (p.withoutValue name' value').withoutValue name value) ∧
    (∀ name old new value, value ∈ (p.replaceValue name old new).values name ↔
      value = new ∨ value ∈ p.values name ∧ ¬ (value = old ∧ (p.values name).count old = 1)) := by
  have hformed := h.wellFormed
  refine ⟨hformed.distinct, hformed.valued, hformed.contains_iff, fun e => ?_, withValue_withValue p,
    fun name value habsent => hformed.withoutValue_withValue habsent, hformed.withoutValue_comm,
    fun name old new value => mem_values_replaceValue_iff⟩
  exact ⟨values_apply_self p e, fun other hother => values_apply_of_ne p e hother,
    names_apply_filter_ne p e⟩

/-- A request for sherds of two wares, one of which it names twice. -/
def sherdParams : Params :=
  Edit.apply (ofPairs [("prop", "ware"), ("rows", "10"), ("prop", "rim"), ("prop", "ware")])
    (.replaceValue "rows" "10" "20")

/-- One of two equal values gives way and the other stays, and a new value goes as it came. -/
theorem edits_touch_their_name_sherdParams :
    sherdParams.Reached ∧ "base" ∉ sherdParams.values "prop" ∧
    (sherdParams.withValue "prop" "base").withoutValue "prop" "base" = sherdParams ∧
    "ware" ∈ (sherdParams.replaceValue "prop" "ware" "rim").values "prop" ∧
    "rows" ≠ "prop" ∧ (sherdParams.without "prop").values "rows" = ["20"] := by
  have hreached : sherdParams.Reached := (Reached.ofPairs _).edit _
  obtain ⟨-, -, -, hedit, -, hundone, -, hreplaced⟩ := edits_touch_their_name hreached
  have habsent : "base" ∉ sherdParams.values "prop" := by decide
  refine ⟨hreached, habsent, hundone _ _ habsent, (hreplaced _ _ _ _).2 (.inr (by decide)), by decide, ?_⟩
  exact (hedit (.without "prop")).2.1 "rows" (by decide)

end FacetSearch.Params
