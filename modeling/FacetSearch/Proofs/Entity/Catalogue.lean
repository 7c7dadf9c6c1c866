import FacetSearch.Entity.Catalogue
import Mathlib

set_option autoImplicit false

/-! # What a catalogue finds

The index of a catalogue finds what a search through its list would find: the first entity that answers
to the name (`find?_ofList`). Every insertion keeps the index true (`Indexes.insert`), so what is found
once is found ever after (`find?_first_inserted`). When no name is shared, an entity that is found under
any of its names is found under each of them (`find?_of_mem_names`). -/

namespace FacetSearch.Catalogue

/-! ## Owners -/

/-- A name with an owner keeps it, and the others of the list get the new one. -/
theorem getElem?_assignOwner (place : Nat) (owners : Std.ExtTreeMap String Nat)
    (names : List String) (name : String) :
    (assignOwner place owners names)[name]?
      = owners[name]?.or (if name ∈ names then some place else none) := by
  induction names generalizing owners with
  | nil => simp [assignOwner]
  | cons first rest ih =>
      have hfirst : (owners.insertIfNew first place)[name]?
          = owners[name]?.or (if name = first then some place else none) := by
        simp only [Std.ExtTreeMap.getElem?_insertIfNew, Std.LawfulEqCmp.compare_eq_iff_eq]
        by_cases hname : first = name
        · subst hname
          by_cases hmem : first ∈ owners <;> simp [hmem]
        · simp [hname, Ne.symm hname]
      rw [assignOwner, List.foldl_cons, ← assignOwner, ih, hfirst, Option.or_assoc]
      congr 1
      by_cases hname : name = first <;> simp [hname]

/-- The catalogue holds the entities, and each name stands at the first of them that answers to it. -/
structure Indexes (c : Catalogue) (entities : List Entity) : Prop where
  toList_entities : c.entities.toList = entities
  getElem?_owners : ∀ name, c.owners[name]? = entities.findIdx? (·.answersTo name)

variable {c : Catalogue} {entities : List Entity}

theorem indexes_empty : empty.Indexes [] := ⟨rfl, fun name => by simp [empty]⟩

/-- A name without an owner goes to the new entity, whose place is behind all others. -/
theorem Indexes.insert (h : c.Indexes entities) (e : Entity) :
    (c.insert e).Indexes (entities ++ [e]) := by
  have hsize : c.entities.size = entities.length := by
    rw [← Array.length_toList, h.toList_entities]
  refine ⟨by rw [Catalogue.insert, Array.toList_push, h.toList_entities], fun name => ?_⟩
  rw [Catalogue.insert, getElem?_assignOwner, h.getElem?_owners, List.findIdx?_append, hsize]
  congr 1
  by_cases hname : name ∈ e.names <;> simp [Entity.answersTo, hname]

theorem Indexes.foldl_insert (h : c.Indexes entities) (more : List Entity) :
    (more.foldl Catalogue.insert c).Indexes (entities ++ more) := by
  induction more generalizing c entities with
  | nil => rwa [List.append_nil]
  | cons e rest ih =>
      rw [List.foldl_cons, List.append_cons]
      exact ih (h.insert e)

theorem indexes_ofList (entities : List Entity) : (ofList entities).Indexes entities :=
  indexes_empty.foldl_insert entities

/-! ## Finding -/

theorem Indexes.find?_eq (h : c.Indexes entities) (name : String) :
    c.find? name = entities.find? (·.answersTo name) := by
  rw [find?, h.getElem?_owners, List.find?_eq_bind_findIdx?_getElem?, ← h.toList_entities]
  simp only [Array.getElem?_toList]

/-- **The owner of a name is the first entity that answers to it.** -/
theorem find?_ofList (entities : List Entity) (name : String) :
    (ofList entities).find? name = entities.find? (·.answersTo name) :=
  (indexes_ofList entities).find?_eq name

/-- The entity stands at the place, answers to the name, and is the first one that does. -/
def FirstAt (entities : List Entity) (name : String) (place : Nat) (e : Entity) : Prop :=
  entities[place]? = some e ∧ e.answersTo name = true ∧
    ∀ earlier ∈ entities.take place, earlier.answersTo name = false

theorem findIdx?_eq_some_iff_firstAt {name : String} {place : Nat} :
    entities.findIdx? (·.answersTo name) = some place ↔ ∃ e, FirstAt entities name place e := by
  rw [List.findIdx?_eq_some_iff_getElem]
  constructor
  · rintro ⟨hlt, hanswers, hnone⟩
    refine ⟨entities[place], List.getElem?_eq_getElem hlt, hanswers, fun earlier hearlier => ?_⟩
    obtain ⟨i, hi, rfl⟩ := List.mem_take_iff_getElem.1 hearlier
    exact Bool.eq_false_iff.2 (hnone i (by omega))
  · rintro ⟨e, hplace, hanswers, hnone⟩
    obtain ⟨hlt, rfl⟩ := List.getElem?_eq_some_iff.1 hplace
    refine ⟨hlt, hanswers, fun i hi => Bool.eq_false_iff.1 (hnone _ ?_)⟩
    exact List.mem_take_iff_getElem.2 ⟨i, by omega, rfl⟩

theorem find?_eq_some_iff_firstAt {name : String} {e : Entity} :
    entities.find? (·.answersTo name) = some e ↔ ∃ place, FirstAt entities name place e := by
  simp only [List.find?_eq_bind_findIdx?_getElem?, Option.bind_eq_some_iff,
    findIdx?_eq_some_iff_firstAt]
  constructor
  · rintro ⟨place, ⟨found, hfound⟩, hplace⟩
    obtain rfl := Option.some.inj (hfound.1.symm.trans hplace)
    exact ⟨place, hfound⟩
  · rintro ⟨place, hfirst⟩
    exact ⟨place, ⟨e, hfirst⟩, hfirst.1⟩

/-- No two entities share a name. -/
def NamesApart (entities : List Entity) : Prop :=
  entities.Pairwise fun e e' => ∀ name ∈ e.names, name ∉ e'.names

instance : DecidablePred NamesApart := fun entities =>
  inferInstanceAs (Decidable (entities.Pairwise _))

section

variable {entities : List Entity} {name : String} {e : Entity}

theorem mem_of_find?_ofList (h : (ofList entities).find? name = some e) :
    e ∈ entities ∧ name ∈ e.names := by
  rw [find?_ofList] at h
  refine ⟨List.mem_of_find?_eq_some h, ?_⟩
  have hanswers := List.find?_some h
  rwa [Entity.answersTo, List.contains_eq_mem, decide_eq_true_eq] at hanswers

theorem NamesApart.find?_of_mem_names (h : NamesApart entities) (he : e ∈ entities)
    (hname : name ∈ e.names) : (ofList entities).find? name = some e := by
  rw [find?_ofList]
  induction entities with
  | nil => exact absurd he (by simp)
  | cons first rest ih =>
      obtain ⟨hfirst, hrest⟩ := List.pairwise_cons.1 h
      rcases List.mem_cons.1 he with rfl | he
      · rw [List.find?_cons_of_pos]
        simpa [Entity.answersTo] using hname
      · rw [List.find?_cons_of_neg, ih hrest he]
        simpa [Entity.answersTo] using fun hshared => hfirst e he name hshared hname

theorem NamesApart.find?_identifier (h : NamesApart entities)
    (he : (ofList entities).find? name = some e) : (ofList entities).find? e.identifier = some e :=
  h.find?_of_mem_names (mem_of_find?_ofList he).1 (by simp [Entity.names])

end

/-! ## First matches -/

/-- **The index of names is a search for the first match.** However entities share identifiers, slugs and
    URIs, with each other or within one, a name leads to the first of them that was inserted and answers
    to it, and to none exactly when none does: the index holds the first place for every name that has
    one. Entities that are inserted later are found under the names that led nowhere before, and change
    no other answer. -/
theorem find?_first_inserted (entities later : List Entity) (name : String) :
    (∀ e, (ofList entities).find? name = some e ↔ ∃ place, FirstAt entities name place e) ∧
    ((ofList entities).find? name = none ↔ ∀ e ∈ entities, e.answersTo name = false) ∧
    (∀ place, (ofList entities).owners[name]? = some place ↔
      ∃ e, FirstAt entities name place e) ∧
    (later.foldl insert (ofList entities)).find? name
      = ((ofList entities).find? name).or (later.find? (·.answersTo name)) := by
  have hindex := indexes_ofList entities
  refine ⟨fun e => ?_, ?_, fun place => ?_, ?_⟩
  · rw [find?_ofList, find?_eq_some_iff_firstAt]
  · rw [find?_ofList, List.find?_eq_none]
    simp only [Bool.not_eq_true]
  · rw [hindex.getElem?_owners, findIdx?_eq_some_iff_firstAt]
  · rw [(hindex.foldl_insert later).find?_eq, hindex.find?_eq, List.find?_append]

end FacetSearch.Catalogue
