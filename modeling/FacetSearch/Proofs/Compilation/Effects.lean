import FacetSearch.Proofs.Compilation.Families
import FacetSearch.Proofs.Compilation.Narrowing
import Mathlib

set_option autoImplicit false

/-! # Effects of parameters

A query holds two sorts of things: slots, each of which at most one parameter of a request writes, and
entries of sets that all parameters add to. What a parameter does to a query (`Effect`) reads and writes
no slots but its own, and adds the same entries to every query. No slot belongs to two parameters, since
no field belongs to two hierarchies, so effects of different parameters can be exchanged
(`Effect.comm`). Whether a parameter is refused does not depend on the query either
(`acts_parameter`). -/

namespace FacetSearch

/-! ## Joined fragments -/

theorem Clause.mem_texts_add {clauses : List Clause} {c : Clause} {text : String} :
    text ∈ texts (add clauses c) ↔ text ∈ texts clauses ∨ text = c.text := by
  unfold add
  split
  · next hheld =>
    refine ⟨.inl, fun h => h.elim id ?_⟩
    rintro rfl
    exact List.contains_iff_mem.1 hheld
  · simp [texts]

theorem Clause.mem_texts_foldl_add {clauses new : List Clause} {text : String} :
    text ∈ texts (new.foldl add clauses) ↔ text ∈ texts clauses ∨ text ∈ texts new := by
  induction new generalizing clauses with
  | nil => simp [texts]
  | cons c rest ih =>
      rw [List.foldl_cons, ih, mem_texts_add, or_assoc]
      simp only [texts, List.map_cons, List.mem_cons]

namespace Fragment

theorem mem_foldl_addNew {held new : List String} {text : String} :
    text ∈ new.foldl addNew held ↔ text ∈ held ∨ text ∈ new := by
  induction new generalizing held with
  | nil => simp
  | cons first rest ih =>
      have hfirst : text ∈ addNew held first ↔ text ∈ held ∨ text = first := by
        unfold addNew
        split
        · next hheld =>
          refine ⟨.inl, fun h => h.elim id ?_⟩
          rintro rfl
          exact List.contains_iff_mem.1 hheld
        · simp
      rw [List.foldl_cons, ih, hfirst, or_assoc, List.mem_cons]

variable {held held' : Std.ExtTreeMap String RangeRequest} {field : String}

theorem getElem?_addRange (held : Std.ExtTreeMap String RangeRequest) (name : String)
    (range : RangeRequest) :
    (addRange held name range)[field]? = if name = field then
      held[field]?.merge RangeRequest.union (some range) else held[field]? := by
  by_cases hname : name = field
  · subst hname
    unfold addRange
    split <;> simp_all
  · have hne : compare name field ≠ .eq := fun he => hname (Std.LawfulEqCmp.compare_eq_iff_eq.1 he)
    unfold addRange
    rw [if_neg hname]
    split <;> rw [Std.ExtTreeMap.getElem?_insert, if_neg hne]

theorem getElem?_eq_find?_toList (ranges : Std.ExtTreeMap String RangeRequest) :
    ranges[field]? = (ranges.toList.find? (·.1 = field)).map (·.2) := by
  cases hfind : ranges.toList.find? (·.1 = field) with
  | none =>
      refine Option.eq_none_iff_forall_ne_some.2 fun range hrange => ?_
      have hmem := Std.ExtTreeMap.mem_toList_iff_getElem?_eq_some.2 hrange
      exact List.find?_eq_none.1 hfind _ hmem (decide_eq_true rfl)
  | some range =>
      have hname := List.find?_some hfind
      have hmem := List.mem_of_find?_eq_some hfind
      rw [decide_eq_true_eq] at hname
      rw [← hname]
      exact Std.ExtTreeMap.mem_toList_iff_getElem?_eq_some.1 hmem

/-- Joining ranges to those that are held looks at each field alone. -/
theorem getElem?_foldl_addRange (held ranges : Std.ExtTreeMap String RangeRequest) :
    (ranges.foldl addRange held)[field]?
      = held[field]?.merge RangeRequest.union ranges[field]? := by
  have hdistinct := ranges.distinct_keys_toList
  rw [Std.ExtTreeMap.foldl_eq_foldl_toList, getElem?_eq_find?_toList ranges]
  generalize ranges.toList = l at hdistinct
  induction hdistinct generalizing held with
  | nil => simp
  | @cons range rest hapart _ ih =>
      rw [List.foldl_cons, ih, getElem?_addRange, List.find?_cons]
      by_cases hname : range.1 = field
      · -- the other ranges are of other fields
        have hrest : rest.find? (·.1 = field) = none := by
          refine List.find?_eq_none.2 fun other hother hsame => ?_
          rw [decide_eq_true_eq] at hsame
          exact hapart other hother (Std.LawfulEqCmp.compare_eq_iff_eq.2 (hname.trans hsame.symm))
        rw [hrest, if_pos hname, decide_eq_true hname, Option.map_none, Option.merge_none_right]
        rfl
      · rw [if_neg hname, decide_eq_false hname]

theorem getElem?_foldl_addRange_congr (ranges : Std.ExtTreeMap String RangeRequest)
    (h : held[field]? = held'[field]?) :
    (ranges.foldl addRange held)[field]? = (ranges.foldl addRange held')[field]? := by
  rw [getElem?_foldl_addRange, getElem?_foldl_addRange, h]

theorem getElem?_foldl_addRange_of_not_mem {ranges : Std.ExtTreeMap String RangeRequest}
    (h : field ∉ ranges) : (ranges.foldl addRange held)[field]? = held[field]? := by
  rw [getElem?_foldl_addRange, Std.ExtTreeMap.getElem?_eq_none h, Option.merge_none_right]

theorem mem_foldl_addRange {ranges : Std.ExtTreeMap String RangeRequest} :
    field ∈ ranges.foldl addRange held ↔ field ∈ held ∨ field ∈ ranges := by
  simp only [Std.ExtTreeMap.mem_iff_isSome_getElem?, getElem?_foldl_addRange]
  cases held[field]? <;> cases ranges[field]? <;> simp

theorem mem_ranges_anyOf {fragments : List Fragment} :
    field ∈ (anyOf fragments).ranges ↔ ∃ f ∈ fragments, field ∈ f.ranges := by
  have hfold : field ∈ (fragments.foldl absorb .empty).ranges ↔
      field ∈ empty.ranges ∨ ∃ f ∈ fragments, field ∈ f.ranges :=
    foldl_absorb_iff (P := fun f => field ∈ f.ranges) fun _ _ => mem_foldl_addRange
  exact hfold.trans (or_iff_right Std.ExtTreeMap.not_mem_empty)

end Fragment

theorem CompiledQuery.mem_ranges_requireOneOf {q : CompiledQuery} {fragments : List Fragment}
    {field : String} : field ∈ (q.requireOneOf fragments).fragment.ranges ↔
      field ∈ q.fragment.ranges ∨ ∃ f ∈ fragments, field ∈ f.ranges := by
  rw [← Fragment.mem_ranges_anyOf]
  exact Fragment.mem_foldl_addRange

/-! ## What a query holds -/

/-- A place of a query that at most one parameter of a request writes. -/
inductive Slot where
  | query
  | sort
  | rows
  | start
  | returnFields
  | chronoDepth
  | geoDepth
  /-- What a facet field stands for. -/
  | facet (field : String)
  /-- How far a range has come. -/
  | range (field : String)
  /-- The buckets over a range. -/
  | buckets (field : String)

/-- A member of one of the sets that parameters add to. -/
inductive Entry where
  | clause (text : String)
  | facetField (field : String)
  | statsField (field : String)
  | awaited (field : String)
  | highlight (text : String)
  | unresolved (name : String)
  | rejected (filter : RejectedFilter)

/-- What a slot can hold. -/
def Slot.Content : Slot → Type
  | query => String
  | sort => List SortTerm
  | rows | start => Nat
  | returnFields => List String
  | chronoDepth | geoDepth => Option Nat
  | facet _ => Option FacetMeta
  | range _ => Option RangeState
  | buckets _ => Option RangeRequest

/-- The slot is written by the parameter of a name. -/
def Slot.OwnedBy (name : String) : Slot → Prop
  | query => name = Parameter.text.name
  | sort => name = Parameter.sort.name
  | rows => name = Parameter.rows.name
  | start => name = Parameter.start.name
  | returnFields => name = Parameter.attributes.name
  | chronoDepth => name = (Parameter.depth .chrono).name
  | geoDepth => name = (Parameter.depth .geo).name
  | facet field | range field | buckets field =>
    ∃ family : FieldFamily, name = (Parameter.levels family).name ∧ family.Names field

/-- **No slot belongs to two parameters.** -/
theorem Slot.eq_of_ownedBy {slot : Slot} {name name' : String} (h : slot.OwnedBy name)
    (h' : slot.OwnedBy name') : name = name' := by
  cases slot with
  | facet field | range field | buckets field =>
      obtain ⟨family, rfl, hnames⟩ := h
      obtain ⟨family', rfl, hnames'⟩ := h'
      rw [FieldFamily.eq_of_names hnames hnames']
  | _ => exact Eq.trans h (Eq.symm h')

namespace CompiledQuery

/-- What a query has in a slot. -/
def slot (q : CompiledQuery) : (s : Slot) → s.Content
  | .query => q.query
  | .sort => q.sort
  | .rows => q.rows
  | .start => q.start
  | .returnFields => q.returnFields
  | .chronoDepth => q.chronoDepth
  | .geoDepth => q.geoDepth
  | .facet field => q.facets[field]?
  | .range field => q.ranges[field]?
  | .buckets field => q.fragment.ranges[field]?

/-- The entry is in its set. -/
def Has (q : CompiledQuery) : Entry → Prop
  | .clause text => text ∈ Clause.texts q.fragment.clauses
  | .facetField field => field ∈ q.fragment.facetFields
  | .statsField field => field ∈ q.fragment.statsFields
  | .awaited field => field ∈ q.fragment.awaited
  | .highlight text => text ∈ q.fragment.highlights
  | .unresolved name => name ∈ q.unresolved
  | .rejected filter => filter ∈ q.rejected

/-- Put something into a slot. -/
def write (q : CompiledQuery) : (s : Slot) → s.Content → CompiledQuery
  | .query, text => { q with query := text }
  | .sort, terms => { q with sort := terms }
  | .rows, count => { q with rows := count }
  | .start, count => { q with start := count }
  | .returnFields, fields => { q with returnFields := fields }
  | .chronoDepth, depth => { q with chronoDepth := depth }
  | .geoDepth, depth => { q with geoDepth := depth }
  | .facet field, facet => { q with facets := q.facets.alter field fun _ => facet }
  | .range field, state => { q with ranges := q.ranges.alter field fun _ => state }
  | .buckets field, range =>
    { q with fragment := { q.fragment with ranges := q.fragment.ranges.alter field fun _ => range } }

theorem slot_write_self (q : CompiledQuery) (s : Slot) (x : s.Content) : (q.write s x).slot s = x := by
  cases s with
  | facet field | range field | buckets field => exact Std.ExtTreeMap.getElem?_alter_self
  | _ => rfl

theorem slot_write_of_ne {s s' : Slot} (h : s' ≠ s) (q : CompiledQuery) (x : s.Content) :
    (q.write s x).slot s' = q.slot s' := by
  have hkey {α : Type} (m : Std.ExtTreeMap String α) (field field' : String) (x : Option α)
      (hne : field' ≠ field) : (m.alter field fun _ => x)[field']? = m[field']? := by
    rw [Std.ExtTreeMap.getElem?_alter,
      if_neg fun he => hne (Std.LawfulEqCmp.compare_eq_iff_eq.1 he).symm]
  cases s <;> cases s' <;> first
    | rfl
    | exact absurd rfl h
    | exact hkey _ _ _ _ fun he => h (he ▸ rfl)

/-- Writing something that follows from a slot reads no other. -/
theorem slot_write_congr {q q' : CompiledQuery} {s s' : Slot} (f : s.Content → s.Content)
    (h : q.slot s' = q'.slot s') :
    (q.write s (f (q.slot s))).slot s' = (q'.write s (f (q'.slot s))).slot s' := by
  by_cases hs : s' = s
  · subst hs
    rw [q.slot_write_self, q'.slot_write_self, h]
  · rw [q.slot_write_of_ne hs, q'.slot_write_of_ne hs, h]

theorem has_write (q : CompiledQuery) (s : Slot) (x : s.Content) (entry : Entry) :
    (q.write s x).Has entry ↔ q.Has entry := by
  cases s <;> cases entry <;> rfl

theorem addFacet_eq_write (q : CompiledQuery) (m : FacetMeta) :
    q.addFacet m = q.write (.facet m.field) (q.facets[m.field]?.or (some m)) := by
  have hfacets : q.facets.insertIfNew m.field m
      = q.facets.alter m.field fun _ => q.facets[m.field]?.or (some m) := by
    refine Std.ExtTreeMap.ext_getElem? fun field => ?_
    rw [Std.ExtTreeMap.getElem?_insertIfNew, Std.ExtTreeMap.getElem?_alter]
    by_cases hfield : m.field = field
    · subst hfield
      by_cases hheld : m.field ∈ q.facets <;> simp [hheld]
    · have hne : compare m.field field ≠ .eq := fun he =>
        hfield (Std.LawfulEqCmp.compare_eq_iff_eq.1 he)
      rw [if_neg fun he => hne he.1, if_neg hne]
  rw [addFacet, hfacets]
  rfl

theorem insert_ranges_eq_write (q : CompiledQuery) (field : String) (state : RangeState) :
    { q with ranges := q.ranges.insert field state } = q.write (.range field) (some state) := by
  have hranges : q.ranges.insert field state = q.ranges.alter field fun _ => some state := by
    refine Std.ExtTreeMap.ext_getElem? fun other => ?_
    rw [Std.ExtTreeMap.getElem?_insert, Std.ExtTreeMap.getElem?_alter]
  rw [hranges]
  rfl

/-- Two queries have the same in every slot, and the same entries. -/
structure Agrees (q q' : CompiledQuery) : Prop where
  slots : ∀ s, q.slot s = q'.slot s
  entries : ∀ entry, q.Has entry ↔ q'.Has entry

variable {q q' q'' : CompiledQuery}

theorem Agrees.refl (q : CompiledQuery) : q.Agrees q := ⟨fun _ => rfl, fun _ => Iff.rfl⟩

theorem Agrees.trans (h : q.Agrees q') (h' : q'.Agrees q'') : q.Agrees q'' :=
  ⟨fun s => (h.slots s).trans (h'.slots s), fun entry => (h.entries entry).trans (h'.entries entry)⟩

theorem Agrees.write (h : q.Agrees q') (s : Slot) (f : s.Content → s.Content) :
    (q.write s (f (q.slot s))).Agrees (q'.write s (f (q'.slot s))) :=
  ⟨fun s' => slot_write_congr f (h.slots s'), fun entry => by rw [has_write, has_write, h.entries]⟩

end CompiledQuery

/-! ## Effects -/

/-- What the parameter of a name does to a query: each slot comes to what follows from the slot alone,
    slots of others stay as they are, and the entries that are added do not depend on the query. -/
structure Effect (name : String) (g : CompiledQuery → CompiledQuery) : Prop where
  reads : ∀ s (q q' : CompiledQuery), q.slot s = q'.slot s → (g q).slot s = (g q').slot s
  writes : ∀ s (q : CompiledQuery), ¬ s.OwnedBy name → (g q).slot s = q.slot s
  adds : ∃ new : Entry → Prop, ∀ (q : CompiledQuery) entry, (g q).Has entry ↔ q.Has entry ∨ new entry

namespace Effect

variable {name name' : String} {g g' : CompiledQuery → CompiledQuery} {q q' : CompiledQuery}

/-- Adding some entries of one sort. -/
theorem of_entries {α : Type} {sort : α → Entry} (hsort : Function.Injective sort) (more : List α)
    (hslots : ∀ s (q : CompiledQuery), (g q).slot s = q.slot s)
    (hadds : ∀ (q : CompiledQuery) x, (g q).Has (sort x) ↔ q.Has (sort x) ∨ x ∈ more)
    (hothers : ∀ (q : CompiledQuery) entry, (∀ x, entry ≠ sort x) →
      ((g q).Has entry ↔ q.Has entry)) :
    Effect name g where
  reads s q q' h := by rw [hslots, hslots, h]
  writes s q _ := hslots s q
  adds := by
    refine ⟨fun entry => ∃ x ∈ more, entry = sort x, fun q entry => ?_⟩
    by_cases hentry : ∃ x, entry = sort x
    · obtain ⟨x, rfl⟩ := hentry
      simp only [hadds, hsort.eq_iff, exists_eq_right']
    · rw [not_exists] at hentry
      rw [hothers q entry hentry, or_iff_left]
      rintro ⟨x, -, he⟩
      exact hentry x he

/-- Writing one slot, with something that follows from what it had. -/
theorem write (s : Slot) (howned : s.OwnedBy name) (f : s.Content → s.Content) :
    Effect name fun q => q.write s (f (q.slot s)) where
  reads s' q q' h := CompiledQuery.slot_write_congr f h
  writes s' q h := q.slot_write_of_ne (fun hs : s' = s => h (hs ▸ howned)) _
  adds := ⟨fun _ => False, fun q entry => by rw [q.has_write, or_false]⟩

theorem unchanged (name : String) : Effect name fun q => q where
  reads _ _ _ h := h
  writes _ _ _ := rfl
  adds := ⟨fun _ => False, fun _ _ => by rw [or_false]⟩

theorem comp (h : Effect name g) (h' : Effect name g') : Effect name fun q => g' (g q) where
  reads s q q' hs := h'.reads s _ _ (h.reads s q q' hs)
  writes s q hs := (h'.writes s _ hs).trans (h.writes s q hs)
  adds := by
    obtain ⟨new, hnew⟩ := h.adds
    obtain ⟨new', hnew'⟩ := h'.adds
    exact ⟨fun entry => new entry ∨ new' entry, fun q entry => by rw [hnew', hnew, or_assoc]⟩

theorem foldl {α : Type} {f : CompiledQuery → α → CompiledQuery} {l : List α}
    (h : ∀ a ∈ l, Effect name fun q => f q a) : Effect name fun q => l.foldl f q := by
  induction l with
  | nil => exact unchanged name
  | cons a rest ih =>
      exact (h a (List.mem_cons_self ..)).comp (ih fun b hb => h b (List.mem_cons_of_mem _ hb))

theorem agrees (h : Effect name g) (hq : q.Agrees q') : (g q).Agrees (g q') := by
  obtain ⟨new, hnew⟩ := h.adds
  exact ⟨fun s => h.reads s q q' (hq.slots s), fun entry => by rw [hnew, hnew, hq.entries]⟩

/-- **The effects of two parameters can be exchanged.** -/
theorem comm (h : Effect name g) (h' : Effect name' g') (hne : name ≠ name') (q : CompiledQuery) :
    (g (g' q)).Agrees (g' (g q)) := by
  constructor
  · intro s
    by_cases hs : s.OwnedBy name
    · -- the other parameter leaves the slot as it is, before this one and behind it
      have hs' : ¬ s.OwnedBy name' := fun hs' => hne (s.eq_of_ownedBy hs hs')
      rw [h'.writes s _ hs']
      exact h.reads s _ _ (h'.writes s q hs')
    · rw [h.writes s _ hs]
      exact (h'.reads s _ _ (h.writes s q hs)).symm
  · obtain ⟨new, hnew⟩ := h.adds
    obtain ⟨new', hnew'⟩ := h'.adds
    intro entry
    rw [hnew, hnew', hnew', hnew, or_assoc, or_assoc, or_comm (a := new' entry)]

end Effect

namespace Compiler

variable {c : Compiler} {answer : String → Option Entity} {name : String} {family : FieldFamily}
  {values : List String}

/-! ## Paths -/

theorem effect_addFacet {m : FacetMeta} (h : family.Names m.field) :
    Effect (Parameter.levels family).name fun q => q.addFacet m := by
  rw [funext fun q => CompiledQuery.addFacet_eq_write q m]
  exact .write (.facet m.field) ⟨family, rfl, h⟩ fun held => held.or (some m)

theorem effect_insertRange {field : String} (state : RangeState) (h : family.Names field) :
    Effect (Parameter.levels family).name fun q => { q with ranges := q.ranges.insert field state } := by
  rw [funext fun q => CompiledQuery.insert_ranges_eq_write q field state]
  exact .write (.range field) ⟨family, rfl, h⟩ fun _ => some state

theorem effect_addAlternative {a : Alternative} (ha : a.Within family) :
    Effect (Parameter.levels family).name fun q => q.addAlternative a := by
  unfold CompiledQuery.addAlternative
  cases hrange : a.range with
  | none =>
      cases hfacet : a.facet with
      | none => exact .unchanged _
      | some m => exact effect_addFacet (ha.facet m hfacet)
  | some found =>
      have hstate := effect_insertRange found.2 (ha.range found hrange)
      cases hfacet : a.facet with
      | none => exact hstate
      | some m => exact hstate.comp (effect_addFacet (ha.facet m hfacet))

/-- Requiring one of some fragments adds entries, and buckets under the fields of the fragments. -/
theorem effect_requireOneOf {fragments : List Fragment}
    (h : ∀ f ∈ fragments, ∀ field ∈ f.ranges, (Slot.buckets field).OwnedBy name) :
    Effect name fun q => q.requireOneOf fragments where
  reads s q q' hs := by
    cases s with
    | buckets field => exact Fragment.getElem?_foldl_addRange_congr _ hs
    | _ => exact hs
  writes s q hs := by
    cases s with
    | buckets field =>
        refine Fragment.getElem?_foldl_addRange_of_not_mem fun hmem => hs ?_
        obtain ⟨f, hf, hfield⟩ := Fragment.mem_ranges_anyOf.1 hmem
        exact h f hf field hfield
    | _ => rfl
  adds := by
    refine ⟨({ rows := 0, fragment := Fragment.anyOf fragments } : CompiledQuery).Has, fun q entry => ?_⟩
    cases entry with
    | clause text => exact Clause.mem_texts_foldl_add
    | facetField field | statsField field | awaited field => exact Fragment.mem_joinSets
    | highlight text => exact Fragment.mem_foldl_addNew
    | unresolved name => exact (or_iff_left List.not_mem_nil).symm
    | rejected filter => exact (or_iff_left List.not_mem_nil).symm

theorem effect_requireNothing (name : String) : Effect name fun q => q.requireNothing :=
  .of_entries (fun _ _ => Entry.clause.inj) [Clause.nothing.text] (fun s _ => by cases s <;> rfl)
    (fun _ _ => Clause.mem_texts_add.trans (or_congr_right List.mem_singleton.symm))
    fun _ entry h => by cases entry <;> first | rfl | exact absurd rfl (h _)

/-- Names that no entity answers to are added to those before. -/
theorem effect_unresolved (name : String) {f : List String → List String} {more : List String}
    (hf : ∀ held name, name ∈ f held ↔ name ∈ held ∨ name ∈ more) :
    Effect name fun q => { q with unresolved := f q.unresolved } :=
  .of_entries (fun _ _ => Entry.unresolved.inj) more (fun s _ => by cases s <;> rfl) (fun _ _ => hf _ _)
    fun _ entry h => by cases entry <;> first | rfl | exact absurd rfl (h _)

theorem effect_addPaths {outcomes : List PathOutcome}
    (h : ∀ a ∈ outcomes.filterMap PathOutcome.alternative?, a.Within family) :
    Effect (Parameter.levels family).name fun q => q.addPaths outcomes := by
  have hfound : Effect (Parameter.levels family).name fun q =>
      (outcomes.filterMap PathOutcome.alternative?).foldl CompiledQuery.addAlternative q :=
    .foldl fun a ha => effect_addAlternative (h a ha)
  have hmissing := effect_unresolved (Parameter.levels family).name
    (f := (outcomes.filterMap PathOutcome.missing?).foldl Fragment.addNew)
    fun _ _ => Fragment.mem_foldl_addNew
  unfold CompiledQuery.addPaths
  dsimp only
  split
  · split
    · exact hfound.comp hmissing
    · exact (hfound.comp (effect_requireNothing _)).comp hmissing
  · refine (hfound.comp (effect_requireOneOf fun f hf field hfield => ?_)).comp hmissing
    obtain ⟨a, ha, rfl⟩ := List.mem_map.1 hf
    exact ⟨family, rfl, (h a ha).ranges field hfield⟩

/-! ## Flat values -/

/-- Clauses alone bring no buckets, so any parameter may require them. -/
theorem effect_requireClauses {α : Type} (name : String) (l : List α) (text : α → String) :
    Effect name fun q => q.requireOneOf (l.map fun a => clauseFragment (text a)) := by
  refine effect_requireOneOf fun f hf field hfield => ?_
  obtain ⟨a, -, rfl⟩ := List.mem_map.1 hf
  exact absurd hfield Std.ExtTreeMap.not_mem_empty

theorem effect_rejected (name : String) (more : List RejectedFilter) :
    Effect name fun q => { q with rejected := q.rejected ++ more } :=
  .of_entries (fun _ _ => Entry.rejected.inj) more (fun s _ => by cases s <;> rfl)
    (fun _ _ => List.mem_append)
    fun _ entry h => by cases entry <;> first | rfl | exact absurd rfl (h _)

theorem effect_highlights (name : String) (terms : List String) :
    Effect name fun q => { q with
      fragment := { q.fragment with
        highlights := terms.foldl Fragment.addNew q.fragment.highlights } } :=
  .of_entries (fun _ _ => Entry.highlight.inj) terms (fun s _ => by cases s <;> rfl)
    (fun _ _ => Fragment.mem_foldl_addNew)
    fun _ entry h => by cases entry <;> first | rfl | exact absurd rfl (h _)

theorem effect_freeText (values : List String) :
    Effect Parameter.text.name fun q => freeText q values := by
  unfold freeText
  dsimp only
  split
  · exact .unchanged _
  · exact (effect_highlights _ _).comp (.write .query rfl fun _ => _)

/-! ## Refusals -/

/-- A step is refused whatever the query is, or it has an effect. -/
def Acts (name : String) (step : CompiledQuery → Except RequestError CompiledQuery) : Prop :=
  (∃ e, ∀ q, step q = .error e) ∨ ∃ g, Effect name g ∧ ∀ q, step q = .ok (g q)

theorem Acts.of_effect {g : CompiledQuery → CompiledQuery} (h : Effect name g) :
    Acts name fun q => .ok (g q) :=
  .inr ⟨g, h, fun _ => rfl⟩

theorem Acts.bind {α : Type} {x : Except RequestError α}
    {f : CompiledQuery → α → Except RequestError CompiledQuery}
    (h : ∀ a, x = .ok a → Acts name fun q => f q a) : Acts name fun q => x >>= f q := by
  cases x with
  | error e => exact .inl ⟨e, fun _ => rfl⟩
  | ok a => exact h a rfl

theorem acts_itemTypes (c : Compiler) (values : List String) :
    Acts Parameter.itemType.name fun q => c.itemTypes q values := by
  refine Acts.bind fun found _ => .of_effect ?_
  have hunknown := effect_unresolved Parameter.itemType.name
    (f := (· ++ found.filter fun value => (ItemType.ofToken? value).isNone))
    fun _ _ => List.mem_append
  split
  · exact (effect_requireNothing _).comp hunknown
  · exact (effect_requireClauses _ _ _).comp hunknown

theorem acts_identifiers (c : Compiler) (values : List String) :
    Acts Parameter.identifier.name fun q => c.identifiers q values :=
  Acts.bind fun _ _ => .of_effect (effect_requireClauses _ _ _)

theorem acts_tiles (c : Compiler) (space : TileSpace) (values : List String) :
    Acts (Parameter.tile space).name fun q => c.tiles q space values :=
  Acts.bind fun _ _ => .of_effect ((effect_rejected _ _).comp (effect_requireClauses _ _ _))

theorem acts_years (c : Compiler) (bound : YearBound) (values : List String) :
    Acts (Parameter.year bound).name fun q => c.years q bound values :=
  Acts.bind fun _ _ => Acts.bind fun _ _ => .of_effect (effect_requireClauses _ _ _)

theorem acts_lastValue (c : Compiler) {p : Parameter} (raw : String) :
    Acts p.name fun q => c.lastValue q p raw := by
  cases p with
  | sort => exact Acts.bind fun _ _ => .of_effect (.write .sort rfl fun _ => _)
  | rows => exact Acts.bind fun _ _ => .of_effect (.write .rows rfl fun _ => _)
  | start => exact Acts.bind fun _ _ => .of_effect (.write .start rfl fun _ => _)
  | depth space =>
      cases space with
      | chrono => exact Acts.bind fun _ _ => .of_effect (.write .chronoDepth rfl fun _ => _)
      | geo => exact Acts.bind fun _ _ => .of_effect (.write .geoDepth rfl fun _ => _)
  | _ => exact .of_effect (.unchanged _)

theorem effect_attributes (names : List String) :
    Effect Parameter.attributes.name fun q => (attributes q names).answeredBy answer := by
  induction names with
  | nil => exact .unchanged _
  | cons name rest ih =>
      cases he : answer name with
      | none =>
          have hskip (q : CompiledQuery) : (attributes q (name :: rest)).answeredBy answer
              = (attributes q rest).answeredBy answer := by
            simp [attributes, Inquiry.entity?, Inquiry.answeredBy, he]
          rw [funext hskip]
          exact ih
      | some e =>
          have hadd (q : CompiledQuery) : (attributes q (name :: rest)).answeredBy answer
              = (attributes (q.write .returnFields (Fragment.addNew q.returnFields
                  ((FieldPath.root .predicate).child e none).name)) rest).answeredBy answer := by
            simp [attributes, Inquiry.entity?, Inquiry.answeredBy, he, CompiledQuery.write]
          rw [funext hadd]
          exact (Effect.write .returnFields rfl fun fields => Fragment.addNew fields _).comp ih

/-- **A parameter is refused whatever the query is, or it has an effect.** -/
theorem acts_parameter (c : Compiler) (answer : String → Option Entity) (p : Parameter)
    (values : List String) :
    Acts p.name fun q => Compiling.under answer (c.parameter q p values) := by
  unfold parameter
  split
  · next family =>
    simp only [levels, Compiling.under_bind, Compiling.under_pure]
    exact Acts.bind fun outcomes h => .of_effect (effect_addPaths (within_values h))
  · exact acts_itemTypes c values
  · exact .of_effect (effect_freeText values)
  · exact acts_identifiers c values
  · exact acts_tiles c _ values
  · exact acts_years c _ values
  · simp only [Compiling.under_lift]
    exact .of_effect (effect_attributes _)
  -- of the others the last value counts, if there is one
  all_goals
    split
    · exact acts_lastValue c _
    · exact .of_effect (.unchanged _)

end Compiler

end FacetSearch
