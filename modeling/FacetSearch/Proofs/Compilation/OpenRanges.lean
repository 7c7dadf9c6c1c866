import FacetSearch.Proofs.Compilation.Narrowing
import Mathlib

set_option autoImplicit false

/-! # Ranges that wait

Two records say which ranges wait for the bounds of their field. The fragment names every field that a
range waits for, and the state of a field is that of the last range over it. So the fields that a query
reports as waiting are those of its prequery as long as no range with both ends comes behind one that
waits in the same field (`mem_awaiting_iff`); otherwise the query passes for complete although a range
is missing from it. -/

namespace FacetSearch

theorem CompiledQuery.mem_awaiting {q : CompiledQuery} {field : String} :
    field ∈ q.awaiting ↔ ∃ state, q.ranges[field]? = some state ∧ state.isAwaiting = true := by
  simp only [awaiting, List.mem_map, List.mem_filter, Prod.exists, exists_and_right, exists_eq_right,
    Std.ExtTreeMap.mem_toList_iff_getElem?_eq_some]

namespace Compiler

/-! ## Ranges in order -/

/-- The ranges that the paths of a parameter end in, in order. -/
def rangesOf (c : Compiler) (answer : String → Option Entity) (p : Parameter)
    (values : List String) : List RangeUse :=
  match p with
  | .levels family => (c.trails answer family (c.paths p values)).filterMap Trail.range?
  | _ => []

/-- The ranges that the paths of a request end in, in the order in which they compile. -/
def rangeUses (c : Compiler) (answer : String → Option Entity)
    (entries : List (String × List String)) : List RangeUse :=
  entries.flatMap fun (name, values) =>
    ((Parameter.ofName? name).map fun p => c.rangesOf answer p values).getD []

theorem rangeUses_cons (c : Compiler) (answer : String → Option Entity) (name : String)
    (values : List String) (rest : List (String × List String)) :
    c.rangeUses answer ((name, values) :: rest)
      = ((Parameter.ofName? name).map fun p => c.rangesOf answer p values).getD []
        ++ c.rangeUses answer rest := by
  rw [rangeUses, List.flatMap_cons, rangeUses]

/-- The last range over a field. -/
def lastUse (uses : List RangeUse) (field : String) : Option RangeUse :=
  uses.reverse.find? fun u => u.field = field

/-- Where a range waits for the bounds of its field, the last range over the field waits too. -/
def LastWaits (c : Compiler) (uses : List RangeUse) : Prop :=
  ∀ u ∈ uses, c.waits u = true → (lastUse uses u.field).any c.waits = true

instance (c : Compiler) (uses : List RangeUse) : Decidable (c.LastWaits uses) :=
  inferInstanceAs (Decidable (∀ u ∈ uses, c.waits u = true →
    (lastUse uses u.field).any c.waits = true))

theorem lastUse_append (uses more : List RangeUse) (field : String) :
    lastUse (uses ++ more) field = (lastUse more field).or (lastUse uses field) := by
  rw [lastUse, List.reverse_append, List.find?_append]
  rfl

theorem lastUse_singleton (u : RangeUse) (field : String) :
    lastUse [u] field = if u.field = field then some u else none := by
  rw [lastUse, List.reverse_singleton, List.find?_singleton]
  simp

theorem mem_of_lastUse {uses : List RangeUse} {field : String} {u : RangeUse}
    (h : lastUse uses field = some u) : u ∈ uses ∧ u.field = field := by
  refine ⟨List.mem_reverse.1 (List.mem_of_find?_eq_some h), ?_⟩
  simpa using List.find?_some h

/-! ## What a query records -/

/-- What a query knows of the ranges that have been compiled: for each field how far the last one has
    come, and whether any waits. -/
structure Records (c : Compiler) (q : CompiledQuery) (uses : List RangeUse) : Prop where
  ranges : ∀ field, q.ranges[field]?
    = (lastUse uses field).map fun u => c.rangeState u.field u.literal
  awaited : ∀ field, field ∈ q.fragment.awaited ↔ ∃ u ∈ uses, u.field = field ∧ c.waits u = true

variable {c : Compiler} {answer : String → Option Entity} {q q' : CompiledQuery}
  {uses : List RangeUse} {values : List String}

theorem Records.mem_awaiting_iff (h : c.Records q uses) (field : String) :
    field ∈ q.awaiting ↔ ∃ last, lastUse uses field = some last ∧ c.waits last = true := by
  rw [CompiledQuery.mem_awaiting, h.ranges]
  simp only [Option.map_eq_some_iff, exists_exists_and_eq_and, isAwaiting_rangeState]

theorem Records.of_same (h : c.Records q uses) (hsame : SameRanges q q') : c.Records q' uses :=
  ⟨fun field => hsame.ranges ▸ h.ranges field,
    fun field => (hsame.mem_awaited field).trans (h.awaited field)⟩

/-- The states of an alternative's range and of those behind it take the place of earlier ones. -/
theorem getElem?_ranges_foldl {trails : List Trail} {found : List Alternative}
    (h : List.Forall₂ c.Follows trails found) (q : CompiledQuery) (field : String) :
    (found.foldl CompiledQuery.addAlternative q).ranges[field]?
      = ((lastUse (trails.filterMap Trail.range?) field).map fun u =>
          c.rangeState u.field u.literal).or q.ranges[field]? := by
  induction h generalizing q with
  | nil => rfl
  | @cons t a trails found hfirst hrest ih =>
      -- one alternative: its range takes the place of what stood under its field
      have hranges : (q.addAlternative a).ranges[field]?
          = ((lastUse t.range?.toList field).map fun u =>
              c.rangeState u.field u.literal).or q.ranges[field]? := by
        cases ht : t.range? with
        | none =>
            have ha : a.range = none := by rw [hfirst.range, ht]; rfl
            rw [ranges_addAlternative, ha]
            rfl
        | some u =>
            have ha : a.range = some (u.field, c.rangeState u.field u.literal) := by
              rw [hfirst.range, ht]
              rfl
            rw [ranges_addAlternative, ha, Option.toList_some, lastUse_singleton]
            simp only [Std.ExtTreeMap.getElem?_insert]
            by_cases hf : u.field = field
            · rw [if_pos hf, if_pos (Std.LawfulEqCmp.compare_eq_iff_eq.2 hf)]
              rfl
            · rw [if_neg hf, if_neg (fun he => hf (Std.LawfulEqCmp.compare_eq_iff_eq.1 he))]
              rfl
      -- the rest: the last range over the field is among those behind, or it is this one
      have hsplit : (t :: trails).filterMap Trail.range?
          = t.range?.toList ++ trails.filterMap Trail.range? := by
        cases ht : t.range? <;> simp [ht]
      rw [List.foldl_cons, ih, hranges, hsplit, lastUse_append, Option.map_or, Option.or_assoc]

/-- The fields whose bounds the paths of a parameter wait for. -/
theorem mem_awaited_addPaths {trails : List Trail} {outcomes : List PathOutcome}
    (h : List.Forall₂ c.Follows trails (outcomes.filterMap PathOutcome.alternative?)) {field : String} :
    field ∈ (q.addPaths outcomes).fragment.awaited ↔ field ∈ q.fragment.awaited ∨
      ∃ u ∈ trails.filterMap Trail.range?, u.field = field ∧ c.waits u = true := by
  have hfound : (∃ f ∈ (outcomes.filterMap PathOutcome.alternative?).map (·.fragment),
      field ∈ f.awaited) ↔ ∃ u ∈ trails.filterMap Trail.range?, u.field = field ∧ c.waits u = true := by
    generalize outcomes.filterMap PathOutcome.alternative? = found at h
    induction h with
    | nil => simp
    | @cons t a trails found hfirst hrest ih =>
        rw [List.map_cons]
        simp only [List.mem_cons, exists_eq_or_imp, ih, hfirst.mem_awaited, List.mem_filterMap]
        constructor
        · rintro (⟨u, hu, hw⟩ | ⟨u, ⟨t', ht', hu⟩, hw⟩)
          · exact ⟨u, .inl hu, hw⟩
          · exact ⟨u, .inr ⟨t', ht', hu⟩, hw⟩
        · rintro ⟨u, hu | ⟨t', ht', hu⟩, hw⟩
          · exact .inl ⟨u, hu, hw⟩
          · exact .inr ⟨u, ⟨t', ht', hu⟩, hw⟩
  rw [fragment_addPaths, ← hfound]
  by_cases hnil : outcomes.filterMap PathOutcome.alternative? = []
  · rw [if_pos hnil, hnil]
    split <;> simp [CompiledQuery.requireNothing, Fragment.require]
  · rw [if_neg hnil, CompiledQuery.mem_awaited_requireOneOf]

theorem records_levels {family : FieldFamily} (hq : c.Records q uses)
    (h : Compiling.under answer (c.levels q family values) = .ok q') :
    c.Records q' (uses ++ c.rangesOf answer (.levels family) values) := by
  rw [levels] at h
  simp only [Compiling.under_bind, Compiling.under_pure] at h
  obtain ⟨outcomes, houtcomes, h⟩ := Except.bind_eq_ok h
  obtain rfl := Except.ok.inj h
  obtain ⟨found, hfound, -, hyields⟩ := expand_of_values houtcomes
  have hfollows := follows_trails hyields
  rw [← paths_eq_of_expand hfound] at hfollows
  constructor
  · intro field
    rw [ranges_addPaths, getElem?_ranges_foldl hfollows, hq.ranges, lastUse_append, Option.map_or]
    rfl
  · intro field
    rw [mem_awaited_addPaths hfollows, hq.awaited]
    simp only [List.mem_append, or_and_right, exists_or]
    rfl

/-! ## Requests -/

/-- **What a query records is kept up by every parameter.** -/
theorem records_parameter {p : Parameter} (hq : c.Records q uses)
    (h : Compiling.under answer (c.parameter q p values) = .ok q') :
    c.Records q' (uses ++ c.rangesOf answer p values) := by
  by_cases hlevels : ∃ family, p = .levels family
  · obtain ⟨family, rfl⟩ := hlevels
    exact records_levels hq h
  · have hflat : ∀ family, p ≠ .levels family := fun family he => hlevels ⟨family, he⟩
    have hnone : c.rangesOf answer p values = [] := by
      unfold rangesOf
      split
      · next family => exact absurd rfl (hflat family)
      · rfl
    rw [hnone, List.append_nil]
    exact hq.of_same ((obeys_of_not_levels hflat).under h)

theorem records_parameters {entries : List (String × List String)} (hq : c.Records q uses)
    (h : Compiling.under answer (c.parameters q entries) = .ok q') :
    c.Records q' (uses ++ c.rangeUses answer entries) := by
  induction entries generalizing q uses with
  | nil =>
      obtain rfl := Except.ok.inj h
      rw [rangeUses, List.flatMap_nil, List.append_nil]
      exact hq
  | cons entry rest ih =>
      obtain ⟨name, values⟩ := entry
      rw [parameters] at h
      rw [rangeUses_cons]
      cases hp : Parameter.ofName? name with
      | none =>
          simp only [hp] at h
          exact ih hq h
      | some p =>
          simp only [hp, Compiling.under_bind] at h
          obtain ⟨q₁, hq₁, h⟩ := Except.bind_eq_ok h
          rw [← List.append_assoc]
          exact ih (records_parameter hq hq₁) h

theorem records_compile {params : Params}
    (h : Compiling.under answer (c.compile params) = .ok q) :
    c.Records q (c.rangeUses answer params.entries) := by
  rw [compile] at h
  simp only [Compiling.under_bind, Compiling.under_pure] at h
  obtain ⟨q₁, hq₁, h⟩ := Except.bind_eq_ok h
  obtain rfl := Except.ok.inj h
  have hstart : c.Records c.start [] := by
    constructor
    · intro field
      exact Std.ExtTreeMap.getElem?_empty
    · intro field
      exact iff_of_false Std.ExtTreeSet.not_mem_empty (by simp)
  exact (records_parameters hstart hq₁).of_same (unmoved_withFacet _ q₁).sameRanges

/-- The range of every path is among those of its request. -/
theorem mem_rangeUses {entries : List (String × List String)} {name : String} {family : FieldFamily}
    {t : Trail} {u : RangeUse} (hentry : (name, values) ∈ entries)
    (hname : Parameter.ofName? name = some (.levels family))
    (ht : t ∈ c.trails answer family (c.paths (.levels family) values)) (hu : t.range? = some u) :
    u ∈ c.rangeUses answer entries := by
  refine List.mem_flatMap.2 ⟨_, hentry, ?_⟩
  simp only [hname, Option.map_some, Option.getD_some, rangesOf]
  exact List.mem_filterMap.2 ⟨t, ht, hu⟩

/-- **The fields that a query reports as waiting are those of its prequery exactly when no range that
    waits has another one with both ends behind it**; the prequery asks for every field that a range
    waits for, and the query reports those where the last range does. As long as both agree, a query
    that needs no prequery has the clause of every value in a field of numbers or dates. -/
theorem awaiting_agrees_iff {params : Params} (h : Compiling.under answer (c.compile params) = .ok q) :
    (∀ field, field ∈ q.prequery.statsFields ↔
      ∃ u ∈ c.rangeUses answer params.entries, u.field = field ∧ c.waits u = true) ∧
    (∀ field, field ∈ q.awaiting ↔
      ∃ last, lastUse (c.rangeUses answer params.entries) field = some last ∧ c.waits last = true) ∧
    ((∀ field, field ∈ q.awaiting ↔ field ∈ q.fragment.awaited) ↔
      c.LastWaits (c.rangeUses answer params.entries)) ∧
    (c.LastWaits (c.rangeUses answer params.entries) → q.needsPrequery = false →
      ∀ name values family, (name, values) ∈ params.entries →
        Parameter.ofName? name = some (.levels family) →
        ∀ t ∈ c.trails answer family (c.paths (.levels family) values), ∀ raw, t.value = some raw →
          t.field.kind.axis?.isSome → ∃ u text, t.range? = some u ∧ c.rangeText u = some text ∧
            c.valueTexts t = [text]) := by
  have hq := records_compile h
  have hagree : (∀ field, field ∈ q.awaiting ↔ field ∈ q.fragment.awaited) ↔
      c.LastWaits (c.rangeUses answer params.entries) := by
    constructor
    · intro hsame u hu hwaits
      have hfield := (hsame u.field).2 ((hq.awaited u.field).2 ⟨u, hu, rfl, hwaits⟩)
      exact (Option.any_eq_true _ _).2 ((hq.mem_awaiting_iff u.field).1 hfield)
    · intro hlast field
      rw [hq.mem_awaiting_iff, hq.awaited]
      constructor
      · rintro ⟨last, hl, hw⟩
        obtain ⟨hmem, hf⟩ := mem_of_lastUse hl
        exact ⟨last, hmem, hf, hw⟩
      · rintro ⟨u, hu, rfl, hw⟩
        exact (Option.any_eq_true _ _).1 (hlast u hu hw)
  refine ⟨hq.awaited, hq.mem_awaiting_iff, hagree, ?_⟩
  intro hlast hneeds name values family hentry hname t ht raw hvalue haxis
  -- a range that waited would have its field among those that are reported
  have hnone : q.awaiting = [] := by simpa [CompiledQuery.needsPrequery] using hneeds
  have hread : t.range?.isSome := by
    rw [compile] at h
    simp only [Compiling.under_bind, Compiling.under_pure] at h
    obtain ⟨q₁, hq₁, -⟩ := Except.bind_eq_ok h
    exact (readable_parameters hq₁ _ hentry _ hname).ranges family rfl t ht haxis
  refine valueTexts_of_not_waits hvalue haxis hread ?_
  intro u hu
  rw [Bool.eq_false_iff]
  intro hwaits
  have hfield := (hagree.2 hlast u.field).2
    ((hq.awaited u.field).2 ⟨u, mem_rangeUses hentry hname ht hu, rfl, hwaits⟩)
  rw [hnone] at hfield
  exact absurd hfield (by simp)

/-- Weights between 10 and 20, or from 10 on: the range that waits comes last. -/
def closedThenOpen : Params := ⟨[("prop", ["weight---10,20||10,"])]⟩

/-- The same weights the other way round. -/
def openThenClosed : Params := ⟨[("prop", ["weight---10,||10,20"])]⟩

/-- Behind a range with both ends, one that waits is reported. -/
theorem awaiting_agrees_closedThenOpen :
    ∃ q, Compiling.under onlyWeight (Compiler.compile {} closedThenOpen) = .ok q ∧
      ∀ field, field ∈ q.awaiting ↔ field ∈ q.fragment.awaited := by
  have hok : (Compiling.under onlyWeight (Compiler.compile {} closedThenOpen)).isOk = true := by
    decide +kernel
  have hlast : LastWaits {} (Compiler.rangeUses {} onlyWeight closedThenOpen.entries) := by
    decide +kernel
  cases hq : Compiling.under onlyWeight (Compiler.compile {} closedThenOpen) with
  | error e => exact absurd (hq ▸ hok) (by simp [Except.isOk, Except.toBool])
  | ok q => exact ⟨q, rfl, (awaiting_agrees_iff hq).2.2.1.2 hlast⟩

/-- In front of one, it is not: the query passes for complete, and the first range is missing. -/
theorem awaiting_differs_openThenClosed :
    ∃ q, Compiling.under onlyWeight (Compiler.compile {} openThenClosed) = .ok q ∧
      ¬ (∀ field, field ∈ q.awaiting ↔ field ∈ q.fragment.awaited) ∧ q.needsPrequery = false ∧
      Clause.texts q.fragment.clauses = ["(root___pred_id:weight) OR " ++
        "(root___pred_id:weight AND weight___pred_numeric:[10 TO 20])"] := by
  have hquery : (Compiling.under onlyWeight (Compiler.compile {} openThenClosed)).toOption.map
      (fun q => (q.awaiting, q.fragment.awaited.toList, Clause.texts q.fragment.clauses))
        = some ([], ["weight___pred_numeric"], ["(root___pred_id:weight) OR " ++
          "(root___pred_id:weight AND weight___pred_numeric:[10 TO 20])"]) := by
    decide +kernel
  cases hq : Compiling.under onlyWeight (Compiler.compile {} openThenClosed) with
  | error e => exact absurd (hq ▸ hquery) (by simp [Except.toOption])
  | ok q =>
      rw [hq] at hquery
      obtain ⟨hawaiting, hrest⟩ := Prod.mk.inj (Option.some.inj hquery)
      obtain ⟨hawaited, htexts⟩ := Prod.mk.inj hrest
      refine ⟨q, rfl, fun hsame => ?_, by simp [CompiledQuery.needsPrequery, hawaiting], htexts⟩
      have hmem : "weight___pred_numeric" ∈ q.fragment.awaited := by
        rw [← Std.ExtTreeSet.mem_toList, hawaited]
        exact List.mem_singleton_self _
      have hfield := (hsame _).2 hmem
      rw [hawaiting] at hfield
      exact absurd hfield (by simp)

end Compiler

end FacetSearch
