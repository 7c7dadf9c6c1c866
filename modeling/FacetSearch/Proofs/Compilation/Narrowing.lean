import FacetSearch.Proofs.Compilation.Frames
import FacetSearch.Proofs.Compilation.Levels
import FacetSearch.Proofs.Compilation.Meaning
import FacetSearch.Proofs.Request.Params
import Mathlib

set_option autoImplicit false

/-! # Meaning of requests

What the parameters of a request require, told without the query that they compile to: `Compiler.Met`
says it of one parameter under a valuation. Each parameter adds just this to the clauses of a query
(`adds_parameter`), and nothing is lost between parameters, since a request names none of them twice
(`holds_parameters`). So a request holds when all that its parameters require is met
(`holds_compile_iff`). -/

namespace FacetSearch.Compiler

/-! ## What parameters require -/

/-- The alternatives of the values of a flat parameter; none when they are refused. -/
def alternatives (c : Compiler) (p : Parameter) (values : List String) : List String :=
  (c.paths p values).flatten

/-- The clause of an alternative of a flat parameter, if the parameter knows the alternative. -/
def acceptedText : Parameter → String → Option String
  | .itemType, value =>
    (ItemType.ofToken? value).map fun type => Field.itemType ++ ":" ++ type.token
  | .identifier, value => some (identifierClause value)
  | .tile space, value => (tilePath space value).toOption.map (tileClause space)
  | .year bound, value => (Decimal.int64? value).map (yearClause bound)
  | _, _ => none

/-- The clauses of the alternatives that a flat parameter knows. -/
def acceptedTexts (c : Compiler) (p : Parameter) (values : List String) : List String :=
  (c.alternatives p values).filterMap (acceptedText p)

/-- What the values of a parameter require. Of paths, one that resolves has to hold on every level; of
    item types, one that is known; of the other flat values, one of those that are accepted, if any
    are. -/
def Met (c : Compiler) (answer : String → Option Entity) (v : Valuation) (p : Parameter)
    (values : List String) : Prop :=
  match p with
  | .levels family =>
    c.paths p values ≠ [] → ∃ names ∈ c.paths p values, ∃ t,
      c.trail answer (.root family) names = .ok t ∧ ∀ text ∈ c.texts t, v.holds text = true
  | .itemType =>
    c.alternatives p values ≠ [] → ∃ text ∈ c.acceptedTexts p values, v.holds text = true
  | .identifier | .tile _ | .year _ =>
    c.acceptedTexts p values ≠ [] → ∃ text ∈ c.acceptedTexts p values, v.holds text = true
  | _ => True

/-- The values of a parameter can be read: they expand, and so do the values that their paths end in. -/
structure Readable (c : Compiler) (answer : String → Option Entity) (p : Parameter)
    (values : List String) : Prop where
  expands : p ∈ choosers → ∃ found, (c.settings.expansion p).expand values = .ok found
  ranges : ∀ family, p = .levels family → ∀ t ∈ c.trails answer family (c.paths p values),
    t.field.kind.axis?.isSome → t.range?.isSome

variable {c : Compiler} {answer : String → Option Entity} {q q' : CompiledQuery}
  {values : List String}

/-! ## Clauses of alternatives -/

theorem isAtom_acceptedText {p : Parameter} {value text : String}
    (h : acceptedText p value = some text) : IsAtom text := by
  unfold acceptedText at h
  split at h
  · obtain ⟨type, -, rfl⟩ := Option.map_eq_some_iff.1 h
    exact isAtom_itemType type
  · exact Option.some.inj h ▸ isAtom_identifierClause value
  · obtain ⟨path, -, rfl⟩ := Option.map_eq_some_iff.1 h
    exact isAtom_tileClause _ path
  · obtain ⟨year, -, rfl⟩ := Option.map_eq_some_iff.1 h
    exact isAtom_yearClause _ year
  · exact absurd h (by simp)

theorem toList_prefix_append (a b : String) : a.toList <+: (a ++ b).toList := by
  rw [String.toList_append]
  exact List.prefix_append _ _

theorem opening_acceptedText {p : Parameter} {value text : String}
    (h : acceptedText p value = some text) : p.opening.toList <+: text.toList := by
  unfold acceptedText at h
  split at h
  · obtain ⟨type, -, rfl⟩ := Option.map_eq_some_iff.1 h
    exact toList_prefix_append _ _
  · obtain rfl := Option.some.inj h
    simp only [identifierClause, String.append_assoc]
    rw [← String.append_assoc, ← String.append_assoc]
    exact toList_prefix_append _ _
  · obtain ⟨path, -, rfl⟩ := Option.map_eq_some_iff.1 h
    rw [tileClause, String.append_assoc]
    exact toList_prefix_append _ _
  · next bound =>
    obtain ⟨year, -, rfl⟩ := Option.map_eq_some_iff.1 h
    cases bound with
    | since =>
        rw [yearClause, String.append_assoc]
        exact toList_prefix_append _ _
    | «until» =>
        have hsplit : yearClause .until year
            = Field.chronoEarliest ++ ":[" ++ ("* TO " ++ (toString year ++ "]")) := by
          simp only [yearClause, String.append_assoc]
          rfl
        rw [hsplit]
        exact toList_prefix_append _ _
  · exact absurd h (by simp)

/-- The clauses of a trail begin with the field at the top of its hierarchy. -/
theorem opening_texts {family : FieldFamily} {names : List String} {t : Trail} (hne : names ≠ [])
    (h : c.trail answer (.root family) names = .ok t) :
    ∃ text rest, c.texts t = text :: rest ∧
      (Parameter.levels family).opening.toList <+: text.toList := by
  obtain ⟨raw, rest, rfl⟩ := List.exists_cons_of_ne_nil hne
  rw [trail, if_neg (by simp [FieldPath.root, FieldPath.kind, FieldPath.parent, DataKind.isLiteral])]
    at h
  split at h
  · exact absurd h (by simp)
  · next e _ =>
    obtain ⟨below, -, rfl⟩ := Except.map_eq_ok h
    refine ⟨levelText (.root family, e), _, rfl, ?_⟩
    exact toList_prefix_append _ _

/-! ## Hierarchical parameters -/

theorem openWith_trails {family : FieldFamily} {found : List (List String)}
    (hne : ∀ names ∈ found, names ≠ []) :
    Clause.OpenWith (.levels family) ((c.trails answer family found).map c.texts) := by
  constructor
  · intro group hg text htext
    obtain ⟨t, -, rfl⟩ := List.mem_map.1 hg
    exact isAtom_of_mem_texts htext
  · intro group hg
    obtain ⟨t, ht, rfl⟩ := List.mem_map.1 hg
    obtain ⟨names, hnames, htrail⟩ := mem_trails.1 ht
    exact opening_texts (hne names hnames) htrail

theorem holdsOne_trails {family : FieldFamily} {found : List (List String)} {v : Valuation} :
    v.HoldsOne ((c.trails answer family found).map c.texts) ↔
      ∃ names ∈ found, ∃ t, c.trail answer (.root family) names = .ok t ∧
        ∀ text ∈ c.texts t, v.holds text = true := by
  simp only [Valuation.HoldsOne, List.mem_map, exists_exists_and_eq_and, mem_trails]
  constructor
  · rintro ⟨t, ⟨names, hnames, ht⟩, hall⟩
    exact ⟨names, hnames, t, ht, hall⟩
  · rintro ⟨names, hnames, t, ht, hall⟩
    exact ⟨t, ⟨names, hnames, ht⟩, hall⟩

/-- The paths of a parameter are put into a query as the parameter requires. -/
theorem adds_addPaths {family : FieldFamily} {outcomes : List PathOutcome}
    (hpaths : ∀ names ∈ c.paths (.levels family) values, names ≠ [])
    (h : List.Forall₂ (fun names outcome => c.Yields outcome (c.trail answer (.root family) names))
      (c.paths (.levels family) values) outcomes) :
    Clause.Adds (.levels family) q.fragment.clauses (q.addPaths outcomes).fragment.clauses
      fun v => c.Met answer v (.levels family) values := by
  have hfollows := follows_trails h
  have hlength := h.length_eq
  rw [fragment_addPaths]
  by_cases hfound : outcomes.filterMap PathOutcome.alternative? = []
  · -- no path resolves: nothing can be met, unless there are no paths at all
    have htrails : c.trails answer family (c.paths (.levels family) values) = [] := by
      rw [hfound] at hfollows
      exact List.forall₂_nil_right_iff.1 hfollows
    rw [if_pos hfound]
    by_cases hmissing : outcomes.filterMap PathOutcome.missing? = []
    · rw [if_pos hmissing]
      have hnone : c.paths (.levels family) values = [] := by
        rw [eq_nil_of_filterMap_eq_nil hfound hmissing, List.length_nil] at hlength
        exact List.length_eq_zero_iff.1 hlength
      refine (Clause.adds_same _ _).congr ?_
      intro v
      simp [Met, hnone]
    · rw [if_neg hmissing]
      have hsome : c.paths (.levels family) values ≠ [] := by
        intro hnone
        rw [hnone, List.length_nil] at hlength
        rw [List.length_eq_zero_iff.1 hlength.symm] at hmissing
        exact hmissing rfl
      refine (Clause.adds_nothing _ q).congr ?_
      intro v
      rw [Met, ← holdsOne_trails, htrails]
      simp [hsome, Valuation.HoldsOne]
  · rw [if_neg hfound]
    have hsome : c.trails answer family (c.paths (.levels family) values) ≠ [] := by
      intro hnone
      rw [hnone] at hfollows
      exact hfound (List.forall₂_nil_left_iff.1 hfollows)
    have hpaths' : c.paths (.levels family) values ≠ [] := by
      intro hnone
      rw [hnone] at hsome
      exact hsome rfl
    have hclauses : ((outcomes.filterMap PathOutcome.alternative?).map (·.fragment)).map (·.clauses)
        = ((c.trails answer family (c.paths (.levels family) values)).map c.texts).map
            (addTexts []) := by
      rw [List.map_map, List.map_map, eq_comm, ← List.forall₂_eq_eq_eq,
        List.forall₂_map_left_iff, List.forall₂_map_right_iff]
      exact hfollows.imp fun _ _ hf => hf.clauses.symm
    refine (Clause.adds_requireOneOf (mem_choosers_levels family) (openWith_trails hpaths)
      hclauses).congr fun v => ?_
    rw [Met, holdsOne_trails]
    simp [hsome, hpaths']

theorem adds_levels {family : FieldFamily}
    (h : Compiling.under answer (c.levels q family values) = .ok q') :
    Clause.Adds (.levels family) q.fragment.clauses q'.fragment.clauses
      (fun v => c.Met answer v (.levels family) values) ∧
    c.Readable answer (.levels family) values := by
  rw [levels] at h
  simp only [Compiling.under_bind, Compiling.under_pure] at h
  obtain ⟨outcomes, houtcomes, h⟩ := Except.bind_eq_ok h
  obtain rfl := Except.ok.inj h
  obtain ⟨found, hfound, -, hyields⟩ := expand_of_values houtcomes
  have hpaths := paths_eq_of_expand hfound
  rw [← hpaths] at hyields
  refine ⟨adds_addPaths (fun names hnames => ?_) hyields, fun _ => ⟨found, hfound⟩, ?_⟩
  · exact Expansion.ne_nil_of_mem_expand hfound (hpaths ▸ hnames)
  · intro family' he t ht
    obtain rfl := Parameter.levels.inj he
    obtain ⟨i, hi, rfl⟩ := List.getElem_of_mem ht
    have hall := follows_trails hyields
    exact (hall.get hi (hall.length_eq ▸ hi)).readable

/-! ## Flat parameters -/

/-- The alternatives of a flat parameter, when its values are not refused. -/
theorem alternatives_of_flat {p : Parameter} {found : List String}
    (h : c.flat p values = .ok found) :
    c.alternatives p values = found ∧
      ∃ paths, (c.settings.expansion p).expand values = .ok paths := by
  obtain ⟨paths, hpaths, rfl⟩ := Except.map_eq_ok h
  exact ⟨by rw [alternatives, paths_eq_of_expand hpaths], paths, hpaths⟩

/-- Of flat values, one of those that the parameter accepts is required. -/
theorem adds_acceptedTexts (c : Compiler) (q : CompiledQuery) (values : List String) {p : Parameter}
    (hp : p ∈ choosers) :
    Clause.Adds p q.fragment.clauses
      (q.requireOneOf ((c.acceptedTexts p values).map clauseFragment)).fragment.clauses fun v =>
      c.acceptedTexts p values ≠ [] → ∃ text ∈ c.acceptedTexts p values, v.holds text = true := by
  have hopen : Clause.OpenWith p ((c.acceptedTexts p values).map ([·])) := by
    constructor
    · intro group hg text htext
      obtain ⟨kept, hkept, rfl⟩ := List.mem_map.1 hg
      obtain ⟨value, -, hvalue⟩ := List.mem_filterMap.1 hkept
      obtain rfl := List.mem_singleton.1 htext
      exact isAtom_acceptedText hvalue
    · intro group hg
      obtain ⟨kept, hkept, rfl⟩ := List.mem_map.1 hg
      obtain ⟨value, -, hvalue⟩ := List.mem_filterMap.1 hkept
      exact ⟨kept, [], rfl, opening_acceptedText hvalue⟩
  have hclauses : ((c.acceptedTexts p values).map clauseFragment).map (·.clauses)
      = ((c.acceptedTexts p values).map ([·])).map (addTexts []) := by
    rw [List.map_map, List.map_map]
    rfl
  refine (Clause.adds_requireOneOf hp hopen hclauses).congr ?_
  intro v
  simp [Valuation.HoldsOne]

theorem readable_of_flat {p : Parameter} {found : List String} (hp : p.family? = none)
    (h : c.flat p values = .ok found) : c.Readable answer p values := by
  refine ⟨fun _ => (alternatives_of_flat h).2, ?_⟩
  rintro family rfl
  exact absurd hp (by simp [Parameter.family?])

/-- A flat parameter adds a choice between the clauses that it accepts, when its values expand. -/
theorem adds_flat {α : Type} (q : CompiledQuery) {p : Parameter} {found : List String} {l : List α}
    {text : α → String} (hp : p ∈ choosers) (hfamily : p.family? = none)
    (hfound : c.flat p values = .ok found) (htexts : c.acceptedTexts p values = l.map text) :
    Clause.Adds p q.fragment.clauses
      (q.requireOneOf (l.map fun a => clauseFragment (text a))).fragment.clauses (fun v =>
        c.acceptedTexts p values ≠ [] → ∃ t ∈ c.acceptedTexts p values, v.holds t = true) ∧
    c.Readable answer p values := by
  have hadds := adds_acceptedTexts c q values hp
  rw [htexts, List.map_map] at hadds
  refine ⟨?_, readable_of_flat hfamily hfound⟩
  rw [htexts]
  exact hadds

theorem adds_itemTypes (h : c.itemTypes q values = .ok q') :
    Clause.Adds .itemType q.fragment.clauses q'.fragment.clauses
      (fun v => c.Met answer v .itemType values) ∧ c.Readable answer .itemType values := by
  rw [itemTypes] at h
  obtain ⟨found, hfound, h⟩ := Except.bind_eq_ok h
  obtain rfl := Except.ok.inj h
  obtain ⟨halternatives, -⟩ := alternatives_of_flat hfound
  have htexts : c.acceptedTexts .itemType values
      = (found.filterMap ItemType.ofToken?).map fun type => Field.itemType ++ ":" ++ type.token := by
    rw [acceptedTexts, halternatives, List.map_filterMap]
    rfl
  refine ⟨?_, readable_of_flat rfl hfound⟩
  -- nothing can be met when no value is known, unless there are no values at all
  by_cases hknown : found.filterMap ItemType.ofToken? = []
  · by_cases hunknown : (found.filter fun value => (ItemType.ofToken? value).isNone) = []
    · have hnil : found = [] := by
        rw [List.eq_nil_iff_forall_not_mem]
        intro value hvalue
        have hnone := List.filterMap_eq_nil_iff.1 hknown value hvalue
        exact absurd (List.filter_eq_nil_iff.1 hunknown value hvalue) (by simp [hnone])
      simp only [hnil]
      refine (Clause.adds_same _ _).congr ?_
      intro v
      simp [Met, halternatives, hnil]
    · have hne : found ≠ [] := by
        rintro rfl
        exact hunknown rfl
      simp only [hknown, List.isEmpty_nil, Bool.true_and, List.isEmpty_eq_false_iff.2 hunknown,
        Bool.not_false, if_true]
      refine (Clause.adds_nothing _ q).congr ?_
      intro v
      simp [Met, halternatives, hne, htexts, hknown]
  · have hne : found ≠ [] := by
      rintro rfl
      exact hknown rfl
    simp only [List.isEmpty_eq_false_iff.2 hknown, Bool.false_and, Bool.false_eq_true, if_false]
    have hadds := adds_acceptedTexts c q values (p := .itemType)
      (by simp [choosers])
    rw [htexts, List.map_map] at hadds
    refine hadds.congr ?_
    intro v
    simp [Met, halternatives, hne, htexts, hknown]

theorem adds_identifiers (h : c.identifiers q values = .ok q') :
    Clause.Adds .identifier q.fragment.clauses q'.fragment.clauses
      (fun v => c.Met answer v .identifier values) ∧ c.Readable answer .identifier values := by
  rw [identifiers] at h
  obtain ⟨found, hfound, h⟩ := Except.bind_eq_ok h
  obtain rfl := Except.ok.inj h
  have htexts : c.acceptedTexts .identifier values = found.map identifierClause := by
    rw [acceptedTexts, (alternatives_of_flat hfound).1, ← List.filterMap_eq_map]
    rfl
  exact adds_flat q (by simp [choosers]) rfl hfound htexts

theorem fst_sortTiles (space : TileSpace) (found : List String) :
    (sortTiles space found).1 = found.filterMap fun value => (tilePath space value).toOption := by
  induction found with
  | nil => rfl
  | cons value rest ih =>
      rw [sortTiles, List.filterMap_cons]
      cases tilePath space value with
      | ok path => exact congrArg (path :: ·) ih
      | error e => exact ih

theorem adds_tiles {space : TileSpace} (h : c.tiles q space values = .ok q') :
    Clause.Adds (.tile space) q.fragment.clauses q'.fragment.clauses
      (fun v => c.Met answer v (.tile space) values) ∧ c.Readable answer (.tile space) values := by
  rw [tiles] at h
  obtain ⟨found, hfound, h⟩ := Except.bind_eq_ok h
  obtain rfl := Except.ok.inj h
  have htexts : c.acceptedTexts (.tile space) values
      = (sortTiles space found).1.map (tileClause space) := by
    rw [acceptedTexts, (alternatives_of_flat hfound).1, fst_sortTiles, List.map_filterMap]
    rfl
  -- the values that are no tiles are reported, which leaves the fragment as it is
  exact adds_flat { q with rejected := q.rejected ++ (sortTiles space found).2 }
    (mem_choosers_tile space) rfl hfound htexts

/-- No year is passed over: one that cannot be read is an error. -/
theorem filterMap_of_mapM_yearOf {bound : YearBound} {found : List String} {years : List Int}
    (h : found.mapM (yearOf bound) = .ok years) :
    found.filterMap (acceptedText (.year bound)) = years.map (yearClause bound) := by
  have hall := Except.forall₂_of_mapM_eq_ok h
  clear h
  induction hall with
  | nil => rfl
  | @cons value year found years hfirst hrest ih =>
      have hyear : Decimal.int64? value = some year := by
        unfold yearOf at hfirst
        split at hfirst
        · next read => rw [read, Except.ok.inj hfirst]
        · exact absurd hfirst (by simp)
      rw [List.filterMap_cons_some (b := yearClause bound year) (by simp [acceptedText, hyear]), ih,
        List.map_cons]

theorem adds_years {bound : YearBound} (h : c.years q bound values = .ok q') :
    Clause.Adds (.year bound) q.fragment.clauses q'.fragment.clauses
      (fun v => c.Met answer v (.year bound) values) ∧ c.Readable answer (.year bound) values := by
  rw [years] at h
  obtain ⟨found, hfound, h⟩ := Except.bind_eq_ok h
  obtain ⟨years, hyears, h⟩ := Except.bind_eq_ok h
  obtain rfl := Except.ok.inj h
  have htexts : c.acceptedTexts (.year bound) values = years.map (yearClause bound) := by
    rw [acceptedTexts, (alternatives_of_flat hfound).1, filterMap_of_mapM_yearOf hyears]
  exact adds_flat q (mem_choosers_year bound) rfl hfound htexts

/-! ## Parameters that narrow nothing -/

/-- Nothing is required of the values of a parameter that narrows nothing. -/
theorem met_of_not_mem {p : Parameter} (hp : p ∉ choosers) (v : Valuation) :
    c.Met answer v p values := by
  unfold Met
  split
  · next family => exact absurd (mem_choosers_levels family) hp
  · exact absurd (by simp [choosers]) hp
  · exact absurd (by simp [choosers]) hp
  · next space => exact absurd (mem_choosers_tile space) hp
  · next bound => exact absurd (mem_choosers_year bound) hp
  · trivial

/-- Nothing has to be read of the values of a parameter that narrows nothing. -/
theorem readable_of_not_mem {p : Parameter} (hp : p ∉ choosers) : c.Readable answer p values := by
  refine ⟨fun hmem => absurd hmem hp, ?_⟩
  rintro family rfl
  exact absurd (mem_choosers_levels family) hp

/-! ## Whole requests -/

/-- **A parameter that is not refused adds what it requires.** -/
theorem adds_parameter {p : Parameter}
    (h : Compiling.under answer (c.parameter q p values) = .ok q') :
    Clause.Adds p q.fragment.clauses q'.fragment.clauses (fun v => c.Met answer v p values) ∧
      c.Readable answer p values := by
  by_cases hp : p ∈ choosers
  · unfold parameter at h
    split at h
    · exact adds_levels h
    · exact adds_itemTypes h
    · exact absurd hp (by simp [choosers])
    · exact adds_identifiers h
    · exact adds_tiles h
    · exact adds_years h
    all_goals exact absurd hp (by simp [choosers])
  · refine ⟨?_, readable_of_not_mem hp⟩
    rw [((obeys_of_not_mem hp).under h).clauses]
    exact (Clause.adds_same p _).congr fun v => iff_of_true trivial (met_of_not_mem hp v)

/-- The values of all parameters can be read. -/
theorem readable_parameters {entries : List (String × List String)}
    (h : Compiling.under answer (c.parameters q entries) = .ok q') :
    ∀ entry ∈ entries, ∀ p, Parameter.ofName? entry.1 = some p → c.Readable answer p entry.2 := by
  induction entries generalizing q with
  | nil => simp
  | cons entry rest ih =>
      obtain ⟨name, values⟩ := entry
      rw [parameters] at h
      rw [List.forall_mem_cons]
      cases hp : Parameter.ofName? name with
      | none =>
          simp only [hp] at h
          exact ⟨by simp, ih h⟩
      | some p =>
          simp only [hp, Compiling.under_bind] at h
          obtain ⟨q₁, hq₁, h⟩ := Except.bind_eq_ok h
          refine ⟨fun p' hp' => ?_, ih h⟩
          obtain rfl := Option.some.inj hp'
          exact (adds_parameter hq₁).2

/-- **Nothing is lost between parameters**: what they require together is what each of them does. -/
theorem holds_parameters {entries : List (String × List String)} (ps : List Parameter)
    (hnames : (entries.map Prod.fst).Nodup) (hknown : Clause.Known ps q.fragment.clauses)
    (hps : ∀ p ∈ ps, p.name ∉ entries.map Prod.fst)
    (h : Compiling.under answer (c.parameters q entries) = .ok q') (v : Valuation) :
    q'.fragment.Holds v ↔ q.fragment.Holds v ∧ ∀ entry ∈ entries, ∀ p,
      Parameter.ofName? entry.1 = some p → c.Met answer v p entry.2 := by
  induction entries generalizing q ps with
  | nil =>
      obtain rfl := Except.ok.inj h
      simp
  | cons entry rest ih =>
      obtain ⟨name, values⟩ := entry
      obtain ⟨hname, hrest⟩ := List.nodup_cons.1 hnames
      have hps' : ∀ p ∈ ps, p.name ∉ rest.map Prod.fst := fun p hp hmem =>
        hps p hp (List.mem_cons_of_mem _ hmem)
      rw [parameters] at h
      rw [List.forall_mem_cons]
      cases hp : Parameter.ofName? name with
      | none =>
          simp only [hp] at h
          rw [ih ps hrest hknown hps' h]
          simp
      | some p =>
          simp only [hp, Compiling.under_bind] at h
          obtain ⟨q₁, hq₁, h⟩ := Except.bind_eq_ok h
          obtain ⟨hadds, -⟩ := adds_parameter hq₁
          -- the names of a request differ, so no earlier entry is of this parameter
          have hfresh : p ∉ ps := fun hmem =>
            hps p hmem (name_of_ofName? hp ▸ List.mem_cons_self ..)
          have hps₁ : ∀ p' ∈ p :: ps, p'.name ∉ rest.map Prod.fst := by
            intro p' hp'
            rcases List.mem_cons.1 hp' with rfl | hp'
            · exact name_of_ofName? hp ▸ hname
            · exact hps' p' hp'
          rw [ih (p :: ps) hrest (hadds.known hknown hfresh) hps₁ h, Fragment.Holds,
            hadds.holds_iff hknown hfresh v, and_assoc]
          simp only [Option.some.injEq, forall_eq']
          rfl

/-- What is said of every entry of a request holds of the values of every parameter, when it holds of
    no values. -/
theorem forall_values {params : Params} {P : Parameter → List String → Prop}
    (h : ∀ entry ∈ params.entries, ∀ p, Parameter.ofName? entry.1 = some p → P p entry.2)
    (hnil : ∀ p, P p []) (p : Parameter) : P p (params.values p.name) := by
  rcases params.mem_or_values_eq_nil p.name with hmem | hvalues
  · exact h _ hmem p (ofName?_name p)
  · rw [hvalues]
    exact hnil p

theorem met_nil (v : Valuation) (p : Parameter) : c.Met answer v p [] := by
  have hpaths : ∀ p, c.paths p [] = [] := fun _ => rfl
  unfold Met
  split <;> simp [alternatives, acceptedTexts, hpaths]

theorem readable_nil (p : Parameter) : c.Readable answer p [] :=
  ⟨fun _ => ⟨[], rfl⟩, by
    intro family _ t ht
    exact absurd ht (by simp [paths, trails, Expansion.expand, Expansion.collect, Except.map,
      Except.toOption])⟩

/-- **A compiled request holds exactly when all that its parameters require is met.** Once the index
    has answered, that is told by its clauses alone: every value can be read, and none of the ranges is
    without its clause. -/
theorem holds_compile_iff {params : Params} (hanswered : c.stats.answered = true)
    (hnames : params.DistinctNames) (h : Compiling.under answer (c.compile params) = .ok q) :
    (∀ p ∈ choosers, ∃ found,
        (c.settings.expansion p).expand (params.values p.name) = .ok found) ∧
      (∀ family, ∀ names ∈ c.paths (.levels family) (params.values (Parameter.levels family).name),
        ∀ t, c.trail answer (.root family) names = .ok t → ∀ raw, t.value = some raw →
          t.field.kind.axis?.isSome →
            ∃ u text, t.range? = some u ∧ c.rangeText u = some text ∧ c.valueTexts t = [text]) ∧
      ∀ v : Valuation, q.fragment.Holds v ↔
        ∀ p : Parameter, c.Met answer v p (params.values p.name) := by
  rw [compile] at h
  simp only [Compiling.under_bind, Compiling.under_pure] at h
  obtain ⟨q₁, hq₁, h⟩ := Except.bind_eq_ok h
  obtain rfl := Except.ok.inj h
  have hread : ∀ p : Parameter, c.Readable answer p (params.values p.name) :=
    forall_values (readable_parameters hq₁) readable_nil
  have hholds := holds_parameters [] hnames (by simp [Clause.Known, start]) (by simp) hq₁
  refine ⟨fun p hp => (hread p).expands hp, ?_, fun v => ?_⟩
  · intro family names hmem t ht raw hvalue haxis
    have hrange := (hread (.levels family)).ranges family rfl t (mem_trails.2 ⟨names, hmem, ht⟩) haxis
    exact valueTexts_of_not_waits hvalue haxis hrange fun u _ =>
      waits_eq_false_of_answered hanswered u
  · have hstart : c.start.fragment.Holds v := by simp [start, Fragment.Holds]
    rw [Fragment.Holds, (unmoved_withFacet _ q₁).clauses, ← Fragment.Holds, hholds v,
      and_iff_right hstart]
    refine ⟨fun hall => forall_values hall (met_nil v), ?_⟩
    rintro hall ⟨name, held⟩ hmem p hp
    obtain rfl := name_of_ofName? hp
    rw [← Params.values_of_mem hnames hmem]
    exact hall p

/-! ### A request with ranges -/

/-- The only entity is a predicate of numbers. -/
def onlyWeight (name : String) : Option Entity :=
  if name = "weight" then
    some { Entity.make "w" "weight" "Weight" .predicate with dataKind := some .numeric }
  else none

/-- The index has answered, and has seen no values. -/
def afterReply : Compiler := { stats := StatsTable.empty.markAnswered }

/-- Weights from 10 on or between 10 and 20, of media, where one value of each parameter is unknown. -/
def weightRequest : Params :=
  ⟨[("prop", ["weight---10,||10,20", "nowhere"]), ("type", ["media||nothing"])]⟩

/-- The request compiles and means what it says. -/
theorem holds_compile_weightRequest :
    afterReply.stats.answered = true ∧ weightRequest.DistinctNames ∧
      ∃ q, Compiling.under onlyWeight (afterReply.compile weightRequest) = .ok q ∧
        ∀ v : Valuation, q.fragment.Holds v ↔
          ∀ p : Parameter, afterReply.Met onlyWeight v p (weightRequest.values p.name) := by
  have hnames : weightRequest.DistinctNames := by
    unfold Params.DistinctNames
    decide +kernel
  have hok : (Compiling.under onlyWeight (afterReply.compile weightRequest)).isOk = true := by
    decide +kernel
  cases hq : Compiling.under onlyWeight (afterReply.compile weightRequest) with
  | error e => exact absurd (hq ▸ hok) (by simp [Except.isOk, Except.toBool])
  | ok q => exact ⟨rfl, hnames, q, rfl, (holds_compile_iff rfl hnames hq).2.2⟩

end FacetSearch.Compiler
