import FacetSearch.Proofs.Ancestry.Exchanges
import FacetSearch.Proofs.Compilation.Misses

set_option autoImplicit false

/-! # Paths through entities

What a path compiles to when every name on it stands for an entity that has entities below it. Each
entity names the field below it, and once the path has gone through a link, be it by a name with the
mark of related records or by an entity that is one, the mark stands in front of every deeper field
(`fieldBelow`). Each entity is required in the field that those before it have led to, and the field
below the last one becomes a facet (`exchange_path`). -/

namespace FacetSearch.Compiler

variable (c : Compiler)

/-! ## Fields below entities -/

/-- The path goes through a link: the name has the mark of related records, or the entity is one. -/
def links (step : String × Entity) : Bool :=
  (Text.dropLead c.settings.relatedMark step.1).isSome || step.2.related

/-- The name of the field below some entities, each with the name that it has on the path. -/
def fieldBelow (family : FieldFamily) (steps : List (String × Entity)) : String :=
  let (slug, kind) := match steps.getLast? with
    | some (_, e) => (Field.safe e.slug, e.fieldKind)
    | none => (Field.rootSlug, .id)
  (if steps.any c.links then c.settings.relatedMark else "")
    ++ slug ++ Field.delimiter ++ family.token ++ "_" ++ kind.suffix

/-- The clauses that require the entities of a path, each in the field below those before it. -/
def pathTexts (family : FieldFamily) (steps : List (String × Entity)) : List String :=
  steps.zipIdx.map fun (step, i) =>
    c.fieldBelow family (steps.take i) ++ ":" ++ Term.escape step.2.slug

/-- The field that a path has reached behind some entities. -/
def below (family : FieldFamily) (steps : List (String × Entity)) : FieldPath where
  family := family
  mark := if steps.any c.links then some c.settings.relatedMark else none
  steps := steps.map fun step => ⟨step.2.identifier, step.2.slug, step.2.label, step.2.fieldKind⟩

/-- The clauses of the rest of a path, behind the entities before it. -/
def textsBehind (family : FieldFamily) (before rest : List (String × Entity)) : List String :=
  (rest.zipIdx before.length).map fun (step, i) =>
    c.fieldBelow family ((before ++ rest).take i) ++ ":" ++ Term.escape step.2.slug

section

variable {c} {family : FieldFamily} {before rest steps : List (String × Entity)}
  {step : String × Entity}

theorem markBelow_eq (step : String × Entity) :
    c.markBelow step.1 step.2 = if c.links step then some c.settings.relatedMark else none := by
  rw [markBelow, links, unmarked]
  cases Text.dropLead c.settings.relatedMark step.1 <;> rfl

/-- A mark that is there stays, and else the last step decides. -/
theorem child_below (steps : List (String × Entity)) (step : String × Entity) :
    (c.below family steps).child step.2 (c.markBelow step.1 step.2)
      = c.below family (steps ++ [step]) := by
  rw [FieldPath.child, markBelow_eq, below, below, FieldPath.mk.injEq]
  refine ⟨rfl, ?_, by rw [List.map_append, List.map_singleton]⟩
  rw [List.any_append, List.any_cons, List.any_nil, Bool.or_false]
  cases steps.any c.links <;> cases c.links step <;> rfl

theorem parent_below : (c.below family steps).parent
    = steps.getLast?.map fun step => ⟨step.2.identifier, step.2.slug, step.2.label, step.2.fieldKind⟩ :=
  List.getLast?_map

theorem name_below : (c.below family steps).name = c.fieldBelow family steps := by
  have hmark : (c.below family steps).mark.getD ""
      = if steps.any c.links then c.settings.relatedMark else "" := by
    rw [below]
    cases steps.any c.links <;> rfl
  rw [FieldPath.name, FieldPath.kind, parent_below, fieldBelow, hmark]
  cases steps.getLast? <;> rfl

theorem kind_below (hids : ∀ step ∈ steps, step.2.fieldKind = .id) :
    (c.below family steps).kind = .id := by
  rw [FieldPath.kind, parent_below]
  cases hlast : steps.getLast? with
  | none => rfl
  | some last => exact hids last (List.mem_of_mem_getLast? hlast)

theorem textsBehind_cons : c.textsBehind family before (step :: rest)
    = (c.fieldBelow family before ++ ":" ++ Term.escape step.2.slug)
      :: c.textsBehind family (before ++ [step]) rest := by
  simp only [textsBehind, List.zipIdx_cons, List.map_cons, List.take_left, List.length_append,
    List.length_singleton, List.append_assoc, List.singleton_append]

end

/-! ## Texts as clauses -/

theorem addTexts_singles (held new : List String) :
    addTexts (held.map .single) new = (new.foldl Fragment.addNew held).map .single := by
  have htexts : ∀ held : List String, Clause.texts (held.map .single) = held := by
    intro held
    simp [Clause.texts, Function.comp_def, Clause.text]
  induction new generalizing held with
  | nil => rfl
  | cons text rest ih =>
      rw [addTexts, List.foldl_cons, List.foldl_cons, ← ih, ← addTexts, Clause.add, Fragment.addNew,
        htexts]
      congr 1
      split <;> simp_all [Clause.text]

/-- The clauses of texts are kept where they first come. -/
theorem addTexts_nil (texts : List String) : addTexts [] texts = texts.eraseDups.map .single := by
  have h := addTexts_singles [] texts
  rwa [foldl_addNew_eq, List.map_nil, List.nil_append, List.filter_eq_self.2 (by simp)] at h

/-! ## The path -/

variable (source : PathSource)

/-- **The rest of a path through entities**, behind those before it. -/
theorem exchange_pathFrom (before rest : List (String × Entity))
    (hids : ∀ step ∈ before ++ rest, step.2.fieldKind = .id) (f : Fragment) :
    (c.pathFrom source (c.below source.family before) (before.map (·.1)) f (rest.map (·.1))).run.Exchange
      (rest.map fun step => ((c.unmarked step.1).1, some step.2))
      (.ok (.compiled {
        fragment := { f with
          clauses := addTexts f.clauses (c.textsBehind source.family before rest)
          facetFields := f.facetFields.insert (c.fieldBelow source.family (before ++ rest)) }
        facet := some (source.facet (c.below source.family (before ++ rest)) .entity
          ((before ++ rest).map (·.1))) })) := by
  induction rest generalizing before f with
  | nil =>
      have hkind : (c.below source.family before).kind = .id := kind_below (by simpa using hids)
      rw [List.map_nil, List.append_nil, pathFrom, pathEnd, hkind, name_below]
      exact .done _
  | cons step rest ih =>
      obtain ⟨raw, e⟩ := step
      have hkind : (c.below source.family before).kind = .id :=
        kind_below fun step hstep => hids step (List.mem_append_left _ hstep)
      have hnext := ih (before ++ [(raw, e)]) (by simpa using hids)
        (f.require (entityClause (c.below source.family before) e))
      -- the clause of the entity is the first of the texts that are left
      have htexts : addTexts (f.require (entityClause (c.below source.family before) e)).clauses
            (c.textsBehind source.family (before ++ [(raw, e)]) rest)
          = addTexts f.clauses (c.textsBehind source.family before ((raw, e) :: rest)) := by
        rw [textsBehind_cons, addTexts, addTexts, List.foldl_cons, ← name_below]
        rfl
      rw [htexts, ← child_below, List.map_append, List.append_assoc] at hnext
      rw [List.map_cons, pathFrom.eq_def]
      dsimp only
      rw [hkind, if_neg (by decide)]
      exact Inquiry.Exchange.ask hnext

/-- **A path through entities** asks for each of its names in turn. It requires the slug of each entity
    in the field below those before it, no clause twice, and has the field below all of them for a
    facet. -/
theorem exchange_path {steps : List (String × Entity)}
    (hids : ∀ step ∈ steps, step.2.fieldKind = .id) :
    (c.path source (steps.map (·.1))).run.Exchange
      (steps.map fun step => ((c.unmarked step.1).1, some step.2))
      (.ok (.compiled {
        fragment := {
          clauses := (c.pathTexts source.family steps).eraseDups.map .single
          facetFields := (∅ : Std.ExtTreeSet String).insert (c.fieldBelow source.family steps) }
        facet := some {
          field := c.fieldBelow source.family steps
          parameter := .levels source.family
          kind := .entity
          parentLabel := steps.getLast?.map (·.2.label)
          path := steps.map (·.1)
          source := some source.value
          before := source.before
          after := source.after } })) := by
  have hpath := exchange_pathFrom c source [] steps hids .empty
  have hfacet : source.facet (c.below source.family steps) .entity (steps.map (·.1))
      = {
          field := c.fieldBelow source.family steps
          parameter := .levels source.family
          kind := .entity
          parentLabel := steps.getLast?.map (·.2.label)
          path := steps.map (·.1)
          source := some source.value
          before := source.before
          after := source.after } := by
    rw [PathSource.facet, name_below, parent_below, Option.map_map]
    rfl
  rw [List.nil_append, hfacet] at hpath
  rw [← addTexts_nil]
  exact hpath

/-- A path through a link in the middle, which the last name marks once more. -/
def linkedSteps : List (String × Entity) :=
  [("material", .make "m" "m-1" "Material" .predicate),
    ("links", { Entity.make "l" "links" "Links" .predicate with related := true }),
    ("rel--shell", { Entity.make "s" "shell" "Shell" .predicate with
      dataKind := some .numeric, hasChildren := true })]

theorem exchange_path_linkedSteps :
    (∀ step ∈ linkedSteps, step.2.fieldKind = .id) ∧
    (Compiler.path {} { family := .predicate, value := "material---links---rel--shell" }
        ["material", "links", "rel--shell"]).run.Exchange
      (["material", "links", "shell"].zip (linkedSteps.map fun step => some step.2))
      (.ok (.compiled {
        fragment := {
          clauses := [.single "root___pred_id:m\\-1", .single "m_1___pred_id:links",
            .single "rel--links___pred_id:shell"]
          facetFields := (∅ : Std.ExtTreeSet String).insert "rel--shell___pred_id" }
        facet := some {
          field := "rel--shell___pred_id"
          parameter := .levels .predicate
          kind := .entity
          parentLabel := some "Shell"
          path := ["material", "links", "rel--shell"]
          source := some "material---links---rel--shell" } })) := by
  have hids : ∀ step ∈ linkedSteps, step.2.fieldKind = .id := by decide
  have htexts : (Compiler.pathTexts {} .predicate linkedSteps).eraseDups
      = ["root___pred_id:m\\-1", "m_1___pred_id:links", "rel--links___pred_id:shell"] := by
    decide +kernel
  have hfield : Compiler.fieldBelow {} .predicate linkedSteps = "rel--shell___pred_id" := by
    decide +kernel
  have hasked : linkedSteps.map (fun step => ((Compiler.unmarked {} step.1).1, some step.2))
      = ["material", "links", "shell"].zip (linkedSteps.map fun step => some step.2) := by
    decide +kernel
  have hpath := exchange_path {} { family := .predicate, value := "material---links---rel--shell" } hids
  rw [htexts, hfield, hasked] at hpath
  exact ⟨hids, hpath⟩

end FacetSearch.Compiler
