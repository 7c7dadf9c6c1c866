import FacetSearch.Proofs.Compilation.Trail
import FacetSearch.Proofs.Request.Segments
import Mathlib

set_option autoImplicit false

/-! # Drilling down

A facet goes on from one path of a parameter value, and its link writes that path with one more segment
between the other paths of the value. Read again, such a value is cut at the separator of levels before
that of alternatives, so what stands beside the drilled path becomes part of its levels. A value of one
path has nothing beside it, and there the link means what it says unless dashes run together. Both
conditions are needed (`expand_drilledValue_iff`). -/

namespace FacetSearch

/-! ## Dashes that run together -/

/-- The separator of a path cannot be mistaken behind one of the names or in front of a drilled
    segment. -/
def KeepsApart (family : FieldFamily) (names : List String) (segment : String) : Prop :=
  match family with
  | .context => True
  | .predicate | .project =>
    (∀ name ∈ names, ¬ ['-'] <:+ name.toList) ∧ segment ≠ "-" ∧ segment ≠ "--"

/-- A text runs into three dashes behind it when it ends with one. -/
theorem clear_dashes_iff {text : List Char} (hno : ¬ ['-', '-', '-'] <:+: text) :
    Text.Clear ['-', '-', '-'] text ↔ ¬ ['-'] <:+ text := by
  constructor
  · rintro hclear ⟨front, rfl⟩
    exact hclear ⟨front, [], by simp⟩
  · intro hend hi
    rcases List.infix_append_iff_ne_nil.1 hi with h | h | ⟨left, right, hleft, -, hsplit, hl, -⟩
    · exact hno h
    · exact absurd h.length_le (by simp)
    · -- the part of the dashes that the text holds ends with a dash
      have hlast : left.getLast hleft = '-' := by
        have hmem : left.getLast hleft ∈ ['-', '-', '-'] :=
          hsplit ▸ List.mem_append_left _ (List.getLast_mem hleft)
        simpa using hmem
      refine hend (List.IsSuffix.trans ?_ hl)
      rw [← hlast]
      exact ⟨left.dropLast, List.dropLast_append_getLast hleft⟩

theorem suffix_dashes_iff {text : List Char} (hne : text ≠ []) (hno : ¬ ['-', '-', '-'] <:+: text) :
    ['-', '-', '-'] <:+ ['-', '-', '-'] ++ text ↔ text = ['-'] ∨ text = ['-', '-'] := by
  constructor
  · intro h
    have htext : text <:+ ['-', '-', '-'] ++ text := List.suffix_append _ _
    -- a text of three characters would hold the dashes itself, and a shorter one is one of their ends
    by_cases hlength : 3 ≤ text.length
    · exact absurd (List.suffix_of_suffix_length_le h htext hlength).isInfix hno
    · have hsuffix := List.suffix_of_suffix_length_le htext h
        (by simp only [List.length_cons, List.length_nil]; omega)
      have hmem := (List.mem_tails _ _).2 hsuffix
      simp only [List.tails, List.mem_cons, hne, List.not_mem_nil, or_false] at hmem
      rcases hmem with rfl | h | h
      · simp at hlength
      · exact .inr h
      · exact .inl h
  · rintro (rfl | rfl) <;> decide

theorem keepsApart_iff {x : Expansion} {family : FieldFamily} {names : List String}
    {segment : String} (hx : x.levels = some family.separator)
    (hnames : ∀ name ∈ names, x.IsSegment name) (hsegment : x.IsSegment segment) :
    KeepsApart family names segment ↔
      (∀ name ∈ names, Text.Clear family.separator.toList name.toList) ∧
        ¬ family.separator.toList <:+ family.separator.toList ++ segment.toList := by
  have hno := hsegment.no_separator _ hx
  have hdashes : (∀ name ∈ names, x.IsSegment name) → family.separator = "---" →
      ((∀ name ∈ names, ¬ ['-'] <:+ name.toList) ∧ segment ≠ "-" ∧ segment ≠ "--" ↔
        (∀ name ∈ names, Text.Clear ['-', '-', '-'] name.toList) ∧
          ¬ ['-', '-', '-'] <:+ ['-', '-', '-'] ++ segment.toList) := by
    intro hnames hf
    rw [hf] at hno hx
    rw [suffix_dashes_iff hsegment.ne_nil hno, not_or, ne_eq, ne_eq, ← String.toList_inj,
      ← String.toList_inj]
    refine and_congr (forall₂_congr fun name hname => ?_) Iff.rfl
    exact (clear_dashes_iff ((hnames name hname).no_separator _ hx)).symm
  cases family with
  | context =>
      refine iff_of_true trivial ⟨fun name hname => ?_, fun h => hno ?_⟩
      · -- a separator of one character cannot arise at a joint
        have hslash : FieldFamily.context.separator.toList.dropLast = [] := rfl
        rw [Text.Clear, hslash, List.append_nil]
        exact (hnames name hname).no_separator _ hx
      · exact (List.suffix_of_suffix_length_le h (List.suffix_append _ _)
          (List.length_pos_iff.2 hsegment.ne_nil)).isInfix
  | predicate => exact hdashes hnames rfl
  | project => exact hdashes hnames rfl

/-! ## Facets of paths -/

namespace Compiler

variable {c : Compiler} {source : PathSource} {a : Alternative} {m : FacetMeta}

/-- The facet below a path knows what stands around the path in its value. -/
theorem before_after_of_path {answer : String → Option Entity} {names : List String}
    (h : Compiling.under answer (c.path source names) = .ok (.compiled a)) (hm : a.facet = some m) :
    m.before = source.before ∧ m.after = source.after := by
  obtain ⟨t, -, harrival⟩ := arrival_of_path h
  obtain ⟨_, _, rfl⟩ := facet_arrival harrival hm
  exact ⟨rfl, rfl⟩

theorem getElem?_sources {family : FieldFamily} {value : String} {paths : List (List String)} {i : Nat}
    {names : List String} (h : (c.sources family value paths)[i]? = some (source, names)) :
    paths[i]? = some names ∧ (paths.length = 1 → source.before = "" ∧ source.after = "") := by
  simp only [sources, List.getElem?_map, List.getElem?_zipIdx, Option.map_map,
    Option.map_eq_some_iff] at h
  obtain ⟨path, hpath, he⟩ := h
  obtain ⟨rfl, rfl⟩ := Prod.mk.inj he
  refine ⟨hpath, ?_⟩
  intro hone
  obtain ⟨only, rfl⟩ := List.length_eq_one_iff.1 hone
  obtain ⟨hi, -⟩ := List.getElem?_eq_some_iff.1 hpath
  obtain rfl : i = 0 := by simpa using hi
  exact ⟨rfl, rfl⟩

/-! ## Drilled values -/

/-- **A drilled value puts the drilled path in its place among the paths exactly when there are no other
    paths**, and no dashes run together. -/
theorem expand_drilledValue_iff {answer : String → Option Entity} {family : FieldFamily}
    {raw segment : String} {paths : List (List String)} {i : Nat} {names : List String}
    (hexpand : (c.settings.expansion (.levels family)).expand [raw] = .ok paths)
    (hsource : (c.sources family raw paths)[i]? = some (source, names))
    (hpath : Compiling.under answer (c.path source names) = .ok (.compiled a))
    (hfacet : a.facet = some m) (hblank : Text.isBlankText segment = false)
    (htrim : Text.trim segment = segment) (hlevel : ¬ family.separator.toList <:+: segment.toList)
    (hor : ¬ c.settings.orDelimiter.toList <:+: segment.toList) :
    (c.settings.expansion (.levels family)).expand
        [m.drilledValue (family.separator.intercalate (names ++ [segment]))]
      = .ok (paths.set i (names ++ [segment])) ↔
    paths.length = 1 ∧ KeepsApart family names segment := by
  have hx : (c.settings.expansion (.levels family)).levels = some family.separator := rfl
  have hs : family.separator.toList ≠ [] := by cases family <;> simp [FieldFamily.separator]
  obtain ⟨hi, hbeside⟩ := getElem?_sources hsource
  have hmem : names ∈ paths := List.mem_of_getElem? hi
  have hne : names ≠ [] := Expansion.ne_nil_of_mem_expand hexpand hmem
  have hnames : ∀ name ∈ names, (c.settings.expansion (.levels family)).IsSegment name :=
    fun name => Expansion.isSegment_of_mem_path hx hs hexpand hmem
  have hsegment : (c.settings.expansion (.levels family)).IsSegment segment := by
    refine ⟨?_, ?_, fun separator he => ?_, hor⟩
    · intro hnil
      rw [Text.isBlankText, hnil] at hblank
      exact absurd hblank (by simp)
    · rw [← Text.trimChars_eq_self_iff, ← String.toList_ofList (l := Text.trimChars _), ← Text.trim,
        htrim]
    · obtain rfl := Option.some.inj (hx.symm.trans he)
      exact hlevel
  by_cases hone : paths.length = 1
  · obtain ⟨only, rfl⟩ := List.length_eq_one_iff.1 hone
    obtain rfl := List.mem_singleton.1 hmem
    obtain ⟨hlt, -⟩ := List.getElem?_eq_some_iff.1 hi
    obtain rfl : i = 0 := by simpa using hlt
    have hlimit := Expansion.one_le_limit_of_mem_expand hexpand hmem
    have hdrilled : m.drilledValue (family.separator.intercalate (names ++ [segment]))
        = family.separator.intercalate (names ++ [segment]) := by
      obtain ⟨hbefore, hafter⟩ := before_after_of_path hpath hfacet
      obtain ⟨hb, ha⟩ := hbeside rfl
      rw [FacetMeta.drilledValue, hbefore, hafter, hb, ha, String.empty_append, String.append_empty]
    rw [hdrilled, List.set_cons_zero, keepsApart_iff hx hnames hsegment,
      Expansion.expand_concat_iff hx hs hnames hsegment hne hlimit]
    exact (and_iff_right rfl).symm
  · -- the paths of one value are equally long, and only one of them has become longer
    refine iff_of_false (fun h => ?_) (fun h => hone h.1)
    obtain ⟨hlt, -⟩ := List.getElem?_eq_some_iff.1 hi
    obtain ⟨j, hj, hji⟩ : ∃ j, j < paths.length ∧ i ≠ j := by
      by_cases hzero : i = 0
      · exact ⟨1, by omega, by omega⟩
      · exact ⟨0, by omega, hzero⟩
    have hother : paths[j] ∈ paths.set i (names ++ [segment]) := by
      rw [List.mem_iff_getElem?]
      exact ⟨j, by rw [List.getElem?_set_ne hji, List.getElem?_eq_getElem hj]⟩
    have hlength := Expansion.length_eq_of_mem_expand hexpand hmem (List.getElem_mem hj)
    have hlength' := Expansion.length_eq_of_mem_expand h (List.mem_set hlt _) hother
    rw [List.length_append, List.length_singleton] at hlength'
    omega

/-! ### Materials -/

theorem compiled_of_facet (answer : String → Option Entity) (c : Compiler) (source : PathSource)
    (names : List String) (m : FacetMeta)
    (h : (Compiling.under answer (c.path source names)).toOption.bind
      (fun outcome => outcome.alternative?.bind (·.facet)) = some m) :
    ∃ a, Compiling.under answer (c.path source names) = .ok (.compiled a) ∧ a.facet = some m := by
  obtain ⟨outcome, ho, h⟩ := Option.bind_eq_some_iff.1 h
  obtain ⟨a, ha, hm⟩ := Option.bind_eq_some_iff.1 h
  cases hpath : Compiling.under answer (c.path source names) with
  | error e => exact absurd (hpath ▸ ho) (by simp [Except.toOption])
  | ok found =>
      obtain rfl : found = outcome := by simpa [hpath, Except.toOption] using ho
      cases found with
      | unresolved name => exact absurd ha (by simp [PathOutcome.alternative?])
      | compiled a' =>
          obtain rfl := Option.some.inj ha
          exact ⟨a', rfl, hm⟩

/-- A predicate and two of its values, of which nothing else is known. -/
def materials (name : String) : Option Entity :=
  if name = "material" then some (Entity.make "m1" "material" "Material" .predicate)
  else if name = "shell" then some (Entity.make "s1" "shell" "Shell" .concept)
  else if name = "stone" then some (Entity.make "s2" "stone" "Stone" .concept)
  else none

/-- The path to shell in a value that begins with it. -/
def shellSource (value after : String) : PathSource := { family := .predicate, value, after }

/-- The facet below that path. -/
def shellFacet (value after : String) : FacetMeta where
  field := "shell___pred_id"
  parameter := .levels .predicate
  kind := .entity
  parentLabel := some "Shell"
  path := ["material", "shell"]
  source := some value
  after := after

/-- Where shell stands alone, the link leads below it. -/
theorem expand_drilledValue_shell :
    ∃ a, Expansion.expand (CompilerSettings.expansion {} (.levels .predicate)) ["material---shell"]
        = .ok [["material", "shell"]] ∧
      (Compiler.sources {} .predicate "material---shell" [["material", "shell"]])[0]?
        = some (shellSource "material---shell" "", ["material", "shell"]) ∧
      Compiling.under materials
          (Compiler.path {} (shellSource "material---shell" "") ["material", "shell"])
        = .ok (.compiled a) ∧
      a.facet = some (shellFacet "material---shell" "") ∧
      Expansion.expand (CompilerSettings.expansion {} (.levels .predicate))
          [(shellFacet "material---shell" "").drilledValue "material---shell---fine-shell"]
        = .ok [["material", "shell", "fine-shell"]] := by
  have hexpand : Expansion.expand (CompilerSettings.expansion {} (.levels .predicate))
      ["material---shell"] = .ok [["material", "shell"]] := by decide +kernel
  have hsource : (Compiler.sources {} .predicate "material---shell" [["material", "shell"]])[0]?
      = some (shellSource "material---shell" "", ["material", "shell"]) := by decide +kernel
  obtain ⟨a, hpath, hfacet⟩ := compiled_of_facet materials {} (shellSource "material---shell" "")
    ["material", "shell"] (shellFacet "material---shell" "") (by decide +kernel)
  have hapart : KeepsApart .predicate ["material", "shell"] "fine-shell" := by
    unfold KeepsApart
    decide +kernel
  have hwritten : FieldFamily.predicate.separator.intercalate (["material", "shell"] ++ ["fine-shell"])
      = "material---shell---fine-shell" := by decide +kernel
  refine ⟨a, hexpand, hsource, hpath, hfacet, ?_⟩
  rw [← hwritten]
  exact (expand_drilledValue_iff (c := {}) hexpand hsource hpath hfacet (by decide +kernel)
    (by decide +kernel) (by decide +kernel) (by decide +kernel)).2 ⟨rfl, hapart⟩

/-- Beside stone, the link leads to stone below fine shell, and to a material below shell. -/
theorem expand_drilledValue_shell_stone :
    ∃ a, Expansion.expand (CompilerSettings.expansion {} (.levels .predicate))
          ["material---shell||stone"] = .ok [["material", "shell"], ["material", "stone"]] ∧
      (Compiler.sources {} .predicate "material---shell||stone"
          [["material", "shell"], ["material", "stone"]])[0]?
        = some (shellSource "material---shell||stone" "||material---stone", ["material", "shell"]) ∧
      Compiling.under materials
          (Compiler.path {} (shellSource "material---shell||stone" "||material---stone")
            ["material", "shell"])
        = .ok (.compiled a) ∧
      a.facet = some (shellFacet "material---shell||stone" "||material---stone") ∧
      (Text.isBlankText "fine-shell" = false ∧ Text.trim "fine-shell" = "fine-shell" ∧
        ¬ "---".toList <:+: "fine-shell".toList ∧ ¬ "||".toList <:+: "fine-shell".toList) ∧
      Expansion.expand (CompilerSettings.expansion {} (.levels .predicate))
          [(shellFacet "material---shell||stone" "||material---stone").drilledValue
            "material---shell---fine-shell"]
        ≠ .ok ([["material", "shell"], ["material", "stone"]].set 0
            ["material", "shell", "fine-shell"]) := by
  obtain ⟨a, hpath, hfacet⟩ := compiled_of_facet materials {}
    (shellSource "material---shell||stone" "||material---stone") ["material", "shell"]
    (shellFacet "material---shell||stone" "||material---stone") (by decide +kernel)
  have hread : Expansion.expand (CompilerSettings.expansion {} (.levels .predicate))
      [(shellFacet "material---shell||stone" "||material---stone").drilledValue
        "material---shell---fine-shell"]
      = .ok [["material", "shell", "fine-shell", "stone"],
          ["material", "shell", "material", "stone"]] := by decide +kernel
  refine ⟨a, by decide +kernel, by decide +kernel, hpath, hfacet, by decide +kernel, ?_⟩
  rw [hread]
  decide +kernel

end Compiler

end FacetSearch
