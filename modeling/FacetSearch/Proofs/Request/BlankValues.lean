import FacetSearch.Index.Term
import FacetSearch.Navigation.ActiveFilter
import FacetSearch.Proofs.Request.Params
import FacetSearch.Proofs.Request.Segments
import Mathlib

set_option autoImplicit false

/-! # Blank values

A value of white space, or of nothing at all, has no levels and no words: wherever it stands among
other values, these expand as if it were not there (`expand_append_blank`), and no filter is shown for
it (`filterValues_of_gains`). -/

namespace FacetSearch

/-! ## Blank texts -/

namespace Text

theorem trimChars_of_blank {text : List Char} (h : ∀ c ∈ text, isBlank c = true) :
    trimChars text = [] := by
  rw [trimChars, List.dropWhile_eq_nil_iff.2 h]
  rfl

theorem trim_of_blank {text : String} (h : isBlankText text = true) : trim text = "" := by
  rw [trim, trimChars_of_blank (List.all_eq_true.1 h), String.ofList_nil]

theorem words_of_blank {text : String} (h : isBlankText text = true) : words text = [] := by
  have hfrom : ∀ chars : List Char, (∀ c ∈ chars, isBlank c = true) → wordsFrom [] chars = [] := by
    intro chars
    induction chars with
    | nil => exact fun _ => rfl
    | cons c rest ih =>
        intro hall
        rw [wordsFrom, if_pos (hall c (List.mem_cons_self ..)), if_pos List.isEmpty_nil]
        exact ih fun d hd => hall d (List.mem_cons_of_mem _ hd)
  rw [words, hfrom _ (List.all_eq_true.1 h)]
  rfl

end Text

theorem Term.tokenize_of_blank {text : String} (h : Text.isBlankText text = true) :
    tokenize text = [] := by
  -- a quote is not blank, so there is one part, outside of quotes
  have hquote : '"' ∉ text.toList := fun hmem =>
    absurd (List.all_eq_true.1 h '"' hmem) (by decide)
  rw [tokenize, List.splitOn_eq_singleton hquote]
  simp only [List.map_cons, List.map_nil, termsOf, String.ofList_toList, Text.words_of_blank h,
    Bool.false_eq_true, if_false, List.append_nil]

/-! ## Expansion -/

namespace Expansion

variable {x : Expansion} {value : String}

theorem levelsOf_of_blank (h : Text.isBlankText value = true) : x.levelsOf value = .ok none := by
  have hbare : x.bare value = "" := by
    unfold bare
    rw [Text.trim_of_blank h]
    cases x.levels with
    | none => rfl
    | some separator =>
        rw [← String.toList_eq_nil_iff]
        simpa [Text.stripMarks] using Text.trimMarks_infix separator.toList []
  rw [levelsOf, hbare]
  rfl

theorem expand_of_blank (h : Text.isBlankText value = true) : x.expand [value] = .ok [] :=
  expand_singleton_of_blank (levelsOf_of_blank h)

theorem collect_append_blank (h : Text.isBlankText value = true) (total : Nat)
    (before after : List String) :
    x.collect total (before ++ value :: after) = x.collect total (before ++ after) := by
  induction before generalizing total with
  | nil => exact collect_cons_of_blank (levelsOf_of_blank h)
  | cons raw rest ih => simp only [List.cons_append, collect, ih]

/-- **Values expand as if blank ones were not there.** -/
theorem expand_append_blank (h : Text.isBlankText value = true) (before after : List String) :
    x.expand (before ++ value :: after) = x.expand (before ++ after) := by
  rw [expand, collect_append_blank h, expand]

end Expansion

/-! ## Requests with one value more -/

namespace Params

/-- The second entries have one value more, of one name: among the values that it has in the first
    ones, or as a name of its own. -/
inductive Gains (name value : String) :
    List (String × List String) → List (String × List String) → Prop where
  | among (before after : List String) (rest : List (String × List String)) :
    Gains name value ((name, before ++ after) :: rest) ((name, before ++ value :: after) :: rest)
  | alone (rest : List (String × List String)) : Gains name value rest ((name, [value]) :: rest)
  | later {entry : String × List String} {entries entries' : List (String × List String)}
    (hne : entry.1 ≠ name) (h : Gains name value entries entries') :
    Gains name value (entry :: entries) (entry :: entries')

variable {name value : String} {p p' : Params}

/-- A value that is put behind the others is one more. -/
theorem gains_push (p : Params) (name value : String) :
    Gains name value p.entries (p.push name value).entries := by
  obtain ⟨entries⟩ := p
  show Gains name value entries (editEntries name (· ++ [value]) entries)
  induction entries with
  | nil => exact .alone []
  | cons entry rest ih =>
      obtain ⟨other, held⟩ := entry
      rw [editEntries]
      by_cases he : other = name
      · rw [if_pos he, he]
        have hamong : Gains name value ((name, held ++ []) :: rest)
            ((name, held ++ value :: []) :: rest) := .among held [] rest
        rwa [List.append_nil] at hamong
      · rw [if_neg he]
        exact .later he ih

theorem values_of_gains_of_ne {other : String} (hne : other ≠ name)
    (h : Gains name value p.entries p'.entries) : p'.values other = p.values other := by
  obtain ⟨entries⟩ := p
  obtain ⟨entries'⟩ := p'
  simp only [values] at *
  induction h with
  | among before after rest | alone rest =>
      simp only [List.lookup_cons, beq_eq_false_iff_ne.2 hne]
  | @later entry _ _ _ _ ih =>
      rw [List.lookup_cons, List.lookup_cons]
      cases other == entry.1 with
      | true => rfl
      | false => exact ih

/-- The request with the value has the name. -/
theorem contains_of_gains (h : Gains name value p.entries p'.entries) : p'.contains name = true := by
  obtain ⟨entries⟩ := p
  obtain ⟨entries'⟩ := p'
  simp only [contains, values] at *
  induction h with
  | among before after rest => simp
  | alone rest => simp
  | @later entry _ _ hne _ ih =>
      rw [List.lookup_cons, beq_eq_false_iff_ne.2 hne.symm]
      exact ih

/-- What passes over the value finds the same in both requests. -/
theorem filterMap_toPairs_of_gains {α : Type} {f : String × String → Option α}
    (hf : f (name, value) = none) (h : Gains name value p.entries p'.entries) :
    p'.toPairs.filterMap f = p.toPairs.filterMap f := by
  obtain ⟨entries⟩ := p
  obtain ⟨entries'⟩ := p'
  simp only [toPairs] at *
  induction h with
  | among before after rest =>
      simp only [List.flatMap_cons, List.map_append, List.map_cons, List.filterMap_append,
        List.filterMap_cons_none hf]
  | alone rest =>
      simp only [List.flatMap_cons, List.map_cons, List.map_nil, List.filterMap_append,
        List.filterMap_cons_none hf, List.filterMap_nil, List.nil_append]
  | later _ _ ih => simp only [List.flatMap_cons, List.filterMap_append, ih]

/-- **No filter is shown for a blank value.** -/
theorem filterValues_of_gains (hblank : Text.isBlankText value = true)
    (h : Gains name value p.entries p'.entries) : filterValues p' = filterValues p := by
  refine filterMap_toPairs_of_gains ?_ h
  dsimp only
  split
  · simp [hblank]
  · rfl

end Params

end FacetSearch
