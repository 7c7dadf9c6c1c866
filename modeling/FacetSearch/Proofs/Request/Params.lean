import FacetSearch.Request.Params
import Mathlib

set_option autoImplicit false

/-! # Names of parameters

A request names each parameter once: an edit puts the values of a name together, so the entries keep
different names, and `Params.values` finds the values of each, in whatever order the entries come. -/

namespace FacetSearch.Params

/-- No name comes twice. -/
def DistinctNames (p : Params) : Prop := (p.entries.map Prod.fst).Nodup

theorem values_of_mem {p : Params} (h : p.DistinctNames) {name : String} {held : List String}
    (hmem : (name, held) ∈ p.entries) : p.values name = held := by
  obtain ⟨entries⟩ := p
  simp only [DistinctNames, values] at *
  induction entries with
  | nil => exact absurd hmem (by simp)
  | cons entry rest ih =>
      obtain ⟨other, others⟩ := entry
      obtain ⟨hother, hrest⟩ := List.nodup_cons.1 h
      rcases List.mem_cons.1 hmem with he | hlater
      · obtain ⟨rfl, rfl⟩ := Prod.mk.inj he
        simp
      · have hne : name ≠ other := by
          rintro rfl
          exact hother (List.mem_map.2 ⟨_, hlater, rfl⟩)
        rw [List.lookup_cons, beq_eq_false_iff_ne.2 hne]
        exact ih hrest hlater

/-- A name without an entry has no values. -/
theorem mem_or_values_eq_nil (p : Params) (name : String) :
    (name, p.values name) ∈ p.entries ∨ p.values name = [] := by
  unfold values
  cases hl : p.entries.lookup name with
  | none => exact .inr rfl
  | some held =>
      obtain ⟨before, after, he, -⟩ := List.lookup_eq_some_iff.1 hl
      rw [he]
      exact .inl (by simp)

/-- The order of entries with different names is irrelevant to the values of each. -/
theorem values_eq_of_perm {p p' : Params} (hnames : p.DistinctNames)
    (hperm : p.entries.Perm p'.entries) (name : String) : p.values name = p'.values name := by
  have hnames' : p'.DistinctNames := (hperm.map Prod.fst).nodup_iff.1 hnames
  rcases p.mem_or_values_eq_nil name with hmem | hnil
  · exact (values_of_mem hnames' (hperm.mem_iff.1 hmem)).symm
  · rcases p'.mem_or_values_eq_nil name with hmem | hnil'
    · exact values_of_mem hnames (hperm.mem_iff.2 hmem)
    · rw [hnil, hnil']

theorem map_fst_editEntries (name : String) (f : List String → List String)
    (entries : List (String × List String)) :
    (editEntries name f entries).map Prod.fst
      = if name ∈ entries.map Prod.fst then entries.map Prod.fst
        else entries.map Prod.fst ++ [name] := by
  induction entries with
  | nil => rfl
  | cons entry rest ih =>
      obtain ⟨other, held⟩ := entry
      rw [editEntries]
      by_cases he : other = name
      · rw [if_pos he]
        simp [he]
      · rw [if_neg he, List.map_cons, ih]
        simp only [List.map_cons, List.mem_cons, Ne.symm he, false_or]
        split <;> rfl

theorem DistinctNames.edit {p : Params} (h : p.DistinctNames) (name : String)
    (f : List String → List String) : (p.edit name f).DistinctNames := by
  unfold DistinctNames Params.edit
  rw [map_fst_editEntries]
  split
  · exact h
  · next hname => exact List.nodup_append.2 ⟨h, by simp, by
      rintro other hother _ hmem rfl
      exact hname (List.mem_singleton.1 hmem ▸ hother)⟩

theorem values_edit (p : Params) (name : String) (f : List String → List String) :
    (p.edit name f).values name = f (p.values name) := by
  obtain ⟨entries⟩ := p
  simp only [values, edit]
  induction entries with
  | nil => simp [editEntries]
  | cons entry rest ih =>
      obtain ⟨other, held⟩ := entry
      rw [editEntries]
      by_cases he : other = name
      · subst he
        simp
      · rw [if_neg he, List.lookup_cons, List.lookup_cons, beq_eq_false_iff_ne.2 (Ne.symm he)]
        exact ih

end FacetSearch.Params
