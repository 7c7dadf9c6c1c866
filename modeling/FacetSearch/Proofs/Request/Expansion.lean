import FacetSearch.Proofs.Compilation.Answers
import FacetSearch.Proofs.Text.Cutting
import FacetSearch.Request.Expansion
import Mathlib

set_option autoImplicit false

/-! # Expanded values

How many paths values expand to, and what the expansion of several values has to do with the expansions
of each: as long as the limit allows them all, the paths of values together are the paths of each value,
one after the other. -/

namespace FacetSearch.Expansion

/-! ## Numbers of choices -/

theorem length_choices (levels : List (List String)) :
    (choices levels).length = (levels.map List.length).prod := by
  induction levels with
  | nil => rfl
  | cons alternatives rest ih =>
      simp only [choices, List.length_flatMap, List.length_map, List.map_const', List.sum_replicate,
        ih, List.map_cons, List.prod_cons, smul_eq_mul]

theorem countChoices_le (levels : List (List String)) :
    countChoices levels ≤ (choices levels).length := by
  rw [length_choices, List.prod_eq_foldl]
  exact Nat.min_le_left _ _

theorem sum_countChoices_le (values : List (List (List String))) :
    (values.map countChoices).sum ≤ (values.flatMap choices).length := by
  rw [List.length_flatMap]
  exact List.sum_le_sum fun levels _ => countChoices_le levels

/-- Every choice has one alternative from each level. -/
theorem length_of_mem_choices {levels : List (List String)} {path : List String}
    (h : path ∈ choices levels) : path.length = levels.length := by
  induction levels generalizing path with
  | nil => simp_all [choices]
  | cons alternatives rest ih =>
      simp only [choices, List.mem_flatMap, List.mem_map] at h
      obtain ⟨a, -, tail, htail, rfl⟩ := h
      simp [ih htail]

/-! ## Levels -/

theorem cutLevels_ne_nil (x : Expansion) (value : String) : x.cutLevels value ≠ [] := by
  unfold cutLevels
  split
  · rw [Text.splitAt, ne_eq, List.map_eq_nil_iff]
    exact Text.pieces_ne_nil _ _
  · simp

/-- The levels of a value that is not blank are those that the cut gives, each with its
    alternatives. -/
theorem forall₂_of_levelsOf {x : Expansion} {raw : String} {levels : List (List String)}
    (h : x.levelsOf raw = .ok (some levels)) :
    List.Forall₂ (fun text alternatives => x.level (x.bare raw) text = .ok alternatives)
      (x.cutLevels (x.bare raw)) levels := by
  simp only [levelsOf] at h
  split at h
  · exact absurd h (by simp)
  · obtain ⟨found, hfound, he⟩ := Except.map_eq_ok h
    obtain rfl := Option.some.inj he
    exact Except.forall₂_of_mapM_eq_ok hfound

/-! ## Several values -/

variable {x : Expansion} {raw : String} {rest : List String}

theorem collect_cons_of_blank {total : Nat} (h : x.levelsOf raw = .ok none) :
    x.collect total (raw :: rest) = x.collect total rest := by
  rw [collect, h]
  rfl

/-- A value that is not blank counts, and the limit is checked before the values behind it are read. -/
theorem collect_cons_of_levels {total : Nat} {levels : List (List String)}
    (h : x.levelsOf raw = .ok (some levels)) :
    x.collect total (raw :: rest)
      = if x.limit < min (total + countChoices levels) Decimal.greatestWord then
          .error (.tooManyAlternatives (min (total + countChoices levels) Decimal.greatestWord)
            x.limit)
        else
          (x.collect (min (total + countChoices levels) Decimal.greatestWord) rest).map
            (levels :: ·) := by
  rw [collect, h]
  simp only [bind, Except.bind]
  split <;> rfl

/-- What a value that can be read has to do with the values behind it. -/
theorem levelsOf_of_collect {total : Nat} {values : List (List (List String))}
    (h : x.collect total (raw :: rest) = .ok values) :
    ∃ levels?, x.levelsOf raw = .ok levels? := by
  rw [collect] at h
  obtain ⟨levels?, hl, -⟩ := Except.bind_eq_ok h
  exact ⟨levels?, hl⟩

/-- What was counted before matters only for the limit. -/
theorem collect_of_collect {total total' : Nat} {raws : List String}
    {values : List (List (List String))} (h : x.collect total raws = .ok values)
    (hlimit : total' + (values.map countChoices).sum ≤ x.limit) :
    x.collect total' raws = .ok values := by
  induction raws generalizing total total' values with
  | nil => exact h
  | cons raw rest ih =>
      obtain ⟨levels?, hl⟩ := levelsOf_of_collect h
      cases levels? with
      | none =>
          rw [collect_cons_of_blank hl] at h ⊢
          exact ih h hlimit
      | some levels =>
          rw [collect_cons_of_levels hl] at h ⊢
          split at h
          · exact absurd h (by simp)
          · obtain ⟨others, ho, rfl⟩ := Except.map_eq_ok h
            -- this value fits below the limit, and the values behind it still do
            simp only [List.map_cons, List.sum_cons] at hlimit
            have hmin := Nat.min_le_left (total' + countChoices levels) Decimal.greatestWord
            rw [if_neg (by omega), ih ho (by omega)]
            rfl

theorem exists_levelsOf_of_mem_collect {total : Nat} {raws : List String}
    {values : List (List (List String))} {levels : List (List String)}
    (h : x.collect total raws = .ok values) (hmem : levels ∈ values) :
    ∃ raw ∈ raws, x.levelsOf raw = .ok (some levels) := by
  induction raws generalizing total values with
  | nil =>
      obtain rfl : [] = values := by simpa [collect] using h
      simp at hmem
  | cons raw rest ih =>
      obtain ⟨levels?, hl⟩ := levelsOf_of_collect h
      cases levels? with
      | none =>
          rw [collect_cons_of_blank hl] at h
          obtain ⟨other, ho, hlo⟩ := ih h hmem
          exact ⟨other, List.mem_cons_of_mem _ ho, hlo⟩
      | some own =>
          rw [collect_cons_of_levels hl] at h
          split at h
          · exact absurd h (by simp)
          · obtain ⟨others, hothers, rfl⟩ := Except.map_eq_ok h
            rcases List.mem_cons.1 hmem with rfl | hmem
            · exact ⟨raw, List.mem_cons_self .., hl⟩
            · obtain ⟨other, ho, hlo⟩ := ih hothers hmem
              exact ⟨other, List.mem_cons_of_mem _ ho, hlo⟩

/-- Every path of a value has as many names as the value has levels, which is at least one. -/
theorem ne_nil_of_mem_expand {raws : List String} {paths : List (List String)} {path : List String}
    (h : x.expand raws = .ok paths) (hmem : path ∈ paths) : path ≠ [] := by
  obtain ⟨values, hv, rfl⟩ := Except.map_eq_ok h
  obtain ⟨levels, hlevels, hpath⟩ := List.mem_flatMap.1 hmem
  obtain ⟨raw, -, hl⟩ := exists_levelsOf_of_mem_collect hv hlevels
  rintro rfl
  -- a path without names would come from a value without levels
  have hlevels := length_of_mem_choices hpath
  have hcut := (forall₂_of_levelsOf hl).length_eq
  refine x.cutLevels_ne_nil (x.bare raw) (List.length_eq_zero_iff.1 ?_)
  rw [hcut, ← hlevels, List.length_nil]

/-- Values that expand one by one expand together, as long as the limit allows all their paths. -/
theorem expand_cons {here others : List (List String)}
    (hhere : x.expand [raw] = .ok here) (hothers : x.expand rest = .ok others)
    (hlimit : others.length = 0 ∨ here.length + others.length ≤ x.limit) :
    x.expand (raw :: rest) = .ok (here ++ others) := by
  obtain ⟨values, hv, rfl⟩ := Except.map_eq_ok hothers
  obtain ⟨first, hf, rfl⟩ := Except.map_eq_ok hhere
  have hcount := sum_countChoices_le values
  obtain ⟨levels?, hl⟩ := levelsOf_of_collect hf
  unfold expand
  cases levels? with
  | none =>
      rw [collect_cons_of_blank hl] at hf ⊢
      obtain rfl : [] = first := by simpa [collect] using hf
      rw [hv]
      rfl
  | some levels =>
      rw [collect_cons_of_levels hl] at hf ⊢
      split at hf
      · exact absurd hf (by simp)
      · next hfits =>
        obtain rfl : [levels] = first := by simpa [collect, Except.map] using hf
        have hlevels := countChoices_le levels
        have hmin := Nat.min_le_left (0 + countChoices levels) Decimal.greatestWord
        -- the values behind were counted from zero and are counted from here on now
        have hrest : x.collect (min (0 + countChoices levels) Decimal.greatestWord) rest
            = .ok values := by
          apply collect_of_collect hv
          simp only [List.flatMap_cons, List.flatMap_nil, List.append_nil] at hlimit
          rcases hlimit with h | h <;> omega
        rw [if_neg hfits, hrest]
        simp [Except.map]

end FacetSearch.Expansion
