import FacetSearch.Proofs.Request.BlankValues
import Mathlib

set_option autoImplicit false

/-! # What values expand to

The cuts of a value give the alternatives on each of its levels (`Expansion.segments`). A value that has
levels can be read when none of these are blank, and then stands for as many paths as there are choices
of one alternative from each level. Values expand exactly when all of them are blank or can be read and
their paths together are no more than the limit, and then to these paths, value by value and each
value's choices in the order of the positions they take (`expand_exact`). -/

namespace FacetSearch.Expansion

/-! ## Choices in order -/

/-- A path takes one alternative from each level, at the given positions. -/
inductive Choice : List (List String) → List Nat → List String → Prop where
  | nil : Choice [] [] []
  | cons {level : List String} {levels : List (List String)} {position : Nat} {positions : List Nat}
      {name : String} {path : List String} (hname : level[position]? = some name)
      (hrest : Choice levels positions path) :
      Choice (level :: levels) (position :: positions) (name :: path)

/-- The paths are all choices from the levels, each once, in lexicographic order of positions. -/
def ListsChoices (levels paths : List (List String)) : Prop :=
  ∃ listing : List (List Nat × List String), paths = listing.map (·.2) ∧
    listing.Pairwise (fun c c' => c.1 < c'.1) ∧
    ∀ positions path, (positions, path) ∈ listing ↔ Choice levels positions path

/-- The choices from the levels, each with the positions that it takes. -/
def listing : List (List String) → List (List Nat × List String)
  | [] => [([], [])]
  | level :: levels => level.zipIdx.flatMap fun a =>
      (listing levels).map fun c => (a.2 :: c.1, a.1 :: c.2)

theorem map_snd_listing (levels : List (List String)) :
    (listing levels).map (·.2) = choices levels := by
  induction levels with
  | nil => rfl
  | cons level levels ih =>
      have hnames (a : String × Nat) :
          ((listing levels).map fun c => (a.2 :: c.1, a.1 :: c.2)).map (·.2)
            = (choices levels).map (a.1 :: ·) := by
        rw [← ih, List.map_map, List.map_map]
        rfl
      rw [listing, choices, List.map_flatMap]
      simp only [hnames]
      rw [← List.flatMap_map Prod.fst fun name => (choices levels).map (name :: ·),
        List.zipIdx_map_fst]

theorem mem_listing_iff {levels : List (List String)} {positions : List Nat} {path : List String} :
    (positions, path) ∈ listing levels ↔ Choice levels positions path := by
  induction levels generalizing positions path with
  | nil =>
      constructor
      · intro h
        obtain ⟨rfl, rfl⟩ := Prod.mk.inj (List.mem_singleton.1 h)
        exact .nil
      · intro h
        cases h
        exact List.mem_singleton_self _
  | cons level levels ih =>
      rw [listing, List.mem_flatMap]
      constructor
      · rintro ⟨a, ha, h⟩
        obtain ⟨c, hc, he⟩ := List.mem_map.1 h
        obtain ⟨rfl, rfl⟩ := Prod.mk.inj he
        exact .cons (List.mem_zipIdx_iff_getElem?.1 ha) (ih.1 hc)
      · intro h
        cases h with
        | @cons _ _ position positions name path hname hrest =>
            exact ⟨(name, position), List.mem_zipIdx_iff_getElem?.2 hname,
              List.mem_map.2 ⟨(positions, path), ih.2 hrest, rfl⟩⟩

/-- **Choices come in lexicographic order of positions.** -/
theorem pairwise_listing (levels : List (List String)) :
    (listing levels).Pairwise fun c c' => c.1 < c'.1 := by
  induction levels with
  | nil => simp [listing]
  | cons level levels ih =>
      rw [listing, List.pairwise_flatMap]
      constructor
      · intro a _
        rw [List.pairwise_map]
        exact ih.imp fun h => List.Lex.cons h
      · have hpositions : level.zipIdx.Pairwise fun a a' => a.2 < a'.2 := by
          rw [← List.pairwise_map, List.zipIdx_map_snd]
          exact List.pairwise_lt_range'
        refine hpositions.imp ?_
        intro a a' hlt c hc c' hc'
        obtain ⟨d, -, rfl⟩ := List.mem_map.1 hc
        obtain ⟨d', -, rfl⟩ := List.mem_map.1 hc'
        exact List.Lex.rel hlt

theorem listsChoices_choices (levels : List (List String)) : ListsChoices levels (choices levels) :=
  ⟨listing levels, (map_snd_listing levels).symm, pairwise_listing levels,
    fun _ _ => mem_listing_iff⟩

/-! ## One level more -/

theorem choices_concat (levels : List (List String)) (level : List String) :
    choices (levels ++ [level]) = (choices levels).flatMap fun path => level.map (path ++ [·]) := by
  induction levels with
  | nil => simp [choices, List.map_eq_flatMap]
  | cons first levels ih =>
      simp only [List.cons_append, choices, ih, List.flatMap_assoc, List.map_flatMap, List.flatMap_map,
        List.map_map]
      rfl

theorem concat_mem_choices_iff {levels : List (List String)} {level path : List String}
    {name : String} :
    path ++ [name] ∈ choices (levels ++ [level]) ↔ path ∈ choices levels ∧ name ∈ level := by
  rw [choices_concat, List.mem_flatMap]
  constructor
  · rintro ⟨front, hfront, h⟩
    obtain ⟨last, hlast, he⟩ := List.mem_map.1 h
    obtain ⟨rfl, hname⟩ := List.append_inj' he rfl
    obtain rfl := List.singleton_inj.1 hname
    exact ⟨hfront, hlast⟩
  · rintro ⟨hpath, hname⟩
    exact ⟨path, hpath, List.mem_map_of_mem hname⟩

/-- Without their last names, choices are repeated once for each alternative on the last level. -/
theorem map_dropLast_choices_concat (levels : List (List String)) (level : List String) :
    (choices (levels ++ [level])).map List.dropLast
      = (choices levels).flatMap (List.replicate level.length) := by
  rw [choices_concat, List.map_flatMap]
  refine List.flatMap_congr fun path _ => ?_
  simp only [List.map_map, Function.comp_def, List.dropLast_concat, List.map_const']

theorem countChoices_le_concat (levels : List (List String)) {level : List String} (h : level ≠ []) :
    countChoices levels ≤ countChoices (levels ++ [level]) := by
  rw [countChoices, countChoices, ← List.prod_eq_foldl, ← List.prod_eq_foldl, List.map_append,
    List.map_singleton, List.prod_append, List.prod_singleton]
  exact min_le_min_right _ (Nat.le_mul_of_pos_right _ (List.length_pos_iff.2 h))

theorem choices_ne_nil {levels : List (List String)} (h : ∀ level ∈ levels, level ≠ []) :
    choices levels ≠ [] := by
  induction levels with
  | nil => exact List.cons_ne_nil _ _
  | cons level levels ih =>
      rw [List.forall_mem_cons] at h
      obtain ⟨name, rest, rfl⟩ := List.exists_cons_of_ne_nil h.1
      simp [choices, ih h.2]

/-- The names on choices are the alternatives on the levels. -/
theorem exists_mem_choices_iff {levels : List (List String)} (h : ∀ level ∈ levels, level ≠ [])
    {name : String} : (∃ path ∈ choices levels, name ∈ path) ↔ ∃ level ∈ levels, name ∈ level := by
  induction levels with
  | nil => simp [choices]
  | cons level levels ih =>
      rw [List.forall_mem_cons] at h
      simp only [List.mem_cons, exists_eq_or_imp, ← ih h.2, choices, List.mem_flatMap, List.mem_map]
      constructor
      · rintro ⟨_, ⟨first, hfirst, path, hpath, rfl⟩, hname⟩
        rcases List.mem_cons.1 hname with rfl | hname
        · exact .inl hfirst
        · exact .inr ⟨path, hpath, hname⟩
      · rintro (hname | ⟨path, hpath, hname⟩)
        · obtain ⟨path, hpath⟩ := List.exists_mem_of_ne_nil _ (choices_ne_nil h.2)
          exact ⟨name :: path, ⟨name, hname, path, hpath, rfl⟩, List.mem_cons_self ..⟩
        · obtain ⟨first, hfirst⟩ := List.exists_mem_of_ne_nil _ h.1
          exact ⟨first :: path, ⟨first, hfirst, path, hpath, rfl⟩, List.mem_cons_of_mem _ hname⟩

/-- **No choice is met twice exactly when no level repeats an alternative.** -/
theorem nodup_choices_iff {levels : List (List String)} (h : ∀ level ∈ levels, level ≠ []) :
    (choices levels).Nodup ↔ ∀ level ∈ levels, level.Nodup := by
  induction levels with
  | nil => simp [choices]
  | cons level levels ih =>
      rw [List.forall_mem_cons] at h
      obtain ⟨path, hpath⟩ := List.exists_mem_of_ne_nil _ (choices_ne_nil h.2)
      rw [List.forall_mem_cons, ← ih h.2, choices, List.nodup_flatMap]
      constructor
      · rintro ⟨hblocks, hapart⟩
        obtain ⟨name, hname⟩ := List.exists_mem_of_ne_nil _ h.1
        refine ⟨hapart.imp fun hdisjoint heq => ?_, List.Nodup.of_map _ (hblocks name hname)⟩
        subst heq
        exact hdisjoint (List.mem_map_of_mem hpath) (List.mem_map_of_mem hpath)
      · rintro ⟨hlevel, hrest⟩
        refine ⟨fun name _ => hrest.map fun _ _ he => (List.cons.inj he).2, hlevel.imp ?_⟩
        intro name name' hne path hmem hmem'
        obtain ⟨tail, -, rfl⟩ := List.mem_map.1 hmem
        obtain ⟨tail', -, he⟩ := List.mem_map.1 hmem'
        exact hne (List.cons.inj he).1.symm

/-! ## Levels of a value -/

/-- The alternatives on each level as the cuts give them, blank ones among them. -/
def segments (x : Expansion) (raw : String) : List (List String) :=
  (x.cutLevels (x.bare raw)).map fun text => (Text.splitAt x.alternatives text).map Text.trim

/-- White space and then separators around it are all of the value. -/
def IsBlank (x : Expansion) (raw : String) : Prop := x.bare raw = ""

instance (x : Expansion) : DecidablePred x.IsBlank := fun _ => inferInstanceAs (Decidable (_ = ""))

/-- No level and no alternative of the value is blank. -/
structure Readable (x : Expansion) (raw : String) : Prop where
  levels : ∀ text ∈ x.cutLevels (x.bare raw), Text.isBlankText text = false
  alternatives : ∀ level ∈ x.segments raw, ∀ name ∈ level, name ≠ ""

variable {x : Expansion} {raw : String} {raws : List String}

theorem length_segments : (x.segments raw).length = (x.cutLevels (x.bare raw)).length :=
  List.length_map _

theorem ne_nil_of_mem_segments {level : List String} (h : level ∈ x.segments raw) : level ≠ [] := by
  obtain ⟨text, -, rfl⟩ := List.mem_map.1 h
  rw [Text.splitAt, ne_eq, List.map_eq_nil_iff, List.map_eq_nil_iff]
  exact Text.pieces_ne_nil _ _

theorem trim_of_mem_segments {level : List String} (h : level ∈ x.segments raw) :
    ∀ name ∈ level, Text.trim name = name := by
  obtain ⟨text, -, rfl⟩ := List.mem_map.1 h
  intro name hname
  obtain ⟨piece, -, rfl⟩ := List.mem_map.1 hname
  exact Text.trim_trim piece

theorem level_eq_ok_iff {value text : String} {found : List String} :
    x.level value text = .ok found ↔ Text.isBlankText text = false ∧
      found = (Text.splitAt x.alternatives text).map Text.trim ∧ ∀ name ∈ found, name ≠ "" := by
  rw [level]
  by_cases hblank : Text.isBlankText text = true
  · simp [hblank]
  · have hany : ((Text.splitAt x.alternatives text).map Text.trim).any (·.isEmpty) = true ↔
        ¬ ∀ name ∈ (Text.splitAt x.alternatives text).map Text.trim, name ≠ "" := by
      simp only [List.any_eq_true, String.isEmpty_iff, not_forall, not_not, exists_prop]
    rw [if_neg hblank, and_iff_right (Bool.eq_false_iff.2 hblank), alternativesOf]
    by_cases hread : ∀ name ∈ (Text.splitAt x.alternatives text).map Text.trim, name ≠ ""
    · rw [if_neg fun h => hany.1 h hread, Except.ok.injEq, eq_comm]
      exact ⟨fun h => ⟨h, h ▸ hread⟩, fun h => h.1⟩
    · rw [if_pos (hany.2 hread)]
      exact iff_of_false (by simp) fun h => hread (h.1 ▸ h.2)

theorem levelsOf_eq_none (h : x.IsBlank raw) : x.levelsOf raw = .ok none := by
  rw [levelsOf, show x.bare raw = "" from h]
  rfl

/-- **A value that is not blank has levels exactly when it can be read**: those of the cuts. -/
theorem levelsOf_eq_ok_iff (h : ¬ x.IsBlank raw) {levels? : Option (List (List String))} :
    x.levelsOf raw = .ok levels? ↔ x.Readable raw ∧ levels? = some (x.segments raw) := by
  have hempty : (x.bare raw).isEmpty = false := by
    rw [Bool.eq_false_iff, ne_eq, String.isEmpty_iff]
    exact h
  constructor
  · intro hlevels
    obtain ⟨levels, rfl⟩ : ∃ levels, levels? = some levels := by
      simp only [levelsOf, hempty, Bool.false_eq_true, if_false] at hlevels
      obtain ⟨levels, -, rfl⟩ := Except.map_eq_ok hlevels
      exact ⟨levels, rfl⟩
    have hread := forall₂_of_levelsOf hlevels
    simp only [level_eq_ok_iff] at hread
    obtain rfl : levels = x.segments raw := by
      rw [segments, ← List.forall₂_eq_eq_eq, List.forall₂_map_right_iff]
      exact hread.flip.imp fun _ _ hl => hl.2.1
    rw [segments, List.forall₂_map_right_iff, List.forall₂_same] at hread
    refine ⟨⟨fun text htext => (hread text htext).1, fun level hlevel => ?_⟩, rfl⟩
    obtain ⟨text, htext, rfl⟩ := List.mem_map.1 hlevel
    exact (hread text htext).2.2
  · rintro ⟨hread, rfl⟩
    have hlevel : ∀ text ∈ x.cutLevels (x.bare raw), x.level (x.bare raw) text
        = .ok ((Text.splitAt x.alternatives text).map Text.trim) := fun text htext =>
      level_eq_ok_iff.2 ⟨hread.levels text htext, rfl,
        hread.alternatives _ (List.mem_map_of_mem htext)⟩
    simp only [levelsOf, hempty, Bool.false_eq_true, if_false, Except.mapM_eq_ok hlevel]
    rfl

/-! ## Paths of values -/

/-- How many paths the value stands for. -/
def pathCount (x : Expansion) (raw : String) : Nat :=
  if x.IsBlank raw then 0 else ((x.segments raw).map List.length).prod

/-- A value that can be read adds its paths to those counted before it. Counts are held at the greatest
    64-bit number, which makes no difference while the limit is below it. -/
theorem collect_cons_of_readable {total : Nat} (hlimit : x.limit < Decimal.greatestWord)
    (hblank : ¬ x.IsBlank raw) (hread : x.Readable raw) :
    x.collect total (raw :: raws) = if x.limit < total + x.pathCount raw then
        .error (.tooManyAlternatives (min (total + x.pathCount raw) Decimal.greatestWord) x.limit)
      else (x.collect (total + x.pathCount raw) raws).map (x.segments raw :: ·) := by
  have hcount : min (total + countChoices (x.segments raw)) Decimal.greatestWord
      = min (total + x.pathCount raw) Decimal.greatestWord := by
    rw [countChoices, pathCount, if_neg hblank, ← List.prod_eq_foldl]
    omega
  rw [collect_cons_of_levels ((levelsOf_eq_ok_iff hblank).2 ⟨hread, rfl⟩), hcount]
  by_cases hover : x.limit < total + x.pathCount raw
  · rw [if_pos hover, if_pos (by omega)]
  · rw [if_neg hover, if_neg (by omega), Nat.min_eq_left (by omega)]

/-- **When values are collected, and as what.** -/
theorem collect_eq_ok_iff (hlimit : x.limit < Decimal.greatestWord) {total : Nat}
    (htotal : total ≤ x.limit) {values : List (List (List String))} :
    x.collect total raws = .ok values ↔
      (∀ raw ∈ raws, x.IsBlank raw ∨ x.Readable raw) ∧
      total + (raws.map x.pathCount).sum ≤ x.limit ∧
      values = (raws.filter fun raw => ¬ x.IsBlank raw).map x.segments := by
  induction raws generalizing total values with
  | nil => simp [collect, htotal, eq_comm]
  | cons raw raws ih =>
      rw [List.forall_mem_cons, List.map_cons, List.sum_cons]
      by_cases hblank : x.IsBlank raw
      · rw [collect_cons_of_blank (levelsOf_eq_none hblank), ih htotal, pathCount, if_pos hblank,
          List.filter_cons_of_neg (by simpa using hblank), Nat.zero_add,
          and_iff_right (Or.inl hblank)]
      · rw [List.filter_cons_of_pos (by simpa using hblank), List.map_cons, or_iff_right hblank]
        by_cases hread : x.Readable raw
        · rw [collect_cons_of_readable hlimit hblank hread, and_iff_right hread]
          by_cases hover : x.limit < total + x.pathCount raw
          · rw [if_pos hover]
            exact iff_of_false (by simp) fun h => by omega
          · rw [if_neg hover, ← Nat.add_assoc]
            constructor
            · intro h
              obtain ⟨others, hothers, rfl⟩ := Except.map_eq_ok h
              obtain ⟨hall, hfits, rfl⟩ := (ih (Nat.not_lt.1 hover)).1 hothers
              exact ⟨hall, hfits, rfl⟩
            · rintro ⟨hall, hfits, rfl⟩
              rw [(ih (Nat.not_lt.1 hover)).2 ⟨hall, hfits, rfl⟩]
              rfl
        · refine iff_of_false (fun h => ?_) fun h => hread h.1.1
          obtain ⟨levels?, hl⟩ := levelsOf_of_collect h
          exact hread ((levelsOf_eq_ok_iff hblank).1 hl).1

/-- Values that can be read and have too many paths are refused for it, with a count over the limit. -/
theorem collect_eq_error_of_lt (hlimit : x.limit < Decimal.greatestWord) {total : Nat}
    (htotal : total ≤ x.limit) (hread : ∀ raw ∈ raws, x.IsBlank raw ∨ x.Readable raw)
    (hover : x.limit < total + (raws.map x.pathCount).sum) :
    ∃ count, x.limit < count ∧ count ≤ total + (raws.map x.pathCount).sum ∧
      x.collect total raws = .error (.tooManyAlternatives count x.limit) := by
  induction raws generalizing total with
  | nil => exact absurd hover (by simpa using htotal)
  | cons raw raws ih =>
      rw [List.forall_mem_cons] at hread
      rw [List.map_cons, List.sum_cons, ← Nat.add_assoc] at hover ⊢
      by_cases hblank : x.IsBlank raw
      · rw [pathCount, if_pos hblank, Nat.add_zero] at hover ⊢
        rw [collect_cons_of_blank (levelsOf_eq_none hblank)]
        exact ih htotal hread.2 hover
      · rw [collect_cons_of_readable hlimit hblank (hread.1.resolve_left hblank)]
        by_cases hhere : x.limit < total + x.pathCount raw
        · exact ⟨_, lt_min hhere hlimit, (Nat.min_le_left ..).trans (Nat.le_add_right ..),
            if_pos hhere⟩
        · obtain ⟨count, hcount, hle, h⟩ := ih (Nat.not_lt.1 hhere) hread.2 hover
          refine ⟨count, hcount, hle, ?_⟩
          rw [if_neg hhere, h]
          rfl

/-- The paths of a value that can be read have a name for every level, trimmed and not empty. -/
theorem of_mem_choices_segments (hread : x.Readable raw) {path : List String}
    (h : path ∈ choices (x.segments raw)) : path.length = (x.cutLevels (x.bare raw)).length ∧
      ∀ name ∈ path, name ≠ "" ∧ Text.trim name = name := by
  refine ⟨(length_of_mem_choices h).trans length_segments, fun name hname => ?_⟩
  obtain ⟨i, hi, rfl⟩ := List.getElem_of_mem hname
  have hchoice := mem_choices_iff.1 h
  have hmem := hchoice.get hi (hchoice.length_eq ▸ hi)
  have hlevel := List.getElem_mem (hchoice.length_eq ▸ hi : i < (x.segments raw).length)
  exact ⟨hread.alternatives _ hlevel _ hmem, trim_of_mem_segments hlevel _ hmem⟩

theorem length_flatMap_choices (raws : List String) :
    (((raws.filter fun raw => ¬ x.IsBlank raw).map x.segments).flatMap choices).length
      = (raws.map x.pathCount).sum := by
  induction raws with
  | nil => rfl
  | cons raw raws ih =>
      rw [List.map_cons, List.sum_cons, ← ih, pathCount]
      by_cases hblank : x.IsBlank raw
      · rw [List.filter_cons_of_neg (by simpa using hblank), if_pos hblank, Nat.zero_add]
      · rw [List.filter_cons_of_pos (by simpa using hblank), if_neg hblank, List.map_cons,
          List.flatMap_cons, List.length_append, length_choices]

/-- A value that has a path can be read, and its paths are the choices from its levels. -/
theorem readable_of_mem_expand {paths : List (List String)} {path : List String}
    (h : x.expand [raw] = .ok paths) (hmem : path ∈ paths) :
    ¬ x.IsBlank raw ∧ x.Readable raw ∧ paths = choices (x.segments raw) ∧
      min (countChoices (x.segments raw)) Decimal.greatestWord ≤ x.limit := by
  obtain ⟨levels, hlevels, rfl, hlimit⟩ := levelsOf_of_mem_expand h hmem
  have hblank : ¬ x.IsBlank raw := by
    intro hblank
    rw [levelsOf_eq_none hblank] at hlevels
    exact absurd hlevels (by simp)
  obtain ⟨hread, hsome⟩ := (levelsOf_eq_ok_iff hblank).1 hlevels
  obtain rfl := Option.some.inj hsome
  exact ⟨hblank, hread, rfl, hlimit⟩

theorem exists_mem_of_expand (hblank : ¬ x.IsBlank raw) {paths : List (List String)}
    (h : x.expand [raw] = .ok paths) : ∃ path, path ∈ paths := by
  obtain ⟨values, hvalues, -⟩ := Except.map_eq_ok h
  obtain ⟨levels?, hlevels⟩ := levelsOf_of_collect hvalues
  obtain ⟨-, rfl⟩ := (levelsOf_eq_ok_iff hblank).1 hlevels
  rw [expand_singleton_of_levels hlevels] at h
  split at h
  · exact absurd h (by simp)
  · obtain rfl := Except.ok.inj h
    exact List.exists_mem_of_ne_nil _ (choices_ne_nil fun _ => ne_nil_of_mem_segments)

theorem expand_of_readable (hblank : ¬ x.IsBlank raw) (hread : x.Readable raw)
    (hlimit : min (countChoices (x.segments raw)) Decimal.greatestWord ≤ x.limit) :
    x.expand [raw] = .ok (choices (x.segments raw)) := by
  rw [expand_singleton_of_levels ((levelsOf_eq_ok_iff hblank).2 ⟨hread, rfl⟩),
    if_neg (Nat.not_lt.2 hlimit)]

/-- **Values expand to exactly the choices from their levels.** While the limit is below the greatest
    64-bit number, values expand exactly when all of them are blank or can be read and have no more paths
    than the limit allows. They expand to one block of paths for each value that is not blank, which has
    every choice from its levels in the order of the positions. When there are too many paths this is
    the error, and no path is left out for it. -/
theorem expand_exact (hlimit : x.limit < 2 ^ 64 - 1) (raws : List String) :
    ((∃ paths, x.expand raws = .ok paths) ↔
      (∀ raw ∈ raws, x.IsBlank raw ∨ x.Readable raw) ∧ (raws.map x.pathCount).sum ≤ x.limit) ∧
    (∀ paths, x.expand raws = .ok paths →
      paths.length = (raws.map x.pathCount).sum ∧
      ∃ blocks, paths = blocks.flatten ∧
        List.Forall₂ (fun raw block => ListsChoices (x.segments raw) block ∧
          ∀ path ∈ block, path.length = (x.cutLevels (x.bare raw)).length ∧
            ∀ name ∈ path, name ≠ "" ∧ Text.trim name = name)
          (raws.filter fun raw => ¬ x.IsBlank raw) blocks) ∧
    ((∀ raw ∈ raws, x.IsBlank raw ∨ x.Readable raw) → x.limit < (raws.map x.pathCount).sum →
      ∃ count, x.limit < count ∧ count ≤ (raws.map x.pathCount).sum ∧
        x.expand raws = .error (.tooManyAlternatives count x.limit)) := by
  have hword : x.limit < Decimal.greatestWord := hlimit
  refine ⟨⟨?_, ?_⟩, ?_, ?_⟩
  · rintro ⟨paths, h⟩
    obtain ⟨values, hvalues, -⟩ := Except.map_eq_ok h
    obtain ⟨hread, hfits, -⟩ := (collect_eq_ok_iff hword (Nat.zero_le _)).1 hvalues
    rw [Nat.zero_add] at hfits
    exact ⟨hread, hfits⟩
  · rintro ⟨hread, hfits⟩
    rw [← Nat.zero_add (List.sum _)] at hfits
    rw [expand, (collect_eq_ok_iff hword (Nat.zero_le _)).2 ⟨hread, hfits, rfl⟩]
    exact ⟨_, rfl⟩
  · intro paths h
    obtain ⟨values, hvalues, rfl⟩ := Except.map_eq_ok h
    obtain ⟨hread, -, rfl⟩ := (collect_eq_ok_iff hword (Nat.zero_le _)).1 hvalues
    refine ⟨length_flatMap_choices raws, _, List.flatMap_def, ?_⟩
    rw [List.forall₂_map_right_iff, List.forall₂_map_right_iff, List.forall₂_same]
    intro raw hraw
    obtain ⟨hmem, hkept⟩ := List.mem_filter.1 hraw
    have hreadable := (hread raw hmem).resolve_left (of_decide_eq_true hkept)
    exact ⟨listsChoices_choices _, fun path => of_mem_choices_segments hreadable⟩
  · intro hread hover
    rw [← Nat.zero_add (List.sum _)] at hover
    obtain ⟨count, hcount, hle, h⟩ := collect_eq_error_of_lt hword (Nat.zero_le _) hread hover
    rw [Nat.zero_add] at hle
    refine ⟨count, hcount, hle, ?_⟩
    rw [expand, h]
    rfl

/-- A limit of as many paths as the two alternatives on one level and the three on another make. -/
def materials : Expansion := ⟨"material", some "/", "||", 6⟩

theorem expand_exact_materials :
    materials.limit < 2 ^ 64 - 1 ∧
    (∃ paths, materials.expand [" / ", "/ shell||stone /a||b || c/"] = .ok paths ∧
      paths.length = 6) ∧
    ∃ count, 6 < count ∧ count ≤ 7 ∧
      materials.expand ["/ shell||stone /a||b || c/", "d"]
        = .error (.tooManyAlternatives count 6) := by
  have hblank : materials.IsBlank " / " := by decide +kernel
  have hread : materials.Readable "/ shell||stone /a||b || c/" :=
    ⟨by decide +kernel, by decide +kernel⟩
  have hflat : materials.Readable "d" := ⟨by decide +kernel, by decide +kernel⟩
  have hlimit : materials.limit < 2 ^ 64 - 1 := by decide
  obtain ⟨hok, hpaths, -⟩ := expand_exact hlimit [" / ", "/ shell||stone /a||b || c/"]
  obtain ⟨paths, h⟩ := hok.2 ⟨by simp [hblank, hread], by decide +kernel⟩
  refine ⟨hlimit, ⟨paths, h, (hpaths paths h).1.trans (by decide +kernel)⟩, ?_⟩
  obtain ⟨count, hover, hle, herror⟩ :=
    (expand_exact hlimit ["/ shell||stone /a||b || c/", "d"]).2.2 (by simp [hread, hflat])
      (by decide +kernel)
  exact ⟨count, hover, hle.trans (by decide +kernel), herror⟩

end FacetSearch.Expansion
