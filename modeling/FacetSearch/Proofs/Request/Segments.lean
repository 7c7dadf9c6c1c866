import FacetSearch.Proofs.Request.Expansion
import FacetSearch.Proofs.Text.Trimming
import Mathlib

set_option autoImplicit false

/-! # Segments of paths

What stands on the levels of expanded paths: texts that are trimmed, not empty, and free of both
separators. `expand_intercalate_iff` tells when a path of such segments survives being written and read
again: no separator may arise where a segment meets a written one. -/

namespace FacetSearch.Expansion

/-- A text that can stand on a level of a path. -/
structure IsSegment (x : Expansion) (text : String) : Prop where
  ne_nil : text.toList ≠ []
  trimmed : Text.Trimmed text.toList
  no_separator : ∀ separator, x.levels = some separator → ¬ separator.toList <:+: text.toList
  no_alternatives : ¬ x.alternatives.toList <:+: text.toList

variable {x : Expansion} {separator : String}

/-! ## Levels -/

theorem not_isBlankText_of_trimmed {text : String} (hne : text.toList ≠ [])
    (h : Text.Trimmed text.toList) : Text.isBlankText text = false := by
  obtain ⟨c, rest, hc⟩ := List.exists_cons_of_ne_nil hne
  have hfirst := h.head c (by rw [hc]; rfl)
  rw [Text.isBlankText, hc, List.all_cons, hfirst, Bool.false_and]

theorem IsSegment.trim_eq {text : String} (h : x.IsSegment text) : Text.trim text = text := by
  rw [Text.trim, Text.trimChars_eq_self_iff.2 h.trimmed, String.ofList_toList]

theorem IsSegment.isEmpty_eq {text : String} (h : x.IsSegment text) : text.isEmpty = false := by
  rw [Bool.eq_false_iff, ne_eq, String.isEmpty_iff]
  rintro rfl
  exact h.ne_nil rfl

theorem IsSegment.level_eq {text : String} (h : x.IsSegment text) (value : String) :
    x.level value text = .ok [text] := by
  have hcut : Text.splitAt x.alternatives text = [text] := by
    rw [Text.splitAt, Text.pieces_of_absent h.no_alternatives]
    simp
  rw [level, not_isBlankText_of_trimmed h.ne_nil h.trimmed, alternativesOf, hcut]
  simp [h.trim_eq, h.isEmpty_eq]

/-- The alternatives of a level are its pieces, each trimmed and not empty. -/
theorem alternatives_of_level {value text : String} {found : List String}
    (h : x.level value text = .ok found) :
    found = (Text.splitAt x.alternatives text).map Text.trim ∧ ∀ a ∈ found, a.toList ≠ [] := by
  rw [level] at h
  split at h
  · exact absurd h (by simp)
  · simp only [alternativesOf] at h
    split at h
    · exact absurd h (by simp)
    · next hany =>
      obtain rfl := Except.ok.inj h
      refine ⟨rfl, fun a ha hnil => hany ?_⟩
      exact List.any_eq_true.2 ⟨a, ha, by rw [String.isEmpty_iff]; exact String.toList_eq_nil_iff.1 hnil⟩

/-- Each alternative of a level is a piece of it, trimmed. -/
theorem exists_piece_of_mem_level {value text a : String} {found : List String}
    (h : x.level value text = .ok found) (ha : a ∈ found) :
    x.alternatives.toList ≠ [] ∧ a.toList ≠ [] ∧
      ∃ chars ∈ Text.pieces x.alternatives.toList text.toList, a.toList = Text.trimChars chars := by
  obtain ⟨rfl, hne⟩ := alternatives_of_level h
  obtain ⟨piece, hpiece, rfl⟩ := List.mem_map.1 ha
  obtain ⟨chars, hchars, rfl⟩ := List.mem_map.1 hpiece
  refine ⟨?_, hne _ ha, chars, hchars, by rw [Text.trim, String.toList_ofList, String.toList_ofList]⟩
  -- an empty separator would cut off an empty piece
  intro hnil
  refine hne "" (List.mem_map.2 ⟨"", ?_, rfl⟩) rfl
  rw [Text.splitAt, hnil, Text.pieces, dif_pos rfl]
  exact List.mem_map.2 ⟨[], by simp, rfl⟩

theorem infix_of_mem_level {value text a : String} {found : List String}
    (h : x.level value text = .ok found) (ha : a ∈ found) : a.toList <:+: text.toList := by
  obtain ⟨hor, -, chars, hchars, hpiece⟩ := exists_piece_of_mem_level h ha
  rw [hpiece]
  exact (Text.trimChars_infix chars).trans (Text.infix_of_mem_pieces hor hchars)

theorem isSegment_of_mem_level {value text a : String} {found : List String}
    (hx : x.levels = some separator) (hno : ¬ separator.toList <:+: text.toList)
    (h : x.level value text = .ok found) (ha : a ∈ found) : x.IsSegment a := by
  obtain ⟨hor, hne, chars, hchars, hpiece⟩ := exists_piece_of_mem_level h ha
  refine ⟨hne, ?_, fun separator' hx' hi => ?_, fun hi => ?_⟩
  · rw [hpiece]
    exact Text.trimmed_trimChars _
  · obtain rfl := Option.some.inj (hx.symm.trans hx')
    exact hno (hi.trans (infix_of_mem_level h ha))
  · rw [hpiece] at hi
    exact Text.absent_of_mem_pieces hor hchars (hi.trans (Text.trimChars_infix chars))

/-! ## Paths of one value -/

theorem mem_choices_iff {levels : List (List String)} {path : List String} :
    path ∈ choices levels ↔ List.Forall₂ (· ∈ ·) path levels := by
  induction levels generalizing path with
  | nil => simp [choices]
  | cons alternatives rest ih =>
      simp only [choices, List.mem_flatMap, List.mem_map, ih]
      constructor
      · rintro ⟨a, ha, tail, htail, rfl⟩
        exact .cons ha htail
      · intro h
        cases h with
        | cons ha htail => exact ⟨_, ha, _, htail, rfl⟩

theorem expand_singleton_of_blank {raw : String} (h : x.levelsOf raw = .ok none) :
    x.expand [raw] = .ok [] := by
  rw [expand, collect_cons_of_blank h]
  rfl

/-- The paths of one value are the choices from its levels, unless they are too many. -/
theorem expand_singleton_of_levels {raw : String} {levels : List (List String)}
    (h : x.levelsOf raw = .ok (some levels)) :
    x.expand [raw] = if x.limit < min (countChoices levels) Decimal.greatestWord then
        .error (.tooManyAlternatives (min (countChoices levels) Decimal.greatestWord) x.limit)
      else .ok (choices levels) := by
  rw [expand, collect_cons_of_levels h, Nat.zero_add]
  split
  · rfl
  · simp [collect, Except.map]

theorem levelsOf_of_mem_expand {raw : String} {paths : List (List String)} {path : List String}
    (h : x.expand [raw] = .ok paths) (hmem : path ∈ paths) :
    ∃ levels, x.levelsOf raw = .ok (some levels) ∧ paths = choices levels ∧
      min (countChoices levels) Decimal.greatestWord ≤ x.limit := by
  obtain ⟨values, hvalues, -⟩ := Except.map_eq_ok h
  obtain ⟨levels?, hl⟩ := levelsOf_of_collect hvalues
  cases levels? with
  | none =>
      rw [expand_singleton_of_blank hl] at h
      exact absurd (Except.ok.inj h ▸ hmem) (by simp)
  | some levels =>
      rw [expand_singleton_of_levels hl] at h
      split at h
      · exact absurd h (by simp)
      · next hfits => exact ⟨levels, hl, (Except.ok.inj h).symm, Nat.not_lt.1 hfits⟩

/-- A limit that lets a path through is not zero. -/
theorem one_le_limit_of_mem_expand {raw : String} {paths : List (List String)} {path : List String}
    (h : x.expand [raw] = .ok paths) (hmem : path ∈ paths) : 1 ≤ x.limit := by
  obtain ⟨levels, -, rfl, hlimit⟩ := levelsOf_of_mem_expand h hmem
  have hpos := List.length_pos_of_mem hmem
  rw [length_choices, List.prod_eq_foldl] at hpos
  have hword : 1 ≤ Decimal.greatestWord := by decide
  simp only [countChoices] at hlimit
  omega

/-- All paths of one value have the same number of names. -/
theorem length_eq_of_mem_expand {raw : String} {paths : List (List String)} {path path' : List String}
    (h : x.expand [raw] = .ok paths) (hmem : path ∈ paths) (hmem' : path' ∈ paths) :
    path.length = path'.length := by
  obtain ⟨levels, -, rfl, -⟩ := levelsOf_of_mem_expand h hmem
  rw [length_of_mem_choices hmem, length_of_mem_choices hmem']

/-- The names of expanded paths are segments. -/
theorem isSegment_of_mem_path {raw name : String} {paths : List (List String)} {path : List String}
    (hx : x.levels = some separator) (hs : separator.toList ≠ []) (h : x.expand [raw] = .ok paths)
    (hmem : path ∈ paths) (hname : name ∈ path) : x.IsSegment name := by
  obtain ⟨levels, hl, rfl, -⟩ := levelsOf_of_mem_expand h hmem
  have hcut := forall₂_of_levelsOf hl
  have hchoice := mem_choices_iff.1 hmem
  obtain ⟨i, hi, rfl⟩ := List.getElem_of_mem hname
  have hlevel := hchoice.get hi (hchoice.length_eq ▸ hi)
  have hread := hcut.get (hcut.length_eq ▸ hchoice.length_eq ▸ hi) (hchoice.length_eq ▸ hi)
  refine isSegment_of_mem_level hx ?_ hread hlevel
  -- the level is a piece of the value, so no separator is left in it
  have hpiece := List.getElem_mem (hcut.length_eq ▸ hchoice.length_eq ▸ hi :
    i < (x.cutLevels (x.bare raw)).length)
  rw [List.get_eq_getElem]
  simp only [cutLevels, hx, Text.splitAt, List.mem_map] at hpiece
  obtain ⟨chars, hchars, he⟩ := hpiece
  simp only [cutLevels, hx, Text.splitAt] at he ⊢
  rw [← he, String.toList_ofList]
  exact Text.absent_of_mem_pieces hs hchars

/-- Where there are no levels, the names of paths are parts of the values. -/
theorem exists_infix_of_mem_path {raws : List String} {name : String} {paths : List (List String)}
    {path : List String} (hx : x.levels = none) (h : x.expand raws = .ok paths)
    (hmem : path ∈ paths) (hname : name ∈ path) :
    ∃ raw ∈ raws, name.toList <:+: (Text.trim raw).toList := by
  obtain ⟨values, hvalues, rfl⟩ := Except.map_eq_ok h
  obtain ⟨levels, hlevels, hchoice⟩ := List.mem_flatMap.1 hmem
  obtain ⟨raw, hraw, hl⟩ := exists_levelsOf_of_mem_collect hvalues hlevels
  refine ⟨raw, hraw, ?_⟩
  -- the value is its only level
  have hread := forall₂_of_levelsOf hl
  simp only [cutLevels, bare, hx] at hread
  obtain ⟨alternatives, rest, hlevel, hrest, rfl⟩ := List.forall₂_cons_left_iff.1 hread
  obtain rfl := List.forall₂_nil_left_iff.1 hrest
  obtain ⟨a, tail, ha, htail, rfl⟩ := List.forall₂_cons_right_iff.1 (mem_choices_iff.1 hchoice)
  obtain rfl := List.forall₂_nil_right_iff.1 htail
  obtain rfl := List.mem_singleton.1 hname
  exact infix_of_mem_level hlevel ha

/-! ## Written paths -/

theorem choices_map_singleton (path : List String) : choices (path.map ([·])) = [path] := by
  induction path with
  | nil => rfl
  | cons name rest ih => simp [choices, ih]

/-- Where there is one choice, each level has one alternative. -/
theorem eq_of_choices_eq_singleton {levels : List (List String)} {path : List String}
    (h : choices levels = [path]) : levels = path.map ([·]) := by
  -- a product of sizes is one only when every size is
  have hlengths : (levels.map List.length).prod = 1 := by
    rw [← length_choices, h, List.length_singleton]
  have hmem : List.Forall₂ (· ∈ ·) path levels := mem_choices_iff.1 (by rw [h]; simp)
  clear h
  induction hmem with
  | nil => rfl
  | @cons name alternatives path levels hname hrest ih =>
      rw [List.map_cons, List.prod_cons] at hlengths
      obtain ⟨only, rfl⟩ := List.length_eq_one_iff.1 (Nat.eq_one_of_mul_eq_one_right hlengths)
      rw [ih (Nat.eq_one_of_mul_eq_one_left hlengths), List.mem_singleton.1 hname, List.map_cons]

theorem toList_bare (hx : x.levels = some separator) (raw : String) :
    (x.bare raw).toList = Text.trimMarks separator.toList (Text.trimChars raw.toList) := by
  simp only [bare, hx, Text.stripMarks, Text.trim, String.toList_ofList]

theorem trimmed_intercalate {path : List String} (hsegments : ∀ name ∈ path, x.IsSegment name)
    (separator : String) : Text.Trimmed (separator.intercalate path).toList := by
  induction path with
  | nil => exact ⟨by simp, by simp⟩
  | cons name rest ih =>
      have hname := hsegments name (List.mem_cons_self ..)
      cases rest with
      | nil => simpa using hname.trimmed
      | cons next rest =>
          have hnext := hsegments next (by simp)
          rw [String.intercalate_cons_cons, String.toList_append, String.toList_append]
          refine hname.trimmed.between (ih fun n hn => hsegments n (List.mem_cons_of_mem _ hn))
            hname.ne_nil ?_
          intro hnil
          have hprefix := Text.prefix_intercalate separator next rest
          rw [hnil] at hprefix
          exact hnext.ne_nil (List.prefix_nil.1 hprefix)

/-- Where every level has one alternative, there is one path. -/
theorem expand_of_singletons {raw : String} {path : List String}
    (hlevels : x.levelsOf raw = .ok (some (path.map ([·])))) (hlimit : 1 ≤ x.limit) :
    x.expand [raw] = .ok [path] := by
  have hcount := countChoices_le (path.map ([·]))
  rw [choices_map_singleton, List.length_singleton] at hcount
  rw [expand_singleton_of_levels hlevels, if_neg (by omega), choices_map_singleton]

/-- Where there are no levels, a segment is its own path. -/
theorem expand_of_flat {text : String} (hx : x.levels = none) (h : x.IsSegment text)
    (hlimit : 1 ≤ x.limit) : x.expand [text] = .ok [[text]] := by
  have hbare : x.bare text = text := by
    rw [bare, hx]
    exact h.trim_eq
  have hlevels : x.levelsOf text = .ok (some [[text]]) := by
    simp only [levelsOf, hbare, h.isEmpty_eq, Bool.false_eq_true, if_false, cutLevels, hx]
    rw [Except.mapM_eq_ok fun name hname => (List.mem_singleton.1 hname ▸ h).level_eq text]
    rfl
  exact expand_of_singletons hlevels hlimit

/-- A written path is read as itself when the cuts give it back. -/
theorem expand_of_splitAt {path : List String} (hx : x.levels = some separator)
    (hsegments : ∀ name ∈ path, x.IsSegment name) (hne : path ≠ []) (hlimit : 1 ≤ x.limit)
    (hbare : x.bare (separator.intercalate path) = separator.intercalate path)
    (hcut : Text.splitAt separator (separator.intercalate path) = path) :
    x.expand [separator.intercalate path] = .ok [path] := by
  have hlevels : x.levelsOf (separator.intercalate path) = .ok (some (path.map ([·]))) := by
    have hempty : (separator.intercalate path).isEmpty = false := by
      obtain ⟨name, rest, rfl⟩ := List.exists_cons_of_ne_nil hne
      rw [Bool.eq_false_iff, ne_eq, String.isEmpty_iff]
      intro hnil
      have hprefix := Text.prefix_intercalate separator name rest
      rw [hnil] at hprefix
      exact (hsegments name (List.mem_cons_self ..)).ne_nil (List.prefix_nil.1 hprefix)
    simp only [levelsOf, hbare, hempty, Bool.false_eq_true, if_false, cutLevels, hx, hcut]
    rw [Except.mapM_eq_ok fun name hname => (hsegments name hname).level_eq _]
    rfl
  exact expand_of_singletons hlevels hlimit

/-- **A written path is read as itself exactly when nothing is stripped and the cuts give it back.** -/
theorem expand_intercalate_iff {path : List String} (hx : x.levels = some separator)
    (hs : separator.toList ≠ []) (hsegments : ∀ name ∈ path, x.IsSegment name) (hne : path ≠ [])
    (hlimit : 1 ≤ x.limit) :
    x.expand [separator.intercalate path] = .ok [path] ↔
      x.bare (separator.intercalate path) = separator.intercalate path ∧
        Text.splitAt separator (separator.intercalate path) = path := by
  refine ⟨fun h => ?_, fun h => expand_of_splitAt hx hsegments hne hlimit h.1 h.2⟩
  obtain ⟨levels, hl, hchoices, -⟩ := levelsOf_of_mem_expand h (List.mem_singleton_self path)
  obtain rfl := eq_of_choices_eq_singleton hchoices.symm
  have hread := List.forall₂_map_right_iff.1 (forall₂_of_levelsOf hl)
  -- each name is part of its piece, and the pieces together are no longer than the names
  have hparts : List.Forall₂ (fun piece name => name <:+: piece)
      (Text.pieces separator.toList (x.bare (separator.intercalate path)).toList)
      (path.map String.toList) := by
    rw [List.forall₂_map_right_iff]
    simp only [cutLevels, hx, Text.splitAt, List.forall₂_map_left_iff] at hread
    refine hread.imp ?_
    intro piece name hlevel
    simpa using infix_of_mem_level hlevel (List.mem_singleton_self name)
  have hinfix : (x.bare (separator.intercalate path)).toList <:+:
      (separator.intercalate path).toList := by
    rw [toList_bare hx]
    exact (Text.trimMarks_infix _ _).trans (Text.trimChars_infix _)
  have hjoin := Text.intercalate_pieces hs (x.bare (separator.intercalate path)).toList
  have hpieces := Text.eq_of_length_intercalate_le separator.toList hparts (by
    rw [hjoin, ← String.toList_intercalate]
    exact hinfix.length_le)
  have hbare : x.bare (separator.intercalate path) = separator.intercalate path := by
    rw [hpieces, ← String.toList_intercalate] at hjoin
    exact (String.toList_inj.1 hjoin).symm
  refine ⟨hbare, ?_⟩
  rw [hbare] at hpieces
  rw [Text.splitAt, hpieces, List.map_map]
  simp

theorem bare_intercalate_iff {path : List String} (hx : x.levels = some separator)
    (hs : separator.toList ≠ []) (hsegments : ∀ name ∈ path, x.IsSegment name) :
    x.bare (separator.intercalate path) = separator.intercalate path ↔
      ¬ separator.toList <+: (separator.intercalate path).toList ∧
        ¬ separator.toList <:+ (separator.intercalate path).toList := by
  rw [← String.toList_inj, toList_bare hx,
    Text.trimChars_eq_self_iff.2 (trimmed_intercalate hsegments separator)]
  exact Text.trimMarks_eq_self_iff hs

/-- **A path that is extended by a segment is read as itself exactly when no separator arises at a
    joint**: neither behind a name that stands before one, nor at the end. -/
theorem expand_concat_iff {names : List String} {last : String} (hx : x.levels = some separator)
    (hs : separator.toList ≠ []) (hnames : ∀ name ∈ names, x.IsSegment name)
    (hlast : x.IsSegment last) (hne : names ≠ []) (hlimit : 1 ≤ x.limit) :
    x.expand [separator.intercalate (names ++ [last])] = .ok [names ++ [last]] ↔
      (∀ name ∈ names, Text.Clear separator.toList name.toList) ∧
        ¬ separator.toList <:+ separator.toList ++ last.toList := by
  have hsegments : ∀ name ∈ names ++ [last], x.IsSegment name := by
    intro name hname
    rcases List.mem_append.1 hname with hname | hname
    · exact hnames name hname
    · exact List.mem_singleton.1 hname ▸ hlast
  have hchars : (separator.intercalate (names ++ [last])).toList
      = separator.toList.intercalate (names.map String.toList ++ [last.toList]) := by
    rw [String.toList_intercalate, List.map_append, List.map_singleton]
  have hne' : names.map String.toList ≠ [] := by simpa using hne
  have hend := Text.suffix_intercalate_concat separator.toList hne' last.toList
  rw [expand_intercalate_iff hx hs hsegments (by simp) hlimit,
    bare_intercalate_iff hx hs hsegments, Text.splitAt, hchars]
  constructor
  · rintro ⟨⟨-, hsuffix⟩, hcut⟩
    refine ⟨fun name hname => ?_, fun hmark => hsuffix (hmark.trans hend)⟩
    -- the names in front of the last one are pieces with a separator behind them
    have hpieces := congrArg (List.map String.toList) hcut
    rw [List.map_map, List.map_append, List.map_singleton] at hpieces
    have hfront : name.toList ∈ (Text.pieces separator.toList
        (separator.toList.intercalate (names.map String.toList ++ [last.toList]))).dropLast := by
      have hid : String.toList ∘ String.ofList = id := funext fun _ => String.toList_ofList
      rw [hid, List.map_id] at hpieces
      rw [hpieces, List.dropLast_concat]
      exact List.mem_map.2 ⟨name, hname, rfl⟩
    exact Text.clear_of_mem_dropLast_pieces hs hfront
  · rintro ⟨hclear, hmark⟩
    refine ⟨⟨?_, fun hsuffix => hmark ?_⟩, ?_⟩
    · -- the first name stands in front of a separator and is clear
      obtain ⟨first, rest, rfl⟩ := List.exists_cons_of_ne_nil hne
      exact Text.not_prefix_intercalate hs (hnames first (List.mem_cons_self ..)).ne_nil
        (hclear first (List.mem_cons_self ..)) (by simp)
    · -- a separator at the end reaches back no farther than the last joint
      exact List.suffix_of_suffix_length_le hsuffix hend (by simp)
    · rw [Text.pieces_intercalate hs ?_ (hlast.no_separator separator hx), List.map_append,
        List.map_map]
      · simp
      · intro piece hpiece
        obtain ⟨name, hname, rfl⟩ := List.mem_map.1 hpiece
        exact hclear name hname

end FacetSearch.Expansion
