import FacetSearch.Navigation.ActiveFilter
import FacetSearch.Proofs.Request.Choices
import FacetSearch.Proofs.Text.Pieces
import Mathlib

set_option autoImplicit false

/-! # Broader values

A value is read with cuts from the left and made broader with one cut from the right. The two agree on
what the last level is unless that level begins as the separator does: `weight----5,10` has the levels
`weight` and `-5,10`, and is cut into `weight-` and `5,10`. `expand_broader?_iff` gives all conditions
under which a broader value stands for the paths of the value without their last names, each once. -/

namespace FacetSearch

/-! ## Each once -/

/-- What can stand in place of an element at the end, while nothing is repeated and nothing new is met,
    is that element. -/
theorem eq_singleton_of_nodup_append {α : Type} {others more : List α} {a : α}
    (hnodup : (others ++ more).Nodup) (hne : more ≠ [])
    (hmem : ∀ b, b ∈ others ++ more ↔ b ∈ others ++ [a]) : more = [a] := by
  obtain ⟨-, hnodup, hdisjoint⟩ := List.nodup_append.1 hnodup
  have hsame : ∀ b ∈ more, b = a := by
    intro b hb
    have hbefore := (hmem b).1 (List.mem_append_right _ hb)
    rcases List.mem_append.1 hbefore with hother | hlast
    · exact absurd rfl (hdisjoint b hother b hb)
    · exact List.mem_singleton.1 hlast
  have hrepeated := List.eq_replicate_iff.2 ⟨rfl, hsame⟩
  rw [hrepeated, List.nodup_replicate] at hnodup
  rw [hrepeated, Nat.le_antisymm hnodup (List.length_pos_iff.2 hne), List.replicate_one]

section EraseDups

variable {α : Type} [BEq α] [LawfulBEq α]

/-- A list without repetitions loses nothing. -/
theorem eraseDups_of_nodup {l : List α} (h : l.Nodup) : l.eraseDups = l := by
  induction l with
  | nil => rfl
  | cons a l ih =>
      obtain ⟨hnot, hrest⟩ := List.nodup_cons.1 h
      have hkept : l.filter (fun b => !b == a) = l := by
        refine List.filter_eq_self.2 fun b hb => ?_
        have hne : b ≠ a := fun he => hnot (he ▸ hb)
        simp [hne]
      rw [List.eraseDups_cons, hkept, ih hrest]

theorem nodup_eraseDups (l : List α) : l.eraseDups.Nodup := by
  induction hn : l.length using Nat.strong_induction_on generalizing l with
  | _ n ih =>
      cases l with
      | nil => exact List.nodup_nil
      | cons a l =>
          rw [List.eraseDups_cons, List.nodup_cons, List.mem_eraseDups]
          refine ⟨by simp, ih _ ?_ _ rfl⟩
          rw [← hn, List.length_cons]
          exact Nat.lt_succ_of_le (List.length_filter_le _ _)

theorem eraseDups_replicate_append {n : Nat} (hn : n ≠ 0) (a : α) (l : List α) :
    (List.replicate n a ++ l).eraseDups = (a :: l).eraseDups := by
  obtain ⟨n, rfl⟩ := Nat.exists_eq_succ_of_ne_zero hn
  rw [List.replicate_succ, List.cons_append, List.eraseDups_cons, List.eraseDups_cons,
    List.filter_append, List.filter_replicate]
  simp

omit [BEq α] [LawfulBEq α] in
theorem filter_flatMap_replicate (p : α → Bool) (n : Nat) (l : List α) :
    (l.flatMap (List.replicate n)).filter p = (l.filter p).flatMap (List.replicate n) := by
  induction l with
  | nil => rfl
  | cons a l ih =>
      rw [List.flatMap_cons, List.filter_append, ih, List.filter_replicate, List.filter_cons]
      split
      · rw [List.flatMap_cons]
      · rw [List.nil_append]

/-- Elements that are repeated in place are still met first in the same order. -/
theorem eraseDups_flatMap_replicate {n : Nat} (hn : n ≠ 0) (l : List α) :
    (l.flatMap (List.replicate n)).eraseDups = l.eraseDups := by
  induction hk : l.length using Nat.strong_induction_on generalizing l with
  | _ k ih =>
      cases l with
      | nil => rfl
      | cons a l =>
          rw [List.flatMap_cons, eraseDups_replicate_append hn, List.eraseDups_cons,
            filter_flatMap_replicate, ih _ ?_ _ rfl, List.eraseDups_cons]
          rw [← hk, List.length_cons]
          exact Nat.lt_succ_of_le (List.length_filter_le _ _)

end EraseDups

/-- A separator is one character, which is not blank, a few times over. -/
theorem FieldFamily.toList_separator (family : FieldFamily) : ∃ (c : Char) (m : Nat),
    Text.isBlank c = false ∧ family.separator.toList = List.replicate (m + 1) c := by
  cases family with
  | context => exact ⟨'/', 0, by decide, by decide⟩
  | predicate => exact ⟨'-', 2, by decide, by decide⟩
  | project => exact ⟨'-', 2, by decide, by decide⟩

namespace Expansion

variable {x : Expansion} {separator raw : String} {text : List Char}

/-! ## Names on a level -/

/-- The names of the alternatives on a level. -/
def names (x : Expansion) (level : List Char) : List String :=
  (Text.pieces x.alternatives.toList level).map fun piece => String.ofList (Text.trimChars piece)

/-- No alternative is blank. -/
def Named (x : Expansion) (level : List Char) : Prop := ∀ name ∈ x.names level, name ≠ ""

theorem names_toList (x : Expansion) (level : String) :
    x.names level.toList = (Text.splitAt x.alternatives level).map Text.trim := by
  rw [names, Text.splitAt, List.map_map]
  refine List.map_congr_left fun piece _ => ?_
  rw [Function.comp_apply, Text.trim, String.toList_ofList]

theorem segments_eq (hx : x.levels = some separator) (raw : String) :
    x.segments raw = (Text.pieces separator.toList (x.bare raw).toList).map x.names := by
  simp only [segments, ← names_toList, cutLevels, hx]
  rw [Text.splitAt, List.map_map]
  refine List.map_congr_left fun level _ => ?_
  rw [Function.comp_apply, String.toList_ofList]

theorem names_ne_nil (x : Expansion) (level : List Char) : x.names level ≠ [] := by
  rw [names, ne_eq, List.map_eq_nil_iff]
  exact Text.pieces_ne_nil _ _

theorem Named.shows (h : x.Named text) {piece : List Char}
    (hpiece : piece ∈ Text.pieces x.alternatives.toList text) : Text.Shows piece := by
  rw [Text.shows_iff_trimChars_ne_nil]
  intro hnil
  exact h _ (List.mem_map_of_mem hpiece) (by rw [hnil])

theorem Named.alternatives_ne_nil (h : x.Named text) : x.alternatives.toList ≠ [] := by
  intro hnil
  -- an empty separator would cut off an empty piece
  have hshows : Text.Shows [] := h.shows (by
    rw [hnil, Text.pieces, dif_pos rfl]
    exact List.mem_append_left _ (List.mem_cons_self ..))
  exact hshows.ne_nil rfl

theorem Named.shows_text (h : x.Named text) : Text.Shows text := by
  obtain ⟨piece, hpiece⟩ := List.exists_mem_of_ne_nil _
    (Text.pieces_ne_nil x.alternatives.toList text)
  exact (h.shows hpiece).mono (Text.infix_of_mem_pieces h.alternatives_ne_nil hpiece)

theorem Named.names_dropWhile (h : x.Named text) :
    x.names (text.dropWhile Text.isBlank) = x.names text := by
  obtain ⟨first, rest, hpieces⟩ := List.exists_cons_of_ne_nil
    (Text.pieces_ne_nil x.alternatives.toList text)
  have hfirst := h.shows (hpieces ▸ List.mem_cons_self ..)
  rw [names, names, Text.pieces_dropWhile h.alternatives_ne_nil hpieces hfirst, hpieces, List.map_cons,
    List.map_cons, Text.trimChars_dropWhile]

theorem Named.names_rdropWhile (h : x.Named text) :
    x.names (text.rdropWhile Text.isBlank) = x.names text := by
  obtain ⟨front, last, hpieces⟩ := Text.exists_pieces_eq_concat x.alternatives.toList text
  have hlast := h.shows (hpieces ▸ List.mem_concat_self)
  rw [names, names, Text.pieces_rdropWhile h.alternatives_ne_nil hpieces hlast, hpieces,
    List.map_append, List.map_append, List.map_singleton, List.map_singleton,
    Text.trimChars_rdropWhile hlast]

/-- A value can be read when all alternatives have names, for a blank level would have none. -/
theorem readable_of_named (h : ∀ level ∈ x.segments raw, ∀ name ∈ level, name ≠ "") :
    x.Readable raw := by
  refine ⟨fun level hlevel => ?_, h⟩
  have hnamed : x.Named level.toList := by
    rw [Named, names_toList]
    exact h _ (List.mem_map_of_mem hlevel)
  obtain ⟨c, hc, hblank⟩ := hnamed.shows_text
  rw [Text.isBlankText, List.all_eq_false]
  exact ⟨c, hc, by simp [hblank]⟩

/-- **More behind a level changes its names**, be it only marks. Else the last alternative would be
    read as the same name with the marks behind it. -/
theorem names_append_marks {marks : List Char} (h : x.Named text) (hne : marks ≠ [])
    (hmarks : ∀ c ∈ marks, Text.isBlank c = false) (hnodup : (x.names (text ++ marks)).Nodup)
    (hmem : ∀ name, name ∈ x.names (text ++ marks) ↔ name ∈ x.names text) : False := by
  obtain ⟨front, last, hpieces⟩ := Text.exists_pieces_eq_concat x.alternatives.toList text
  have hs := h.alternatives_ne_nil
  have hlast := h.shows (hpieces ▸ List.mem_append_right _ (List.mem_singleton_self _))
  -- the names of what the last alternative has become
  have hnames : x.names (text ++ marks)
      = (front.map fun piece => String.ofList (Text.trimChars piece)) ++ x.names (last ++ marks) := by
    rw [names, Text.pieces_append hs hpieces marks, List.map_append, names]
  have hnames' : x.names text = (front.map fun piece => String.ofList (Text.trimChars piece))
      ++ [String.ofList (Text.trimChars last)] := by
    rw [names, hpieces, List.map_append, List.map_singleton]
  rw [hnames] at hmem hnodup
  rw [hnames'] at hmem
  -- they are the one name of the last alternative, so nothing is cut
  have hone := eq_singleton_of_nodup_append hnodup (x.names_ne_nil (last ++ marks)) hmem
  obtain ⟨piece, hpiece, hname⟩ := List.map_eq_singleton_iff.1 hone
  have hwhole := Text.intercalate_pieces hs (last ++ marks)
  rw [hpiece, List.intercalate_singleton] at hwhole
  rw [hwhole] at hname
  exact (Text.length_trimChars_append_marks hlast hne hmarks).ne'
    (congrArg List.length (String.ofList_injective hname))

/-! ## The text in front of the last level -/

/-- A value is cut from the right where it is cut from the left, and nothing is stripped from what
    stands in front of its last level. -/
structure EndsApart (x : Expansion) (separator raw : String) : Prop where
  /-- The last level does not begin as the separator does. -/
  last : ∀ level ∈ (x.cutLevels (x.bare raw)).getLast?, level.toList.head? ≠ separator.toList.head?
  /-- The text in front of it, when it is trimmed, does not end with a separator. -/
  front : ¬ separator.toList <:+
    (Text.trim (separator.intercalate (x.cutLevels (x.bare raw)).dropLast)).toList

/-- Levels that can be joined and read again. -/
structure IsFront (x : Expansion) (separator : String) (front : List (List Char)) : Prop where
  ne_nil : front ≠ []
  clear : ∀ level ∈ front, Text.Clear separator.toList level
  named : ∀ level ∈ front, x.Named level

variable {front : List (List Char)} {marks : List Char}

theorem named_of_map_eq {levels : List (List Char)} (h : levels.map x.names = front.map x.names)
    (hnamed : ∀ level ∈ front, x.Named level) : ∀ level ∈ levels, x.Named level := by
  intro level hlevel
  obtain ⟨level', hlevel', he⟩ := List.mem_map.1 (h ▸ List.mem_map_of_mem hlevel)
  rw [Named, ← he]
  exact hnamed level' hlevel'

/-- **Joined levels that are trimmed are levels with the same names**, with marks behind the last one if
    marks follow. -/
theorem IsFront.pieces_trimChars (h : x.IsFront separator front) (hs : separator.toList ≠ [])
    (hmarks : marks <+: separator.toList.dropLast) :
    ∃ others level, (∀ piece ∈ others ++ [level], x.Named piece) ∧
      (others ++ [level]).map x.names = front.map x.names ∧
      Text.pieces separator.toList (Text.trimChars (separator.toList.intercalate front ++ marks))
        = others ++ [(level ++ marks).rdropWhile Text.isBlank] := by
  have hpieces := Text.pieces_intercalate_of_clear hs h.ne_nil h.clear
  obtain ⟨hne, hclear, hnamed⟩ := h
  obtain ⟨first, rest, rfl⟩ := List.exists_cons_of_ne_nil hne
  rw [List.forall_mem_cons] at hclear
  have hfirst := hnamed first (List.mem_cons_self ..)
  have hopened := Text.pieces_dropWhile hs hpieces hfirst.shows_text
  obtain ⟨others, level, he⟩ :=
    (List.eq_nil_or_concat' (first.dropWhile Text.isBlank :: rest)).resolve_left
      (List.cons_ne_nil _ _)
  have hsame : (others ++ [level]).map x.names = (first :: rest).map x.names := by
    rw [← he, List.map_cons, List.map_cons, hfirst.names_dropWhile]
  have hall := named_of_map_eq hsame hnamed
  have hlevel : Text.Clear separator.toList level := by
    have hmem : level ∈ first.dropWhile Text.isBlank :: rest := he ▸ List.mem_concat_self
    rcases List.mem_cons.1 hmem with rfl | hmem
    · exact hclear.1.of_suffix (List.dropWhile_suffix _)
    · exact hclear.2 level hmem
  have hshows : Text.Shows (separator.toList.intercalate (first :: rest)) :=
    hfirst.shows_text.mono (Text.infix_of_mem_pieces hs (by
      rw [hpieces]
      exact List.mem_cons_self ..))
  refine ⟨others, level, hall, hsame, ?_⟩
  rw [Text.trimChars_eq_rdropWhile, Text.dropWhile_append_of_shows hshows]
  refine Text.pieces_rdropWhile hs ?_
    ((hall level List.mem_concat_self).shows_text.mono List.infix_append_left)
  rw [Text.pieces_append hs (hopened.trans he), Text.pieces_of_absent (hlevel.absent_append hmarks)]

/-- All pieces of joined levels show something. -/
theorem IsFront.nil_notMem (h : x.IsFront separator front) (hs : separator.toList ≠ [])
    (hmarks : marks <+: separator.toList.dropLast) : [] ∉ Text.pieces separator.toList
      (Text.trimChars (separator.toList.intercalate front ++ marks)) := by
  obtain ⟨others, level, hall, -, hpieces⟩ := h.pieces_trimChars hs hmarks
  rw [hpieces, List.mem_append, List.mem_singleton]
  rintro (hnil | hnil)
  · exact (hall [] (List.mem_append_left _ hnil)).shows_text.ne_nil rfl
  · have hlevel := (hall level List.mem_concat_self).shows_text
    exact (hlevel.mono List.infix_append_left).rdropWhile.ne_nil hnil.symm

/-- Where a separator is left at the end, it is stripped, and there are fewer levels. -/
theorem IsFront.length_lt (h : x.IsFront separator front) (hx : x.levels = some separator)
    (hs : separator.toList ≠ []) (hmarks : marks <+: separator.toList.dropLast)
    (hback : separator.toList <:+ Text.trimChars (separator.toList.intercalate front ++ marks)) :
    (x.cutLevels (x.bare (String.ofList (separator.toList.intercalate front ++ marks)))).length
      < front.length := by
  obtain ⟨others, level, -, hsame, hpieces⟩ := h.pieces_trimChars hs hmarks
  have hlt := Text.length_pieces_trimMarks_lt hs
    (Text.not_prefix_of_pieces hs (h.nil_notMem hs hmarks)) hback
  have hlength := congrArg List.length hsame
  simp only [List.length_map, List.length_append, List.length_singleton] at hlength
  rw [hpieces, List.length_append, List.length_singleton, hlength] at hlt
  simp only [cutLevels, hx]
  rwa [Text.splitAt, List.length_map, toList_bare hx, String.toList_ofList]

/-- Where none is left, the levels are those in front, with the marks behind the last one. -/
theorem IsFront.segments_eq (h : x.IsFront separator front) (hx : x.levels = some separator)
    (hs : separator.toList ≠ []) (hmarks : marks <+: separator.toList.dropLast)
    (hback : ¬ separator.toList <:+ Text.trimChars (separator.toList.intercalate front ++ marks)) :
    ¬ x.IsBlank (String.ofList (separator.toList.intercalate front ++ marks)) ∧
    ∃ (others : List (List Char)) (level : List Char), x.Named level ∧
      (others ++ [level]).map x.names = front.map x.names ∧
      x.segments (String.ofList (separator.toList.intercalate front ++ marks))
        = (others ++ [(level ++ marks).rdropWhile Text.isBlank]).map x.names := by
  obtain ⟨others, level, hall, hsame, hpieces⟩ := h.pieces_trimChars hs hmarks
  have hnil := h.nil_notMem hs hmarks
  have hbare : (x.bare (String.ofList (separator.toList.intercalate front ++ marks))).toList
      = Text.trimChars (separator.toList.intercalate front ++ marks) := by
    rw [toList_bare hx, String.toList_ofList,
      (Text.trimMarks_eq_self_iff hs).2 ⟨Text.not_prefix_of_pieces hs hnil, hback⟩]
  constructor
  · intro hblank
    rw [hblank] at hbare
    rw [← hbare, String.toList_empty, Text.pieces_of_absent (by simpa using hs)] at hnil
    exact hnil (List.mem_singleton_self _)
  · refine ⟨others, level, hall level List.mem_concat_self, hsame, ?_⟩
    rw [Expansion.segments_eq hx, hbare, hpieces]

theorem ne_nil_of_mem_map_names {level : List String} (h : level ∈ front.map x.names) :
    level ≠ [] := by
  obtain ⟨text, -, rfl⟩ := List.mem_map.1 h
  exact x.names_ne_nil text

/-- Joined levels expand to the choices from them. -/
theorem IsFront.expand_eq (h : x.IsFront separator front) (hx : x.levels = some separator)
    (hs : separator.toList ≠ [])
    (hback : ¬ separator.toList <:+ Text.trimChars (separator.toList.intercalate front))
    (hlimit : min (countChoices (front.map x.names)) Decimal.greatestWord ≤ x.limit) :
    x.expand [String.ofList (separator.toList.intercalate front)]
      = .ok (choices (front.map x.names)) := by
  obtain ⟨hblank, others, level, hlevel, hsame, hsegments⟩ :=
    h.segments_eq hx hs (List.nil_prefix : [] <+: _) (by rwa [List.append_nil])
  simp only [List.append_nil, List.map_append, List.map_singleton, hlevel.names_rdropWhile]
    at hblank hsame hsegments
  rw [hsame] at hsegments
  have hread : x.Readable (String.ofList (separator.toList.intercalate front)) := by
    refine readable_of_named ?_
    rw [hsegments, List.forall_mem_map]
    exact h.named
  rw [← hsegments] at hlimit ⊢
  exact expand_of_readable hblank hread hlimit

/-- **Nothing else expands to the choices from joined levels, each once**: neither when marks follow nor
    when a separator is left at the end. -/
theorem IsFront.of_expand {found : List (List String)} (h : x.IsFront separator front)
    (hx : x.levels = some separator) (hs : separator.toList ≠ [])
    (hmarks : marks <+: separator.toList.dropLast) (hblank : ∀ c ∈ marks, Text.isBlank c = false)
    (hfound : x.expand [String.ofList (separator.toList.intercalate front ++ marks)] = .ok found)
    (hnodup : found.Nodup) (hmem : ∀ path, path ∈ found ↔ path ∈ choices (front.map x.names)) :
    marks = [] ∧
      ¬ separator.toList <:+ Text.trimChars (separator.toList.intercalate front ++ marks) := by
  obtain ⟨path, hpath⟩ := List.exists_mem_of_ne_nil _
    (choices_ne_nil fun _ => ne_nil_of_mem_map_names)
  obtain ⟨-, hread, rfl, -⟩ := readable_of_mem_expand hfound ((hmem path).2 hpath)
  have hback : ¬ separator.toList <:+
      Text.trimChars (separator.toList.intercalate front ++ marks) := by
    intro hback
    have hlt := h.length_lt hx hs hmarks hback
    rw [← length_segments, ← length_of_mem_choices ((hmem path).2 hpath),
      length_of_mem_choices hpath, List.length_map] at hlt
    exact absurd hlt (lt_irrefl _)
  refine ⟨?_, hback⟩
  by_contra hne
  obtain ⟨-, others, level, hlevel, hsame, hsegments⟩ := h.segments_eq hx hs hmarks hback
  rw [Text.rdropWhile_append_marks hne hblank] at hsegments
  rw [hsegments, nodup_choices_iff fun _ => ne_nil_of_mem_map_names] at hnodup
  obtain ⟨path, hpath⟩ := List.exists_mem_of_ne_nil (choices (others.map x.names))
    (choices_ne_nil fun _ => ne_nil_of_mem_map_names)
  refine names_append_marks hlevel hne hblank (hnodup _ (List.mem_map_of_mem List.mem_concat_self))
    fun name => ?_
  -- behind one of the paths through the other levels, the last names are the same
  have hlast := hmem (path ++ [name])
  rw [hsegments, ← hsame, List.map_append, List.map_append, List.map_singleton, List.map_singleton,
    concat_mem_choices_iff, concat_mem_choices_iff] at hlast
  simpa only [hpath, true_and] using hlast

/-- The levels of a value that can be read, but for the last one, can be joined and read again. -/
theorem isFront_of_pieces {last : List Char} (hx : x.levels = some separator)
    (hs : separator.toList ≠ []) (hread : x.Readable raw)
    (hpieces : Text.pieces separator.toList (x.bare raw).toList = front ++ [last])
    (hne : front ≠ []) : x.IsFront separator front := by
  refine ⟨hne, fun level hlevel => ?_, fun level hlevel => hread.alternatives _ ?_⟩
  · have hmem : level ∈ (Text.pieces separator.toList (x.bare raw).toList).dropLast := by
      rwa [hpieces, List.dropLast_concat]
    exact Text.clear_of_mem_dropLast_pieces hs hmem
  · rw [segments_eq hx, hpieces]
    exact List.mem_map_of_mem (List.mem_append_left _ hlevel)

end Expansion

variable {x : Expansion} {separator raw : String}

theorem broader?_eq (hx : x.levels = some separator) (raw : String) :
    broader? separator raw = (Text.cutLast separator.toList (x.bare raw).toList).map
      fun parts => String.ofList parts.1 := by
  have hbare : x.bare raw = Text.stripMarks separator (Text.trim raw) := by rw [Expansion.bare, hx]
  rw [broader?, Text.splitLast, ← hbare, Option.map_map]
  rfl

/-- A value of one level is not made broader, nor is one that is blank. -/
theorem broader?_of_single {paths : List (List String)} (hx : x.levels = some separator)
    (hs : separator.toList ≠ []) (h : x.expand [raw] = .ok paths)
    (hone : ∀ path ∈ paths, path.length = 1) : broader? separator raw = none := by
  rw [broader?_eq hx, Option.map_eq_none_iff, Text.cutLast_eq_none_iff]
  by_cases hblank : x.IsBlank raw
  · rw [show x.bare raw = "" from hblank]
    simpa using hs
  · obtain ⟨path, hpath⟩ := Expansion.exists_mem_of_expand hblank h
    obtain ⟨-, -, rfl, -⟩ := Expansion.readable_of_mem_expand h hpath
    have hlength := Expansion.length_of_mem_choices hpath
    rw [hone path hpath, Expansion.segments_eq hx, List.length_map] at hlength
    obtain ⟨piece, hpiece⟩ := List.length_eq_one_iff.1 hlength.symm
    have htext := Text.intercalate_pieces hs (x.bare raw).toList
    rw [hpiece, List.intercalate_singleton] at htext
    have hmem : piece ∈ Text.pieces separator.toList (x.bare raw).toList := by
      rw [hpiece]
      exact List.mem_singleton_self _
    exact htext ▸ Text.absent_of_mem_pieces hs hmem

theorem toList_intercalate_map_ofList (separator : String) (front : List (List Char)) :
    (separator.intercalate (front.map String.ofList)).toList = separator.toList.intercalate front := by
  rw [String.toList_intercalate, List.map_map]
  exact congrArg _ ((List.map_congr_left fun _ _ => String.toList_ofList).trans (List.map_id _))

section Cuts

variable {front : List (List Char)} {last : List Char} {c : Char} {m : Nat}
  (hx : x.levels = some separator) (hrun : separator.toList = List.replicate (m + 1) c)
  (hpieces : Text.pieces separator.toList (x.bare raw).toList = front ++ [last])

include hx hrun hpieces

theorem endsApart_iff : x.EndsApart separator raw ↔ last.takeWhile (· == c) = [] ∧
    ¬ separator.toList <:+ Text.trimChars (separator.toList.intercalate front) := by
  have hcut : x.cutLevels (x.bare raw) = front.map String.ofList ++ [String.ofList last] := by
    simp only [Expansion.cutLevels, hx]
    rw [Text.splitAt, hpieces, List.map_append, List.map_singleton]
  have hhead : last.head? ≠ separator.toList.head? ↔ last.takeWhile (· == c) = [] := by
    rw [hrun, List.replicate_succ, List.head?_cons]
    cases last with
    | nil => simp
    | cons d last => by_cases hd : d = c <;> simp [hd]
  have hfront : (Text.trim (separator.intercalate (x.cutLevels (x.bare raw)).dropLast)).toList
      = Text.trimChars (separator.toList.intercalate front) := by
    rw [hcut, List.dropLast_concat, Text.trim, String.toList_ofList, toList_intercalate_map_ofList]
  constructor
  · rintro ⟨hlast, hback⟩
    rw [hfront] at hback
    rw [hcut, List.getLast?_concat] at hlast
    have hlast := hlast _ rfl
    rw [String.toList_ofList] at hlast
    exact ⟨hhead.1 hlast, hback⟩
  · rintro ⟨hlast, hback⟩
    refine ⟨fun level hlevel => ?_, by rwa [hfront]⟩
    rw [hcut, List.getLast?_concat, Option.mem_some_iff] at hlevel
    rw [← hlevel, String.toList_ofList]
    exact hhead.2 hlast

omit hx in
theorem toList_bare_of_pieces (hne : front ≠ []) : (x.bare raw).toList
    = separator.toList.intercalate front ++ separator.toList ++ last := by
  have htext := Text.intercalate_pieces (by simp [hrun] : separator.toList ≠ []) (x.bare raw).toList
  rw [← htext, hpieces, Text.intercalate_concat _ hne]

omit hx in
theorem absent_of_last_piece : ¬ separator.toList <:+: last :=
  Text.absent_of_mem_pieces (by simp [hrun]) (by
    rw [hpieces]
    exact List.mem_concat_self)

theorem broader?_of_pieces (hne : front ≠ []) : broader? separator raw
    = some (String.ofList (separator.toList.intercalate front ++ last.takeWhile (· == c))) := by
  rw [broader?_eq hx, toList_bare_of_pieces hrun hpieces hne,
    Text.cutLast_append_append hrun (absent_of_last_piece hrun hpieces)]
  rfl

variable (hread : x.Readable raw) (hne : front ≠ [])

include hread hne

/-- A value that ends apart is made broader by its last level. -/
theorem expand_of_endsApart (hends : x.EndsApart separator raw)
    (hlimit : min (Expansion.countChoices (x.segments raw)) Decimal.greatestWord ≤ x.limit) :
    x.expand [String.ofList (separator.toList.intercalate front ++ last.takeWhile (· == c))]
      = .ok (Expansion.choices (front.map x.names)) := by
  have hs : separator.toList ≠ [] := by simp [hrun]
  obtain ⟨hnone, hback⟩ := (endsApart_iff hx hrun hpieces).1 hends
  rw [hnone, List.append_nil]
  refine (Expansion.isFront_of_pieces hx hs hread hpieces hne).expand_eq hx hs hback
    ((min_le_min_right _ ?_).trans hlimit)
  rw [Expansion.segments_eq hx, hpieces, List.map_append]
  exact Expansion.countChoices_le_concat _ (x.names_ne_nil last)

/-- Only a value that ends apart is. -/
theorem endsApart_of_expand (hc : Text.isBlank c = false) {found : List (List String)}
    (h : x.expand [String.ofList (separator.toList.intercalate front ++ last.takeWhile (· == c))]
      = .ok found) (hnodup : found.Nodup)
    (hmem : ∀ path, path ∈ found ↔ path ∈ Expansion.choices (front.map x.names)) :
    x.EndsApart separator raw := by
  have hs : separator.toList ≠ [] := by simp [hrun]
  obtain ⟨k, hk, hmarks⟩ :=
    Text.takeWhile_eq_replicate_of_absent (hrun ▸ absent_of_last_piece hrun hpieces)
  have hprefix : last.takeWhile (· == c) <+: separator.toList.dropLast := by
    rw [hmarks, hrun, List.dropLast_replicate, Nat.add_sub_cancel, ← Nat.sub_add_cancel hk,
      Nat.add_comm, List.replicate_add]
    exact List.prefix_append _ _
  have hblank : ∀ d ∈ last.takeWhile (· == c), Text.isBlank d = false := by
    intro d hd
    rw [hmarks] at hd
    rw [List.eq_of_mem_replicate hd, hc]
  obtain ⟨hnone, hback⟩ := (Expansion.isFront_of_pieces hx hs hread hpieces hne).of_expand hx hs
    hprefix hblank h hnodup hmem
  rw [hnone, List.append_nil] at hback
  exact (endsApart_iff hx hrun hpieces).2 ⟨hnone, hback⟩

/-- With a separator of one character, all values end apart. -/
theorem endsApart_of_single (hm : m = 0) : x.EndsApart separator raw := by
  subst hm
  have hs : separator.toList ≠ [] := by simp [hrun]
  obtain ⟨k, hk, hmarks⟩ :=
    Text.takeWhile_eq_replicate_of_absent (hrun ▸ absent_of_last_piece hrun hpieces)
  have hnil := (Expansion.isFront_of_pieces hx hs hread hpieces hne).nil_notMem hs
    (List.nil_prefix : [] <+: _)
  rw [List.append_nil] at hnil
  refine (endsApart_iff hx hrun hpieces).2 ⟨by rw [hmarks, Nat.le_zero.1 hk]; rfl, ?_⟩
  rw [hrun] at hnil ⊢
  exact Text.not_suffix_of_pieces hnil

end Cuts

/-- **A broader value stands for the paths without their last names, each once, exactly when** the value
    ends apart and none of its levels but the last one repeats an alternative. When it ends apart and
    alternatives are repeated, so are the paths, and they are the same otherwise. Where slashes
    separate, values always end apart. A value with one level is not made broader. -/
theorem expand_broader?_iff {family : FieldFamily} {paths : List (List String)}
    (hx : x.levels = some family.separator) (h : x.expand [raw] = .ok paths) :
    ((∀ path ∈ paths, path.length = 1) → broader? family.separator raw = none) ∧
    ∀ path ∈ paths, 2 ≤ path.length → ∃ wider, broader? family.separator raw = some wider ∧
      (x.EndsApart family.separator raw → ∃ kept, x.expand [wider] = .ok kept ∧
        kept.eraseDups = (paths.map List.dropLast).eraseDups) ∧
      (x.expand [wider] = .ok (paths.map List.dropLast).eraseDups ↔
        x.EndsApart family.separator raw ∧ ∀ level ∈ (x.segments raw).dropLast, level.Nodup) ∧
      (family = .context → x.EndsApart family.separator raw) := by
  obtain ⟨c, m, hc, hrun⟩ := family.toList_separator
  have hs : family.separator.toList ≠ [] := by simp [hrun]
  refine ⟨broader?_of_single hx hs h, fun path hmem htwo => ?_⟩
  obtain ⟨-, hread, rfl, hlimit⟩ := Expansion.readable_of_mem_expand h hmem
  obtain ⟨front, last, hpieces⟩ :=
    Text.exists_pieces_eq_concat family.separator.toList (x.bare raw).toList
  have hsegments : x.segments raw = front.map x.names ++ [x.names last] := by
    rw [Expansion.segments_eq hx, hpieces, List.map_append, List.map_singleton]
  have hne : front ≠ [] := by
    rintro rfl
    rw [Expansion.length_of_mem_choices hmem, hsegments] at htwo
    exact absurd htwo (by simp)
  have hdropped : ((Expansion.choices (x.segments raw)).map List.dropLast).eraseDups
      = (Expansion.choices (front.map x.names)).eraseDups := by
    rw [hsegments, Expansion.map_dropLast_choices_concat, eraseDups_flatMap_replicate]
    exact Nat.ne_of_gt (List.length_pos_iff.2 (x.names_ne_nil last))
  have hnodup : (Expansion.choices (front.map x.names)).Nodup ↔
      ∀ level ∈ (x.segments raw).dropLast, level.Nodup := by
    rw [hsegments, List.dropLast_concat]
    exact Expansion.nodup_choices_iff fun _ => Expansion.ne_nil_of_mem_map_names
  have hkept := fun hends => expand_of_endsApart hx hrun hpieces hread hne hends hlimit
  rw [← hnodup, hdropped]
  refine ⟨_, broader?_of_pieces hx hrun hpieces hne, fun hends => ⟨_, hkept hends, rfl⟩,
    ⟨fun hexpand => ?_, fun hends => ?_⟩, ?_⟩
  · have hends := endsApart_of_expand hx hrun hpieces hread hne hc hexpand (nodup_eraseDups _)
      fun _ => List.mem_eraseDups
    rw [hkept hends, Except.ok.injEq] at hexpand
    exact ⟨hends, hexpand ▸ nodup_eraseDups _⟩
  · rw [hkept hends.1, eraseDups_of_nodup hends.2]
  · rintro rfl
    have hlength := congrArg List.length hrun
    rw [List.length_replicate] at hlength
    exact endsApart_of_single hx hrun hpieces hread hne (Nat.succ.inj hlength.symm)

theorem expand_broader?_material :
    (CompilerSettings.expansion {} (.levels .predicate)).levels
      = some FieldFamily.predicate.separator ∧
    (CompilerSettings.expansion {} (.levels .predicate)).expand ["material---shell||stone"]
      = .ok [["material", "shell"], ["material", "stone"]] ∧
    ∃ wider, broader? "---" "material---shell||stone" = some wider ∧
      (CompilerSettings.expansion {} (.levels .predicate)).expand [wider] = .ok [["material"]] := by
  have hlevels : (CompilerSettings.expansion {} (.levels .predicate)).levels
      = some FieldFamily.predicate.separator := rfl
  have hexpand : (CompilerSettings.expansion {} (.levels .predicate)).expand
      ["material---shell||stone"] = .ok [["material", "shell"], ["material", "stone"]] := by
    decide +kernel
  have hends : (CompilerSettings.expansion {} (.levels .predicate)).EndsApart "---"
      "material---shell||stone" := ⟨by decide +kernel, by decide +kernel⟩
  obtain ⟨wider, hwider, -, hiff, -⟩ := (expand_broader?_iff hlevels hexpand).2 ["material", "shell"]
    (List.mem_cons_self ..) (by decide)
  exact ⟨hlevels, hexpand, wider, hwider, hiff.2 ⟨hends, by decide +kernel⟩⟩

/-- A date that begins before the common era is not taken back whole: its sign stays with the name. -/
theorem expand_broader?_negativeYear :
    (CompilerSettings.expansion {} (.levels .predicate)).expand
        ["excavation-date----0044-03-15,2000-01-01"]
      = .ok [["excavation-date", "-0044-03-15,2000-01-01"]] ∧
    broader? "---" "excavation-date----0044-03-15,2000-01-01" = some "excavation-date-" ∧
    (CompilerSettings.expansion {} (.levels .predicate)).expand ["excavation-date-"]
      ≠ .ok ([["excavation-date", "-0044-03-15,2000-01-01"]].map List.dropLast).eraseDups := by
  decide +kernel

end FacetSearch
