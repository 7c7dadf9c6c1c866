import FacetSearch.Text.Pieces
import Mathlib

set_option autoImplicit false

/-! # Cutting and joining

Joining the pieces of a text gives the text back (`intercalate_pieces`). Joined texts are cut into
themselves again as long as no separator runs across a joint, which can happen when a text ends with
a part of the separator: `a-` joined to `b` with `---` reads `a----b`, and the first separator in it
stands behind `a`. `Clear` says that this cannot happen, and `pieces_intercalate` that it is enough. -/

namespace FacetSearch.Text

variable {separator text left right : List Char}

/-! ## Leading parts -/

theorem after?_append (lead rest : List Char) : after? lead (lead ++ rest) = some rest := by
  induction lead with
  | nil => rw [List.nil_append, after?]
  | cons c lead ih => rw [List.cons_append, after?, if_pos rfl, ih]

theorem after?_eq_none_iff {lead : List Char} : after? lead text = none ↔ ¬ lead <+: text := by
  constructor
  · rintro h ⟨rest, rfl⟩
    rw [after?_append] at h
    exact absurd h (by simp)
  · intro h
    cases ha : after? lead text with
    | none => rfl
    | some rest => exact absurd ⟨rest, (eq_append_of_after? ha).symm⟩ h

/-! ## One cut -/

theorem cutFirst_eq_none_iff : cutFirst separator text = none ↔ ¬ separator <:+: text := by
  induction text with
  | nil =>
      rw [cutFirst, Option.map_eq_none_iff, after?_eq_none_iff, List.prefix_nil, List.infix_nil]
  | cons c text ih =>
      rw [cutFirst, List.infix_cons_iff, not_or, ← ih, ← after?_eq_none_iff]
      cases after? separator (c :: text) <;> simp

/-- When `left` stands in front of a separator, no separator begins inside it. -/
def Clear (separator left : List Char) : Prop := ¬ separator <:+: left ++ separator.dropLast

theorem Clear.absent (h : Clear separator left) : ¬ separator <:+: left := fun hi =>
  h (hi.trans List.infix_append_left)

theorem Clear.of_cons {c : Char} (h : Clear separator (c :: left)) : Clear separator left :=
  fun hi => h (List.infix_cons hi)

theorem clear_nil (hs : separator ≠ []) : Clear separator [] := by
  intro hi
  -- a separator without its last character is too short to hold one
  have hpos := List.length_pos_iff.2 hs
  have hle := hi.length_le
  simp only [List.nil_append, List.length_dropLast] at hle
  omega

/-- Nothing that is cut off holds the separator or the beginning of an earlier one. -/
theorem clear_of_cutFirst (hs : separator ≠ []) (h : cutFirst separator text = some (left, right)) :
    Clear separator left := by
  induction text generalizing left with
  | nil =>
      obtain ⟨rest, -, he⟩ := Option.map_eq_some_iff.1 h
      obtain ⟨rfl, rfl⟩ := Prod.mk.inj he
      exact clear_nil hs
  | cons c text ih =>
      rw [cutFirst] at h
      split at h
      · obtain ⟨rfl, rfl⟩ := Prod.mk.inj (Option.some.inj h)
        exact clear_nil hs
      · next hnone =>
        obtain ⟨⟨l, r⟩, hcut, he⟩ := Option.map_eq_some_iff.1 h
        obtain ⟨rfl, rfl⟩ := Prod.mk.inj he
        have htext := eq_of_cutFirst hcut
        intro hi
        rcases List.infix_cons_iff.1 hi with hp | hi
        · -- an occurrence at the very front would have been found
          refine (after?_eq_none_iff.1 hnone) (hp.trans ?_)
          rw [htext, List.append_assoc]
          exact (List.prefix_append_right_inj (c :: l)).2
            ((List.dropLast_prefix _).trans (List.prefix_append _ _))
        · exact ih hcut hi

theorem cutFirst_of_clear (hs : separator ≠ []) (h : Clear separator left) (right : List Char) :
    cutFirst separator (left ++ separator ++ right) = some (left, right) := by
  induction left with
  | nil =>
      obtain ⟨c, rest, rfl⟩ := List.exists_cons_of_ne_nil hs
      rw [List.nil_append, List.cons_append, cutFirst, ← List.cons_append, after?_append]
  | cons c left ih =>
      -- a separator at the front would lie within what is clear
      have hnone : after? separator (c :: left ++ separator ++ right) = none := by
        rw [after?_eq_none_iff]
        intro hp
        refine h (List.prefix_of_prefix_length_le hp ?_ ?_).isInfix
        · rw [List.append_assoc]
          exact (List.prefix_append_right_inj _).2
            ((List.dropLast_prefix _).trans (List.prefix_append _ _))
        · simp only [List.cons_append, List.length_cons, List.length_append, List.length_dropLast]
          omega
      rw [List.cons_append, List.cons_append, cutFirst, ← List.cons_append, ← List.cons_append, hnone,
        ih h.of_cons]
      rfl

theorem clear_singleton_iff {mark : Char} : Clear [mark] left ↔ mark ∉ left := by
  rw [Clear, List.dropLast_singleton, List.append_nil, List.singleton_infix_iff]

/-- Cut at a mark that the left part does not hold. -/
theorem cutFirst_append_cons {mark : Char} (h : mark ∉ left) (right : List Char) :
    cutFirst [mark] (left ++ mark :: right) = some (left, right) := by
  have hcut := cutFirst_of_clear (by simp) (clear_singleton_iff.2 h) right
  rwa [List.append_assoc, List.singleton_append] at hcut

/-- What stands on the two sides of the first mark of a text. -/
theorem eq_of_append_cons {mark : Char} {left' right' : List Char} (h : mark ∉ left)
    (h' : mark ∉ left') (he : left ++ mark :: right = left' ++ mark :: right') :
    left = left' ∧ right = right' := by
  have hcut := cutFirst_append_cons h right
  rw [he, cutFirst_append_cons h' right'] at hcut
  obtain ⟨hleft, hright⟩ := Prod.mk.inj (Option.some.inj hcut)
  exact ⟨hleft.symm, hright.symm⟩

/-- A part without the mark lies on one side of it. -/
theorem infix_of_infix_append_cons {mark : Char} {part : List Char} (h : mark ∉ part)
    (hi : part <:+: left ++ mark :: right) : part <:+: left ∨ part <:+: right := by
  rcases List.infix_append_iff.1 hi with hleft | hi | ⟨before, behind, rfl, hbefore, hbehind⟩
  · exact .inl hleft
  · rcases List.infix_cons_iff.1 hi with hprefix | hright
    · rcases List.prefix_cons_iff.1 hprefix with rfl | ⟨rest, rfl, -⟩
      · exact .inr List.nil_infix
      · exact absurd (List.mem_cons_self ..) h
    · exact .inr hright
  · rcases List.prefix_cons_iff.1 hbehind with rfl | ⟨rest, rfl, -⟩
    · rw [List.append_nil]
      exact .inl hbefore.isInfix
    · exact absurd (List.mem_append_right _ (List.mem_cons_self ..)) h

/-- What stands behind a mark stands behind the first one. -/
theorem infix_of_append_cons_infix {mark : Char} {lead part : List Char} (h : mark ∉ left)
    (hi : lead ++ mark :: part <:+: left ++ mark :: right) : part <:+: right := by
  obtain ⟨front, back, he⟩ := hi
  have hmarked : (front ++ lead) ++ mark :: (part ++ back) = left ++ mark :: right := by
    rw [← he]
    simp
  by_cases hmem : mark ∈ front ++ lead
  · obtain ⟨before, between, hfirst, hno⟩ := List.eq_append_cons_of_mem hmem
    rw [hfirst, List.append_assoc, List.cons_append] at hmarked
    obtain ⟨-, rfl⟩ := eq_of_append_cons hno h hmarked
    exact ⟨between ++ [mark], back, by simp⟩
  · obtain ⟨-, rfl⟩ := eq_of_append_cons hmem h hmarked
    exact List.infix_append' [] part back

/-! ## All cuts -/

theorem pieces_of_absent (h : ¬ separator <:+: text) : pieces separator text = [text] := by
  have hs : separator ≠ [] := by
    rintro rfl
    exact h List.nil_infix
  rw [pieces, dif_neg hs]
  split
  · rfl
  · next hcut => exact absurd ((cutFirst_eq_none_iff.2 h).symm.trans hcut) (by simp)

theorem pieces_of_cutFirst (hs : separator ≠ []) (h : cutFirst separator text = some (left, right)) :
    pieces separator text = left :: pieces separator right := by
  rw [pieces, dif_neg hs]
  split
  · next hcut => exact absurd (h.symm.trans hcut) (by simp)
  · next hcut =>
    obtain ⟨rfl, rfl⟩ := Prod.mk.inj (Option.some.inj (h.symm.trans hcut))
    rfl

theorem pieces_ne_nil (separator text : List Char) : pieces separator text ≠ [] := by
  rw [pieces]
  split
  · simp
  · split <;> simp

/-- Induction along the cuts of a text. -/
theorem cutting_induction {motive : List Char → Prop} (hs : separator ≠ [])
    (uncut : ∀ text, ¬ separator <:+: text → motive text)
    (cut : ∀ text left right, cutFirst separator text = some (left, right) → motive right →
      motive text) (text : List Char) : motive text := by
  induction hn : text.length using Nat.strong_induction_on generalizing text with
  | _ n ih =>
      cases hcut : cutFirst separator text with
      | none => exact uncut text (cutFirst_eq_none_iff.1 hcut)
      | some parts =>
          -- what stands behind a cut is shorter, since the separator is not empty
          refine cut text parts.1 parts.2 hcut (ih parts.2.length ?_ _ rfl)
          have hlength := congrArg List.length (eq_of_cutFirst hcut)
          have hpos := List.length_pos_iff.2 hs
          simp only [List.length_append] at hlength
          omega

/-- **Joining the pieces of a text gives the text back.** -/
theorem intercalate_pieces (hs : separator ≠ []) (text : List Char) :
    separator.intercalate (pieces separator text) = text := by
  induction text using cutting_induction hs with
  | uncut text h => rw [pieces_of_absent h, List.intercalate_singleton]
  | cut text left right h ih =>
      rw [pieces_of_cutFirst hs h, List.intercalate_cons_of_ne_nil (pieces_ne_nil _ _), ih,
        ← eq_of_cutFirst h]

theorem infix_of_mem_pieces (hs : separator ≠ []) {piece : List Char}
    (h : piece ∈ pieces separator text) : piece <:+: text := by
  induction text using cutting_induction hs with
  | uncut text hno =>
      rw [pieces_of_absent hno, List.mem_singleton] at h
      exact h ▸ List.infix_rfl
  | cut text left right hcut ih =>
      rw [pieces_of_cutFirst hs hcut, List.mem_cons] at h
      have htext := eq_of_cutFirst hcut
      rcases h with rfl | h
      · rw [htext, List.append_assoc]
        exact List.infix_append_left
      · rw [htext]
        exact (ih h).trans List.infix_append_right

theorem absent_of_mem_pieces (hs : separator ≠ []) {piece : List Char}
    (h : piece ∈ pieces separator text) : ¬ separator <:+: piece := by
  induction text using cutting_induction hs with
  | uncut text hno =>
      rw [pieces_of_absent hno, List.mem_singleton] at h
      exact h ▸ hno
  | cut text left right hcut ih =>
      rw [pieces_of_cutFirst hs hcut, List.mem_cons] at h
      rcases h with rfl | h
      · exact (clear_of_cutFirst hs hcut).absent
      · exact ih h

theorem clear_of_mem_dropLast_pieces (hs : separator ≠ []) {piece : List Char}
    (h : piece ∈ (pieces separator text).dropLast) : Clear separator piece := by
  induction text using cutting_induction hs with
  | uncut text hno => simp [pieces_of_absent hno] at h
  | cut text left right hcut ih =>
      rw [pieces_of_cutFirst hs hcut, List.dropLast_cons_of_ne_nil (pieces_ne_nil _ _),
        List.mem_cons] at h
      rcases h with rfl | h
      · exact clear_of_cutFirst hs hcut
      · exact ih h

/-- **Joined texts are cut into themselves**, when each but the last one is clear. -/
theorem pieces_intercalate (hs : separator ≠ []) {front : List (List Char)} {last : List Char}
    (hfront : ∀ piece ∈ front, Clear separator piece) (hlast : ¬ separator <:+: last) :
    pieces separator (separator.intercalate (front ++ [last])) = front ++ [last] := by
  induction front with
  | nil => rw [List.nil_append, List.intercalate_singleton, pieces_of_absent hlast]
  | cons piece front ih =>
      have hcut := cutFirst_of_clear hs (hfront piece (List.mem_cons_self ..))
        (separator.intercalate (front ++ [last]))
      rw [List.cons_append, List.intercalate_cons_of_ne_nil (by simp), pieces_of_cutFirst hs hcut,
        ih fun p hp => hfront p (List.mem_cons_of_mem _ hp)]

/-! ## Lengths of joined texts -/

theorem length_intercalate_le (separator : List Char) {longer shorter : List (List Char)}
    (h : List.Forall₂ (fun l s => s <:+: l) longer shorter) :
    (separator.intercalate shorter).length ≤ (separator.intercalate longer).length := by
  induction h with
  | nil => exact le_rfl
  | @cons l s longer shorter hfirst hrest ih =>
      have hle := hfirst.length_le
      cases hrest with
      | nil => simpa using hle
      | cons hsecond htail =>
          rw [List.intercalate_cons_cons, List.intercalate_cons_cons]
          simp only [List.length_append]
          omega

/-- Parts of texts that are as long as the texts when they are joined are the texts. -/
theorem eq_of_length_intercalate_le (separator : List Char) {longer shorter : List (List Char)}
    (h : List.Forall₂ (fun l s => s <:+: l) longer shorter)
    (hle : (separator.intercalate longer).length ≤ (separator.intercalate shorter).length) :
    longer = shorter := by
  induction h with
  | nil => rfl
  | @cons l s longer shorter hfirst hrest ih =>
      have hfirstle := hfirst.length_le
      cases hrest with
      | nil =>
          rw [List.intercalate_singleton, List.intercalate_singleton] at hle
          rw [hfirst.eq_of_length_le hle]
      | cons hsecond htail =>
          -- neither the first text nor the others can be longer, so both are as long
          have hrestle := length_intercalate_le separator (.cons hsecond htail)
          rw [List.intercalate_cons_cons, List.intercalate_cons_cons] at hle
          simp only [List.length_append] at hle
          rw [hfirst.eq_of_length_le (by omega), ih (by omega)]

/-- Joined texts begin with the first one. -/
theorem prefix_intercalate (separator text : String) (rest : List String) :
    text.toList <+: (separator.intercalate (text :: rest)).toList := by
  cases rest with
  | nil => simp
  | cons next rest =>
      rw [String.intercalate_cons_cons, String.append_assoc, String.toList_append]
      exact List.prefix_append _ _

/-- The last of some joined texts stands behind a separator. -/
theorem suffix_intercalate_concat (separator : List Char) {front : List (List Char)}
    (hne : front ≠ []) (last : List Char) :
    separator ++ last <:+ separator.intercalate (front ++ [last]) := by
  induction front with
  | nil => exact absurd rfl hne
  | cons piece rest ih =>
      rw [List.cons_append, List.intercalate_cons_of_ne_nil (by simp)]
      by_cases hrest : rest = []
      · subst hrest
        rw [List.nil_append, List.intercalate_singleton, List.append_assoc]
        exact List.suffix_append _ _
      · exact (ih hrest).trans (List.suffix_append _ _)

/-- Joined texts do not begin with the separator when the first one is clear and not empty. -/
theorem not_prefix_intercalate (hs : separator ≠ []) {piece : List Char} {rest : List (List Char)}
    (hpiece : piece ≠ []) (hclear : Clear separator piece) (hrest : rest ≠ []) :
    ¬ separator <+: separator.intercalate (piece :: rest) := by
  rintro ⟨tail, htail⟩
  -- such a text would be cut at its front and behind its first piece
  have hcut := cutFirst_of_clear hs hclear (separator.intercalate rest)
  have hnil := cutFirst_of_clear hs (clear_nil hs) tail
  rw [List.nil_append] at hnil
  rw [← List.intercalate_cons_of_ne_nil hrest, ← htail, hnil] at hcut
  exact hpiece (Prod.mk.inj (Option.some.inj hcut)).1.symm

end FacetSearch.Text
