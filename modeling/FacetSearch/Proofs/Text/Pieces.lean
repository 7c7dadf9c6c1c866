import FacetSearch.Proofs.Text.Trimming
import Mathlib

set_option autoImplicit false

/-! # Pieces of longer and shorter texts

A text that becomes longer at its end is cut as before up to its last piece (`pieces_append`), and white
space that is trimmed off a text is trimmed off its first and last piece. The last cut of a text can lie
behind the last of the cuts from the left: where a separator of one repeated character is followed by
more of this character, the two are apart by as many (`cutLast_append_append`). -/

namespace FacetSearch.Text

variable {separator text left right first last : List Char} {front rest : List (List Char)}

/-! ## More at the end -/

theorem Clear.of_suffix {back : List Char} (h : Clear separator left) (hback : back <:+ left) :
    Clear separator back := by
  obtain ⟨before, rfl⟩ := hback
  intro hi
  refine h (hi.trans ?_)
  rw [List.append_assoc]
  exact List.infix_append_right

/-- A clear text is still free of separators when a part of one follows it. -/
theorem Clear.absent_append {more : List Char} (h : Clear separator left)
    (hmore : more <+: separator.dropLast) : ¬ separator <:+: left ++ more := fun hi =>
  h (hi.trans ((List.prefix_append_right_inj left).2 hmore).isInfix)

theorem cutFirst_append (hs : separator ≠ []) (h : cutFirst separator text = some (left, right))
    (more : List Char) : cutFirst separator (text ++ more) = some (left, right ++ more) := by
  rw [eq_of_cutFirst h, List.append_assoc]
  exact cutFirst_of_clear hs (clear_of_cutFirst hs h) _

/-- **What follows a text changes nothing before its last piece.** -/
theorem pieces_append (hs : separator ≠ []) (h : pieces separator text = front ++ [last])
    (more : List Char) :
    pieces separator (text ++ more) = front ++ pieces separator (last ++ more) := by
  induction text using cutting_induction hs generalizing front with
  | uncut text hno =>
      rw [pieces_of_absent hno, List.singleton_eq_append_iff] at h
      simp only [List.cons_ne_nil, and_false, or_false, List.cons.injEq, and_true] at h
      obtain ⟨rfl, rfl⟩ := h
      rfl
  | cut text left right hcut ih =>
      rw [pieces_of_cutFirst hs hcut] at h
      rw [pieces_of_cutFirst hs (cutFirst_append hs hcut more)]
      cases front with
      | nil => exact absurd (List.cons.inj h).2 (pieces_ne_nil _ _)
      | cons piece front =>
          obtain ⟨rfl, hright⟩ := List.cons.inj h
          rw [ih hright, List.cons_append]

theorem exists_pieces_eq_concat (separator text : List Char) :
    ∃ front last, pieces separator text = front ++ [last] :=
  (List.eq_nil_or_concat' _).resolve_left (pieces_ne_nil separator text)

theorem length_pieces_append_le (hs : separator ≠ []) (text more : List Char) :
    (pieces separator text).length ≤ (pieces separator (text ++ more)).length := by
  obtain ⟨front, last, h⟩ := exists_pieces_eq_concat separator text
  have hpos := List.length_pos_iff.2 (pieces_ne_nil separator (last ++ more))
  rw [pieces_append hs h, h, List.length_append, List.length_append, List.length_singleton]
  omega

theorem length_pieces_lt_append_separator (hs : separator ≠ []) (text : List Char) :
    (pieces separator text).length < (pieces separator (text ++ separator)).length := by
  obtain ⟨front, last, h⟩ := exists_pieces_eq_concat separator text
  have htwo : 1 < (pieces separator (last ++ separator)).length := by
    cases hcut : cutFirst separator (last ++ separator) with
    | none => exact absurd List.infix_append_right (cutFirst_eq_none_iff.1 hcut)
    | some parts =>
        have hpos := List.length_pos_iff.2 (pieces_ne_nil separator parts.2)
        rw [pieces_of_cutFirst hs hcut, List.length_cons]
        omega
  rw [pieces_append hs h, h, List.length_append, List.length_append, List.length_singleton]
  omega

/-- A text that begins with a separator has an empty piece. -/
theorem not_prefix_of_pieces (hs : separator ≠ []) (h : [] ∉ pieces separator text) :
    ¬ separator <+: text := by
  rintro ⟨more, rfl⟩
  have hcut := cutFirst_of_clear hs (clear_nil hs) more
  rw [List.nil_append] at hcut
  refine h ?_
  rw [pieces_of_cutFirst hs hcut]
  exact List.mem_cons_self ..

/-- A text that ends with a mark has an empty piece. -/
theorem not_suffix_of_pieces {mark : Char} (h : [] ∉ pieces [mark] text) : ¬ [mark] <:+ text := by
  rintro ⟨before, rfl⟩
  have hs : [mark] ≠ [] := List.cons_ne_nil _ _
  obtain ⟨front, last, hpieces⟩ := exists_pieces_eq_concat [mark] before
  have hlast : ¬ [mark] <:+: last :=
    absent_of_mem_pieces hs (by rw [hpieces]; exact List.mem_append_right _ (List.mem_singleton_self _))
  have hcut := cutFirst_of_clear hs (clear_singleton_iff.2 fun hm => hlast (by
    rwa [List.singleton_infix_iff])) []
  rw [List.append_nil] at hcut
  refine h ?_
  rw [pieces_append hs hpieces, pieces_of_cutFirst hs hcut,
    pieces_of_absent (by simp)]
  simp

/-- Marks that are stripped at the end only take pieces away. -/
theorem length_pieces_trimMarks_lt (hs : separator ≠ []) (hfront : ¬ separator <+: text)
    (hback : separator <:+ text) :
    (pieces separator (trimMarks separator text)).length < (pieces separator text).length := by
  have hkept : dropLeading separator text.length text = text :=
    (dropLeading_eq_self_iff hs le_rfl).2 hfront
  simp only [trimMarks, List.isEmpty_eq_false_iff.2 hs, Bool.false_eq_true, if_false, hkept]
  obtain ⟨before, rfl⟩ := hback
  obtain ⟨fuel, hfuel⟩ : ∃ fuel, (before ++ separator).length = fuel + 1 :=
    Nat.exists_eq_succ_of_ne_zero (by simp [hs])
  rw [hfuel, List.reverse_append, dropLeading, after?_append]
  have hsuffix := (dropLeading_suffix separator.reverse fuel before.reverse).reverse
  rw [List.reverse_reverse] at hsuffix
  obtain ⟨more, hmore⟩ := hsuffix
  calc _ ≤ (pieces separator before).length := by
        have hle := length_pieces_append_le hs
          (dropLeading separator.reverse fuel before.reverse).reverse more
        rwa [hmore] at hle
    _ < _ := length_pieces_lt_append_separator hs before

theorem intercalate_concat (separator : List Char) (hne : front ≠ []) (last : List Char) :
    separator.intercalate (front ++ [last]) = separator.intercalate front ++ separator ++ last := by
  induction front with
  | nil => exact absurd rfl hne
  | cons piece front ih =>
      cases front with
      | nil => simp
      | cons next front =>
          rw [List.cons_append, List.intercalate_cons_of_ne_nil (by simp), ih (List.cons_ne_nil _ _),
            List.intercalate_cons_of_ne_nil (List.cons_ne_nil _ _)]
          simp only [List.append_assoc]

/-- Clear texts can be joined and cut again. -/
theorem pieces_intercalate_of_clear (hs : separator ≠ []) {parts : List (List Char)}
    (hne : parts ≠ []) (h : ∀ piece ∈ parts, Clear separator piece) :
    pieces separator (separator.intercalate parts) = parts := by
  obtain ⟨front, last, rfl⟩ := (List.eq_nil_or_concat' parts).resolve_left hne
  exact pieces_intercalate hs (fun piece hpiece => h piece (List.mem_append_left _ hpiece))
    (h last List.mem_concat_self).absent

/-! ## Less white space -/

/-- There is more than white space in the text. -/
def Shows (text : List Char) : Prop := ∃ c ∈ text, isBlank c = false

theorem shows_iff_dropWhile_ne_nil : Shows text ↔ text.dropWhile isBlank ≠ [] := by
  simp [Shows, List.dropWhile_eq_nil_iff]

theorem shows_iff_rdropWhile_ne_nil : Shows text ↔ text.rdropWhile isBlank ≠ [] := by
  simp [Shows, List.rdropWhile_eq_nil_iff]

theorem shows_iff_trimChars_ne_nil : Shows text ↔ trimChars text ≠ [] := by
  constructor
  · rintro ⟨c, hc, hblank⟩ hnil
    have hmem := mem_trimChars_of_not_blank hc hblank
    rw [hnil] at hmem
    exact absurd hmem List.not_mem_nil
  · intro hne
    obtain ⟨c, rest, he⟩ := List.exists_cons_of_ne_nil hne
    have hkept : trimChars text <:+: text := trimChars_infix text
    refine ⟨c, hkept.subset (he ▸ List.mem_cons_self ..), ?_⟩
    exact (trimmed_trimChars text).head c (by rw [he]; rfl)

theorem Shows.mono (h : Shows left) (hi : left <:+: text) : Shows text := by
  obtain ⟨c, hc, hblank⟩ := h
  exact ⟨c, hi.subset hc, hblank⟩

theorem Shows.ne_nil (h : Shows text) : text ≠ [] := by
  obtain ⟨c, hc, -⟩ := h
  exact List.ne_nil_of_mem hc

theorem Shows.dropWhile (h : Shows text) : Shows (text.dropWhile isBlank) := by
  rw [shows_iff_dropWhile_ne_nil, List.dropWhile_idempotent]
  exact shows_iff_dropWhile_ne_nil.1 h

theorem Shows.rdropWhile (h : Shows text) : Shows (text.rdropWhile isBlank) := by
  rw [shows_iff_rdropWhile_ne_nil, List.rdropWhile_idempotent]
  exact shows_iff_rdropWhile_ne_nil.1 h

theorem dropWhile_append_of_shows (h : Shows left) (right : List Char) :
    (left ++ right).dropWhile isBlank = left.dropWhile isBlank ++ right := by
  rw [List.dropWhile_append, if_neg]
  simpa using shows_iff_dropWhile_ne_nil.1 h

theorem rdropWhile_append_of_shows (left : List Char) (h : Shows right) :
    (left ++ right).rdropWhile isBlank = left ++ right.rdropWhile isBlank := by
  have hne := shows_iff_rdropWhile_ne_nil.1 h
  rw [List.rdropWhile, ne_eq, List.reverse_eq_nil_iff] at hne
  rw [List.rdropWhile, List.reverse_append, List.dropWhile_append, if_neg (by simpa using hne),
    List.reverse_append, List.reverse_reverse, List.rdropWhile]

/-- Marks at the end keep all white space in front of them. -/
theorem rdropWhile_append_marks {marks : List Char} (hne : marks ≠ [])
    (hmarks : ∀ c ∈ marks, isBlank c = false) (left : List Char) :
    (left ++ marks).rdropWhile isBlank = left ++ marks := by
  rw [List.rdropWhile_eq_self_iff]
  intro happend
  rw [List.getLast_append_of_ne_nil happend hne, hmarks _ (List.getLast_mem hne)]
  exact Bool.false_ne_true

/-- So do marks behind a text, which is longer by them when it is trimmed. -/
theorem length_trimChars_append_marks {marks : List Char} (h : Shows text) (hne : marks ≠ [])
    (hmarks : ∀ c ∈ marks, isBlank c = false) :
    (trimChars text).length < (trimChars (text ++ marks)).length := by
  have hlonger : trimChars (text ++ marks) = text.dropWhile isBlank ++ marks := by
    rw [trimChars_eq_rdropWhile, dropWhile_append_of_shows h, rdropWhile_append_marks hne hmarks]
  have hshorter : (trimChars text).length ≤ (text.dropWhile isBlank).length := by
    rw [trimChars_eq_rdropWhile]
    exact (List.rdropWhile_prefix isBlank (text.dropWhile isBlank)).length_le
  rw [hlonger, List.length_append]
  exact Nat.lt_of_le_of_lt hshorter (Nat.lt_add_of_pos_right (List.length_pos_iff.2 hne))

theorem trimChars_dropWhile (text : List Char) :
    trimChars (text.dropWhile isBlank) = trimChars text := by
  rw [trimChars_eq_rdropWhile, trimChars_eq_rdropWhile, List.dropWhile_idempotent]

theorem trimChars_rdropWhile (h : Shows text) :
    trimChars (text.rdropWhile isBlank) = trimChars text := by
  -- both sides of a character that is not blank are trimmed by themselves
  obtain ⟨c, hc, hblank⟩ := h
  obtain ⟨before, behind, rfl⟩ := List.append_of_mem hc
  have hshows : Shows (c :: behind) := ⟨c, List.mem_cons_self .., hblank⟩
  have hbehind : (c :: behind).rdropWhile isBlank = c :: behind.rdropWhile isBlank := by
    rw [List.rdropWhile, List.reverse_cons, List.dropWhile_append]
    split
    · next hnil =>
      rw [List.rdropWhile, List.isEmpty_iff.1 hnil, List.dropWhile_cons_of_neg (by simp [hblank])]
      rfl
    · rw [List.reverse_append, List.rdropWhile]
      rfl
  rw [rdropWhile_append_of_shows before hshows, hbehind, trimChars_append_mark hblank,
    trimChars_append_mark hblank, List.rdropWhile_idempotent]

/-- White space at the front is white space of the first piece. -/
theorem pieces_dropWhile (hs : separator ≠ []) (h : pieces separator text = first :: rest)
    (hfirst : Shows first) :
    pieces separator (text.dropWhile isBlank) = first.dropWhile isBlank :: rest := by
  cases hcut : cutFirst separator text with
  | none =>
      have hno := cutFirst_eq_none_iff.1 hcut
      rw [pieces_of_absent hno] at h
      obtain ⟨rfl, rfl⟩ := List.cons.inj h
      exact pieces_of_absent fun hi => hno (hi.trans (List.dropWhile_suffix _).isInfix)
  | some parts =>
      rw [pieces_of_cutFirst hs hcut] at h
      obtain ⟨rfl, rfl⟩ := List.cons.inj h
      have hclear := (clear_of_cutFirst hs hcut).of_suffix (List.dropWhile_suffix isBlank)
      rw [eq_of_cutFirst hcut, List.append_assoc, dropWhile_append_of_shows hfirst,
        ← List.append_assoc, pieces_of_cutFirst hs (cutFirst_of_clear hs hclear _)]

/-- White space at the end is white space of the last piece. -/
theorem pieces_rdropWhile (hs : separator ≠ []) (h : pieces separator text = front ++ [last])
    (hlast : Shows last) :
    pieces separator (text.rdropWhile isBlank) = front ++ [last.rdropWhile isBlank] := by
  induction text using cutting_induction hs generalizing front with
  | uncut text hno =>
      rw [pieces_of_absent hno, List.singleton_eq_append_iff] at h
      simp only [List.cons_ne_nil, and_false, or_false, List.cons.injEq, and_true] at h
      obtain ⟨rfl, rfl⟩ := h
      exact pieces_of_absent fun hi => hno (hi.trans (List.rdropWhile_prefix isBlank _).isInfix)
  | cut text left right hcut ih =>
      rw [pieces_of_cutFirst hs hcut] at h
      cases front with
      | nil => exact absurd (List.cons.inj h).2 (pieces_ne_nil _ _)
      | cons piece front =>
          obtain ⟨rfl, hright⟩ := List.cons.inj h
          have hshows : Shows right := hlast.mono (infix_of_mem_pieces hs (by
            rw [hright]
            exact List.mem_append_right _ (List.mem_singleton_self _)))
          rw [eq_of_cutFirst hcut, rdropWhile_append_of_shows _ hshows,
            pieces_of_cutFirst hs (cutFirst_of_clear hs (clear_of_cutFirst hs hcut) _), ih hright,
            List.cons_append]

/-! ## The last cut -/

theorem cutLast_eq_none_iff : cutLast separator text = none ↔ ¬ separator <:+: text := by
  rw [cutLast, Option.map_eq_none_iff, cutFirst_eq_none_iff, List.reverse_infix]

/-- What does not begin with a character begins no run of it when more of it stands in front. -/
theorem not_replicate_infix {c : Char} {m k : Nat} (hhead : text.head? ≠ some c)
    (hno : ¬ List.replicate (m + 1) c <:+: text) (hk : k ≤ m) :
    ¬ List.replicate (m + 1) c <:+: List.replicate k c ++ text := by
  induction k with
  | zero => exact hno
  | succ k ih =>
      rw [List.replicate_succ (n := k), List.cons_append, List.infix_cons_iff, not_or]
      refine ⟨fun hp => hhead ?_, ih (by omega)⟩
      -- a run from here on would reach into the text
      obtain ⟨more, hmore⟩ := hp
      have hget := congrArg (·[k + 1]?) hmore
      rw [List.getElem?_append_left (by rw [List.length_replicate]; omega),
        List.getElem?_replicate_of_lt (by omega), List.getElem?_cons_succ,
        List.getElem?_append_right (by simp), List.length_replicate, Nat.sub_self,
        ← List.head?_eq_getElem?] at hget
      exact hget.symm

/-- **A separator that repeats one character is not moved by a text in front of it exactly when the text
    neither holds a separator nor ends with the character.** -/
theorem clear_replicate_iff {c : Char} {m : Nat} :
    Clear (List.replicate (m + 1) c) left ↔
      ¬ List.replicate (m + 1) c <:+: left ∧ left.getLast? ≠ some c := by
  rw [Clear, List.dropLast_replicate, Nat.add_sub_cancel]
  constructor
  · intro hclear
    refine ⟨fun hi => hclear (hi.trans List.infix_append_left), fun hlast => hclear ?_⟩
    -- the last character and the separator without its own last one are a separator
    obtain ⟨front, rfl⟩ := List.getLast?_eq_some_iff.1 hlast
    rw [List.append_assoc, List.singleton_append, ← List.replicate_succ]
    exact List.infix_append_right
  · rintro ⟨hno, hlast⟩ hi
    have hhead : left.reverse.head? ≠ some c := by rwa [List.head?_reverse]
    have habsent : ¬ List.replicate (m + 1) c <:+: left.reverse := by
      rwa [← List.reverse_infix, List.reverse_replicate, List.reverse_reverse]
    refine not_replicate_infix hhead habsent (le_refl m) ?_
    rwa [← List.reverse_infix, List.reverse_append, List.reverse_replicate, List.reverse_replicate,
      List.reverse_reverse]

/-- How many more a text can begin with and hold no run. -/
theorem takeWhile_eq_replicate_of_absent {c : Char} {m : Nat}
    (hno : ¬ List.replicate (m + 1) c <:+: text) :
    ∃ k ≤ m, text.takeWhile (· == c) = List.replicate k c := by
  have hrun : text.takeWhile (· == c) = List.replicate (text.takeWhile (· == c)).length c :=
    List.eq_replicate_iff.2 ⟨rfl, fun d hd => eq_of_beq (List.mem_takeWhile_imp (p := (· == c)) hd)⟩
  refine ⟨_, ?_, hrun⟩
  by_contra hlong
  obtain ⟨more, hmore⟩ := Nat.exists_eq_add_of_le (Nat.succ_le_of_lt (Nat.not_le.1 hlong))
  refine hno (List.IsPrefix.isInfix (List.IsPrefix.trans ?_ (List.takeWhile_prefix (· == c))))
  refine ⟨List.replicate more c, ?_⟩
  rw [hrun, hmore, List.replicate_append_replicate]

/-- **Where more of the separator's character follows a separator, the last cut is behind it.** -/
theorem cutLast_append_append {c : Char} {m : Nat} (hs : separator = List.replicate (m + 1) c)
    (hlast : ¬ separator <:+: last) (before : List Char) :
    cutLast separator (before ++ separator ++ last)
      = some (before ++ last.takeWhile (· == c), last.dropWhile (· == c)) := by
  subst hs
  obtain ⟨k, hk, hrun⟩ := takeWhile_eq_replicate_of_absent hlast
  have hbehind : (last.dropWhile (· == c)).head? ≠ some c := by
    intro hhead
    have hnot := List.head?_dropWhile_not (· == c) last
    rw [hhead] at hnot
    exact absurd hnot (by simp)
  have hclear : Clear (List.replicate (m + 1) c) (last.dropWhile (· == c)).reverse := by
    rw [clear_replicate_iff, List.getLast?_reverse]
    refine ⟨fun hi => hlast ?_, hbehind⟩
    rw [← List.reverse_infix, List.reverse_replicate, List.reverse_reverse] at hi
    exact hi.trans (List.dropWhile_suffix _).isInfix
  have hreverse : last.reverse = (last.dropWhile (· == c)).reverse ++ List.replicate k c := by
    have hsplit := congrArg List.reverse (List.takeWhile_append_dropWhile (p := (· == c)) (l := last))
    rw [List.reverse_append, hrun, List.reverse_replicate] at hsplit
    exact hsplit.symm
  have htext : (before ++ List.replicate (m + 1) c ++ last).reverse
      = (last.dropWhile (· == c)).reverse ++ List.replicate (m + 1) c
        ++ (before ++ List.replicate k c).reverse := by
    simp only [List.reverse_append, List.reverse_replicate, hreverse, List.append_assoc]
    rw [← List.append_assoc (List.replicate k c), ← List.append_assoc (List.replicate (m + 1) c),
      List.replicate_append_replicate, List.replicate_append_replicate, Nat.add_comm]
  rw [cutLast, List.reverse_replicate, htext, cutFirst_of_clear (by simp) hclear, Option.map_some,
    hrun]
  simp only [List.reverse_reverse]

end FacetSearch.Text
