import FacetSearch.Proofs.Text.Cutting
import FacetSearch.Text.Blank
import Mathlib

set_option autoImplicit false

/-! # Trimming

Trimming a text of white space or of marks leaves a part of it, and which texts are left as they are can
be told by their two ends. Trimming and writing in lower case do not get in each other's way. -/

namespace FacetSearch.Text

variable {text : List Char}

/-! ## White space -/

/-- The text neither begins nor ends with white space. -/
structure Trimmed (text : List Char) : Prop where
  head : ∀ c ∈ text.head?, isBlank c = false
  last : ∀ c ∈ text.getLast?, isBlank c = false

theorem trimChars_eq_rdropWhile (text : List Char) :
    trimChars text = (text.dropWhile isBlank).rdropWhile isBlank := rfl

theorem trimChars_infix (text : List Char) : trimChars text <:+: text := by
  rw [trimChars_eq_rdropWhile]
  exact (List.rdropWhile_prefix isBlank _).isInfix.trans (List.dropWhile_suffix isBlank).isInfix

/-- A prefix begins as the text does. -/
theorem mem_head?_of_prefix {front : List Char} (h : front <+: text) {c : Char}
    (hc : c ∈ front.head?) : c ∈ text.head? := by
  obtain ⟨rest, rfl⟩ := h
  rw [List.head?_append, hc]
  rfl

theorem trimmed_trimChars (text : List Char) : Trimmed (trimChars text) := by
  rw [trimChars_eq_rdropWhile]
  constructor
  · intro c hc
    -- cutting at the end leaves the first character, which is not blank any more
    have hhead : (text.dropWhile isBlank).head? = some c :=
      mem_head?_of_prefix (List.rdropWhile_prefix isBlank _) hc
    have hnot := List.head?_dropWhile_not isBlank text
    rw [hhead] at hnot
    exact hnot
  · intro c hc
    have hne : (text.dropWhile isBlank).rdropWhile isBlank ≠ [] := by
      intro hnil
      rw [hnil] at hc
      exact absurd hc (by simp)
    have hnot := List.rdropWhile_last_not isBlank _ hne
    rw [List.getLast?_eq_getLast_of_ne_nil hne, Option.mem_some_iff] at hc
    rwa [hc, Bool.not_eq_true] at hnot

theorem isBlank_of_isDigit {c : Char} (h : c.isDigit = true) : isBlank c = false := by
  rw [Char.isDigit, Bool.and_eq_true, decide_eq_true_eq, decide_eq_true_eq] at h
  obtain ⟨hlo, hhi⟩ : 48 ≤ c.toNat ∧ c.toNat ≤ 57 := h
  simp only [isBlank, Bool.or_eq_false_iff, Bool.and_eq_false_iff, decide_eq_false_iff_not,
    beq_eq_false_iff_ne]
  omega

theorem trimChars_eq_self_iff : trimChars text = text ↔ Trimmed text := by
  constructor
  · intro h
    exact h ▸ trimmed_trimChars text
  · rintro ⟨hhead, hlast⟩
    have hdrop : text.dropWhile isBlank = text := by
      cases text with
      | nil => rfl
      | cons c rest => rw [List.dropWhile_cons_of_neg (by simp [hhead c rfl])]
    rw [trimChars_eq_rdropWhile, hdrop, List.rdropWhile_eq_self_iff]
    intro hne
    rw [hlast _ (List.getLast?_eq_getLast_of_ne_nil hne), Bool.false_eq_true]
    exact id

/-- What is trimmed off at the end of a text does not reach back over a character that is not blank. -/
theorem trimChars_append_cons {front : List Char} {c : Char} (hc : isBlank c = false)
    (hfront : ∀ d ∈ front.head?, isBlank d = false) (back : List Char) :
    trimChars (front ++ c :: back) = front ++ c :: back.rdropWhile isBlank := by
  have hopened : (front ++ c :: back).dropWhile isBlank = front ++ c :: back := by
    cases front with
    | nil => rw [List.nil_append, List.dropWhile_cons_of_neg (by simp [hc])]
    | cons d front => rw [List.cons_append, List.dropWhile_cons_of_neg (by simp [hfront d rfl])]
  rw [trimChars_eq_rdropWhile, hopened, List.rdropWhile, List.reverse_append, List.reverse_cons,
    List.append_assoc, List.singleton_append, List.dropWhile_append, List.rdropWhile]
  split
  · next hempty =>
    rw [List.isEmpty_iff.1 hempty, List.dropWhile_cons_of_neg (by simp [hc])]
    simp
  · simp

/-- On either side of a character that is not blank, a text is trimmed by itself. -/
theorem trimChars_append_mark {c : Char} (hc : isBlank c = false) (front back : List Char) :
    trimChars (front ++ c :: back)
      = front.dropWhile isBlank ++ c :: back.rdropWhile isBlank := by
  have hopened : (front ++ c :: back).dropWhile isBlank = front.dropWhile isBlank ++ c :: back := by
    rw [List.dropWhile_append]
    split
    · next hempty =>
      rw [List.isEmpty_iff.1 hempty, List.dropWhile_cons_of_neg (by simp [hc]), List.nil_append]
    · rfl
  have hhead : ∀ d ∈ (front.dropWhile isBlank).head?, isBlank d = false := by
    intro d hd
    have hnot := List.head?_dropWhile_not isBlank front
    rwa [hd] at hnot
  have htwice : (front.dropWhile isBlank ++ c :: back).dropWhile isBlank
      = front.dropWhile isBlank ++ c :: back := by
    rw [← hopened, List.dropWhile_idempotent]
  rw [← trimChars_append_cons hc hhead back, trimChars_eq_rdropWhile, trimChars_eq_rdropWhile, hopened,
    htwice]

/-- A text that is cut short ends in less white space, or else is cut in front of it. -/
theorem prefix_rdropWhile {front : List Char} (h : front <+: text) :
    front.rdropWhile isBlank <+: text.rdropWhile isBlank := by
  obtain ⟨back, rfl⟩ := h
  rw [List.rdropWhile, List.rdropWhile, List.reverse_prefix, List.reverse_append]
  induction back.reverse with
  | nil => exact List.suffix_refl _
  | cons c rest ih =>
      rw [List.cons_append, List.dropWhile_cons]
      split
      · exact ih
      · exact (List.dropWhile_suffix isBlank).trans (List.suffix_append (c :: rest) _)

/-- **Trimming keeps the beginning of a text a beginning.** -/
theorem prefix_trimChars {front : List Char} (h : front <+: text) :
    trimChars front <+: trimChars text := by
  rw [trimChars_eq_rdropWhile, trimChars_eq_rdropWhile]
  refine prefix_rdropWhile ?_
  obtain ⟨back, rfl⟩ := h
  rw [List.dropWhile_append]
  split
  · next hempty =>
    rw [List.isEmpty_iff.1 hempty]
    exact List.nil_prefix
  · exact List.prefix_append _ _

theorem trim_trim (raw : String) : trim (trim raw) = trim raw := by
  simp only [trim, String.toList_ofList, trimChars_eq_self_iff.2 (trimmed_trimChars _)]

theorem mem_trimChars_of_not_blank {c : Char} (h : c ∈ text) (hc : isBlank c = false) :
    c ∈ trimChars text := by
  have hleft {p : Char → Bool} {l : List Char} (hmem : c ∈ l) (hp : p c = false) :
      c ∈ l.dropWhile p := by
    rw [← List.takeWhile_append_dropWhile (p := p) (l := l), List.mem_append] at hmem
    refine hmem.resolve_left fun hcut => ?_
    rw [List.mem_takeWhile_imp hcut] at hp
    exact absurd hp (by simp)
  rw [trimChars, List.mem_reverse]
  exact hleft (List.mem_reverse.2 (hleft h hc)) hc

/-- What stands between two trimmed texts does not matter. -/
theorem Trimmed.between {front middle back : List Char} (hfront : Trimmed front)
    (hback : Trimmed back) (hne : front ≠ []) (hne' : back ≠ []) :
    Trimmed (front ++ middle ++ back) := by
  constructor
  · intro c hc
    rw [List.append_assoc, List.head?_append_of_ne_nil _ hne] at hc
    exact hfront.head c hc
  · intro c hc
    rw [List.getLast?_append_of_ne_nil _ hne'] at hc
    exact hback.last c hc

/-! ## Marks -/

variable {mark : List Char}

theorem dropLeading_suffix (mark : List Char) (fuel : Nat) (text : List Char) :
    dropLeading mark fuel text <:+ text := by
  induction fuel generalizing text with
  | zero => exact List.suffix_refl _
  | succ fuel ih =>
      rw [dropLeading]
      split
      · next rest hrest =>
        rw [eq_append_of_after? hrest]
        exact (ih rest).trans (List.suffix_append _ _)
      · exact List.suffix_refl _

theorem dropLeading_eq_self_iff {fuel : Nat} (hm : mark ≠ []) (hf : text.length ≤ fuel) :
    dropLeading mark fuel text = text ↔ ¬ mark <+: text := by
  constructor
  · rintro h ⟨rest, rfl⟩
    have hpos := List.length_pos_iff.2 hm
    cases fuel with
    | zero =>
        simp only [List.length_append] at hf
        omega
    | succ fuel =>
        rw [dropLeading, after?_append] at h
        -- a mark that is stripped makes the text shorter
        have hle := (dropLeading_suffix mark fuel rest).length_le
        have hlength := congrArg List.length h
        simp only [List.length_append] at hlength
        omega
  · intro h
    cases fuel with
    | zero => rfl
    | succ fuel => rw [dropLeading, after?_eq_none_iff.2 h]

theorem trimMarks_infix (mark text : List Char) : trimMarks mark text <:+: text := by
  unfold trimMarks
  split
  · exact List.infix_rfl
  · have hback := (dropLeading_suffix mark.reverse (dropLeading mark text.length text).length
      (dropLeading mark text.length text).reverse).reverse
    rw [List.reverse_reverse] at hback
    exact hback.isInfix.trans (dropLeading_suffix mark text.length text).isInfix

/-- A text without marks at its ends is left as it is. -/
theorem trimMarks_eq_self_iff (hm : mark ≠ []) :
    trimMarks mark text = text ↔ ¬ mark <+: text ∧ ¬ mark <:+ text := by
  have hempty : mark.isEmpty = false := List.isEmpty_eq_false_iff.2 hm
  have hfront : dropLeading mark text.length text = text ↔ ¬ mark <+: text :=
    dropLeading_eq_self_iff hm le_rfl
  have hback : dropLeading mark.reverse text.length text.reverse = text.reverse ↔
      ¬ mark.reverse <+: text.reverse := dropLeading_eq_self_iff (by simpa using hm) (by simp)
  rw [List.reverse_prefix] at hback
  simp only [trimMarks, hempty, Bool.false_eq_true, if_false]
  constructor
  · intro h
    -- what is stripped at the front is not put back
    have hopened : dropLeading mark text.length text = text := by
      refine (dropLeading_suffix mark text.length text).eq_of_length_le ?_
      have hle := (dropLeading_suffix mark.reverse (dropLeading mark text.length text).length
        (dropLeading mark text.length text).reverse).length_le
      have hlength := congrArg List.length h
      simp only [List.length_reverse] at hle hlength
      omega
    rw [hopened] at h
    refine ⟨hfront.1 hopened, hback.1 ?_⟩
    rw [← List.reverse_reverse (dropLeading mark.reverse text.length text.reverse), h]
  · rintro ⟨hp, hs⟩
    rw [hfront.2 hp, hback.2 hs, List.reverse_reverse]

/-! ## Lower case -/

theorem isBlank_toLower (c : Char) : isBlank c.toLower = isBlank c := by
  by_cases hc : c.isUpper = true
  · -- neither a capital nor a small letter is blank
    obtain ⟨hlo, hhi⟩ : 65 ≤ c.toNat ∧ c.toNat ≤ 90 := by
      simpa [Char.isUpper, UInt32.le_iff_toNat_le] using hc
    have hsmall : c.toLower.toNat = c.toNat + 32 := by
      rw [Char.toLower_eq_of_isUpper hc, Char.toNat_ofNat, if_pos (.inl (by omega))]
    have hcapital : isBlank c = false := by
      simp only [isBlank, Bool.or_eq_false_iff, Bool.and_eq_false_iff, decide_eq_false_iff_not,
        beq_eq_false_iff_ne]
      omega
    have hletter : isBlank c.toLower = false := by
      simp only [isBlank, hsmall, Bool.or_eq_false_iff, Bool.and_eq_false_iff,
        decide_eq_false_iff_not, beq_eq_false_iff_ne]
      omega
    rw [hcapital, hletter]
  · rw [Char.toLower_eq_of_not_isUpper hc]

theorem toLower_eq_dash_iff {c : Char} : c.toLower = '-' ↔ c = '-' := by
  constructor
  · intro h
    by_cases hc : c.isUpper = true
    · have halpha := Char.isAlpha_toLower_eq_isAlpha c
      have hdash : '-'.isAlpha = false := rfl
      rw [h, hdash, Char.isAlpha, hc, Bool.true_or] at halpha
      exact absurd halpha (by decide)
    · rwa [Char.toLower_eq_of_not_isUpper hc] at h
  · rintro rfl
    decide

theorem dash_mem_map_toLower_iff : '-' ∈ text.map Char.toLower ↔ '-' ∈ text := by
  constructor
  · intro h
    obtain ⟨c, hc, hlower⟩ := List.mem_map.1 h
    exact toLower_eq_dash_iff.1 hlower ▸ hc
  · intro h
    exact List.mem_map.2 ⟨'-', h, by decide⟩

theorem toList_toLower (text : String) : text.toLower.toList = text.toList.map Char.toLower := by
  rw [String.toLower, String.toList_map]

theorem toList_toLower_trim (raw : String) :
    (trim raw).toLower.toList = (trimChars raw.toList).map Char.toLower := by
  rw [toList_toLower, trim, String.toList_ofList]

theorem toLower_toLower (text : String) : text.toLower.toLower = text.toLower := by
  rw [← String.toList_inj, toList_toLower, toList_toLower, List.map_map]
  exact List.map_congr_left fun c _ => Char.toLower_toLower_eq_toLower c

theorem trimChars_map_toLower (text : List Char) :
    trimChars (text.map Char.toLower) = (trimChars text).map Char.toLower := by
  have hblank : isBlank ∘ Char.toLower = isBlank := funext isBlank_toLower
  simp only [trimChars, List.dropWhile_map, ← List.map_reverse, hblank]

theorem trim_toLower (text : String) : trim text.toLower = (trim text).toLower := by
  rw [← String.toList_inj, toList_toLower, trim, trim, String.toList_ofList, String.toList_ofList,
    toList_toLower, trimChars_map_toLower]

end FacetSearch.Text
