import FacetSearch.Index.Term
import FacetSearch.Proofs.Text.Cutting
import Mathlib

set_option autoImplicit false

/-! # Terms read back

The index reads a term from the left, and a backslash takes the next character. Read so (`scan`), an
escaped word has nothing left that means something to the index, and a phrase has no quote but the two
around it; both give back what they were written from (`scan_escape`, `scan_quote`). The terms of free
text are of these two sorts, and read back they are the words of the text when its quotes separate words
as blanks do (`terms_read_back`). -/

namespace FacetSearch.Term

/-! ## Reading -/

/-- A character as the index reads it. -/
structure Glyph where
  char : Char
  /-- A backslash has taken the character, so that it means nothing but itself. -/
  escaped : Bool
deriving DecidableEq, Repr

/-- Read a term; there is nothing to read when the last backslash has nothing to take. -/
def scan : List Char → Option (List Glyph)
  | [] => some []
  | [c] => if c = '\\' then none else some [⟨c, false⟩]
  | c :: d :: rest =>
    if c = '\\' then (scan rest).map (⟨d, true⟩ :: ·) else (scan (d :: rest)).map (⟨c, false⟩ :: ·)

/-- The words that a term stands for: those of a phrase are cut at its spaces. -/
def wordsOf (term : String) : List String :=
  match scan term.toList with
  | none => []
  | some [] => [""]
  | some (first :: rest) =>
    if first = ⟨'"', false⟩ then ((rest.dropLast.map (·.char)).splitOn ' ').map String.ofList
    else [String.ofList ((first :: rest).map (·.char))]

theorem scan_backslash (c : Char) (rest : List Char) :
    scan ('\\' :: c :: rest) = (scan rest).map (⟨c, true⟩ :: ·) := by
  rw [scan, if_pos rfl]

theorem scan_cons {c : Char} (h : c ≠ '\\') (rest : List Char) :
    scan (c :: rest) = (scan rest).map (⟨c, false⟩ :: ·) := by
  cases rest with
  | nil => simp [scan, h]
  | cons d rest => rw [scan, if_neg h]

/-- A text in which certain characters are escaped, the backslash among them, is read as it was, and so
    is what stands behind it. -/
theorem scan_flatMap (needs : Char → Bool) (hbackslash : needs '\\' = true) (text rest : List Char) :
    scan ((text.flatMap fun c => if needs c then ['\\', c] else [c]) ++ rest)
      = (scan rest).map ((text.map fun c => ⟨c, needs c⟩) ++ ·) := by
  induction text with
  | nil => cases h : scan rest <;> simp [h]
  | cons c text ih =>
      rw [List.flatMap_cons, List.append_assoc]
      cases hc : needs c with
      | true =>
          show scan ('\\' :: c :: (_ ++ rest)) = _
          rw [scan_backslash, ih, Option.map_map, List.map_cons, hc]
          rfl
      | false =>
          have hne : c ≠ '\\' := by
            intro hsame
            rw [hsame, hbackslash] at hc
            exact absurd hc (by simp)
          show scan (c :: (_ ++ rest)) = _
          rw [scan_cons hne, ih, Option.map_map, List.map_cons, hc]
          rfl

/-! ## Words and phrases -/

/-- What needs no backslash is neither a special character, such as a quote, nor a blank. -/
theorem isSpecial_eq_false_iff {c : Char} :
    isSpecial c = false ↔ c ∉ specials ∧ Text.isBlank c = false := by
  simp [isSpecial]

/-- **An escaped word is read as it was written**, and what is special in it is escaped. -/
theorem scan_escape (word : String) :
    scan (escape word).toList = some (word.toList.map fun c => ⟨c, isSpecial c⟩) := by
  have h := scan_flatMap isSpecial (by decide) word.toList []
  rw [List.append_nil] at h
  rw [escape, escapeChars, String.toList_ofList, h]
  simp [scan]

/-- The character is escaped inside a phrase. -/
def isPhraseMark (c : Char) : Bool := c = '\\' || c = '"'

/-- Escaping backslashes and then quotes is escaping both at once. -/
theorem phraseChars_eq (phrase : List Char) :
    phraseChars phrase = phrase.flatMap fun c => if isPhraseMark c then ['\\', c] else [c] := by
  rw [phraseChars, markChars, markChars, List.flatMap_assoc]
  congr 1
  funext c
  by_cases hbackslash : c = '\\'
  · subst hbackslash
    rfl
  · by_cases hquote : c = '"'
    · subst hquote
      rfl
    · simp [isPhraseMark, hbackslash, hquote]

/-- **A phrase is read as it was written**, between two quotes that are not escaped, while those inside
    are. -/
theorem scan_quote (phrase : String) :
    scan (quote phrase).toList
      = some (⟨'"', false⟩ :: (phrase.toList.map fun c => ⟨c, isPhraseMark c⟩) ++ [⟨'"', false⟩]) := by
  rw [quote, String.toList_ofList, phraseChars_eq, List.cons_append, scan_cons (by decide),
    scan_flatMap isPhraseMark (by decide), scan_cons (by decide)]
  rfl

theorem wordsOf_escape (word : String) : wordsOf (escape word) = [word] := by
  unfold wordsOf
  rw [scan_escape]
  cases hword : word.toList with
  | nil => rw [← String.ofList_toList (s := word), hword]; rfl
  | cons c rest =>
      -- a quote is special, so a word does not open with one that is read as such
      have hopen : (⟨c, isSpecial c⟩ : Glyph) ≠ ⟨'"', false⟩ := by
        intro hsame
        obtain ⟨hc, hplain⟩ := Glyph.mk.inj hsame
        rw [hc] at hplain
        exact absurd hplain (by decide)
      simp only [List.map_cons, if_neg hopen, List.map_map, Function.comp_def, List.map_id']
      rw [← hword, String.ofList_toList]

theorem wordsOf_quote (phrase : String) :
    wordsOf (quote phrase) = (phrase.toList.splitOn ' ').map String.ofList := by
  unfold wordsOf
  rw [scan_quote]
  simp [Function.comp_def]

/-! ## Words between separators -/

/-- What stands between the separators of a text, as far as it is something. -/
def wordsBy (separates : Char → Bool) (text : List Char) : List (List Char) :=
  (text.splitOnP separates).filter (!·.isEmpty)

section

variable {separates : Char → Bool}

/-- A text is free of separators, or it has a first one. -/
theorem separated_induction (separates : Char → Bool) {motive : List Char → Prop}
    (plain : ∀ word, (∀ c ∈ word, separates c = false) → motive word)
    (cut : ∀ left c right, (∀ c ∈ left, separates c = false) → separates c = true → motive right →
      motive (left ++ c :: right)) (text : List Char) : motive text := by
  have hfrom : ∀ text left : List Char, (∀ c ∈ left, separates c = false) → motive (left ++ text) := by
    intro text
    induction text with
    | nil =>
        intro left hleft
        rw [List.append_nil]
        exact plain left hleft
    | cons c rest ih =>
        intro left hleft
        cases hc : separates c with
        | true => exact cut left c rest hleft hc (ih [] (by simp))
        | false =>
            rw [← List.singleton_append, ← List.append_assoc]
            refine ih _ (List.forall_mem_append.2 ⟨hleft, ?_⟩)
            simpa using hc
  exact hfrom text [] (by simp)

/-- The words on both sides of a separator are the words of the text. -/
theorem wordsBy_append_cons {c : Char} (hc : separates c = true) (left right : List Char) :
    wordsBy separates (left ++ c :: right) = wordsBy separates left ++ wordsBy separates right := by
  rw [wordsBy, List.splitOnP_append_cons left right hc, List.filter_append]
  rfl

theorem wordsBy_of_plain {word : List Char} (h : ∀ c ∈ word, separates c = false) :
    wordsBy separates word = if word.isEmpty then [] else [word] := by
  rw [wordsBy, List.splitOnP_eq_singleton h]
  cases word <;> rfl

theorem of_mem_wordsBy {text word : List Char} (h : word ∈ wordsBy separates text) :
    word ≠ [] ∧ ∀ c ∈ word, separates c = false := by
  induction text using separated_induction separates with
  | plain text htext =>
      rw [wordsBy_of_plain htext] at h
      split at h
      · exact absurd h List.not_mem_nil
      · next hne =>
        obtain rfl := List.mem_singleton.1 h
        exact ⟨by simpa using hne, htext⟩
  | cut left c right hleft hc ih =>
      rw [wordsBy_append_cons hc, wordsBy_of_plain hleft, List.mem_append] at h
      rcases h with h | h
      · split at h
        · exact absurd h List.not_mem_nil
        · next hne =>
          obtain rfl := List.mem_singleton.1 h
          exact ⟨by simpa using hne, hleft⟩
      · exact ih h

/-- Cutting at one mark first makes no difference to the words. -/
theorem wordsBy_splitOn (mark : Char) (text : List Char) :
    (text.splitOn mark).flatMap (wordsBy separates)
      = wordsBy (fun c => c == mark || separates c) text := by
  have hplain : ∀ word : List Char, (∀ c ∈ word, (c == mark) = false) →
      wordsBy (fun c => c == mark || separates c) word = wordsBy separates word := by
    intro word hword
    unfold wordsBy
    congr 1
    induction word with
    | nil => rfl
    | cons c rest ih =>
        obtain ⟨hc, hrest⟩ := List.forall_mem_cons.1 hword
        simp only [List.splitOnP_cons_eq_if_modifyHead, hc, Bool.false_or, ih hrest]
  induction text using separated_induction (· == mark) with
  | plain word hword =>
      rw [List.splitOn_eq_singleton_of_beq_eq_false hword, hplain word hword, List.flatMap_singleton]
  | cut left c right hleft hc ih =>
      rw [List.splitOn_append_cons_of_forall_mem_beq_eq_false hleft c hc, List.flatMap_cons, ih,
        wordsBy_append_cons (by simp [hc]), hplain left hleft]

end

/-- Reading words one character at a time comes to what stands between the blanks. -/
theorem wordsFrom_eq {current : List Char} (h : ∀ c ∈ current, Text.isBlank c = false)
    (text : List Char) :
    Text.wordsFrom current text = wordsBy Text.isBlank (current.reverse ++ text) := by
  induction text generalizing current with
  | nil =>
      rw [List.append_nil, wordsBy_of_plain (by simpa using h), List.isEmpty_reverse]
      rfl
  | cons c rest ih =>
      rw [Text.wordsFrom]
      cases hc : Text.isBlank c with
      | true =>
          rw [wordsBy_append_cons hc, wordsBy_of_plain (by simpa using h), List.isEmpty_reverse,
            if_pos rfl, ih (by simp)]
          split <;> rfl
      | false =>
          rw [if_neg (by simp), ih (List.forall_mem_cons.2 ⟨hc, h⟩), List.reverse_cons,
            List.append_assoc]
          rfl

theorem words_eq (text : String) :
    Text.words text = (wordsBy Text.isBlank text.toList).map String.ofList :=
  congrArg (List.map String.ofList) (wordsFrom_eq (by simp) text.toList)

/-! ## Free text -/

/-- A word is some characters, none of them blank. -/
structure IsWord (word : String) : Prop where
  ne_empty : word ≠ ""
  not_blank : ∀ c ∈ word.toList, Text.isBlank c = false

/-- An escaped word, or a quoted phrase that is not empty. -/
def IsTerm (term : String) : Prop :=
  (∃ word, term = escape word ∧ IsWord word) ∨ ∃ phrase, term = quote phrase ∧ phrase ≠ ""

theorem isWord_of_mem_words {text word : String} (h : word ∈ Text.words text) : IsWord word := by
  rw [words_eq] at h
  obtain ⟨chars, hchars, rfl⟩ := List.mem_map.1 h
  obtain ⟨hne, hblank⟩ := of_mem_wordsBy hchars
  exact ⟨by simpa using hne, by simpa using hblank⟩

theorem isTerm_of_mem_phraseTerms {words : List String} (hwords : ∀ word ∈ words, IsWord word)
    {term : String} (h : term ∈ phraseTerms words) : IsTerm term := by
  cases words with
  | nil => exact absurd h List.not_mem_nil
  | cons first rest =>
      obtain rfl := List.mem_singleton.1 h
      refine .inr ⟨_, rfl, fun hempty => ?_⟩
      have hprefix := Text.prefix_intercalate " " first rest
      rw [hempty] at hprefix
      have hfirst : first.toList = [] := List.prefix_nil.1 hprefix
      exact (hwords first (List.mem_cons_self ..)).ne_empty (by simpa using hfirst)

/-- A phrase holds the words that it is made of. -/
theorem flatMap_wordsOf_phraseTerms {words : List String} (hwords : ∀ word ∈ words, IsWord word) :
    (phraseTerms words).flatMap wordsOf = words := by
  cases words with
  | nil => rfl
  | cons first rest =>
      have hspace : ∀ word ∈ (first :: rest).map String.toList, ' ' ∉ word := by
        intro chars hchars hmem
        obtain ⟨word, hword, rfl⟩ := List.mem_map.1 hchars
        exact absurd ((hwords word hword).not_blank ' ' hmem) (by decide)
      have hseparator : " ".toList = [' '] := rfl
      rw [phraseTerms, if_neg (by simp), List.flatMap_singleton, wordsOf_quote,
        String.toList_intercalate, hseparator, List.splitOn_intercalate ' ' hspace (by simp)]
      simp [Function.comp_def]

theorem flatMap_wordsOf_termsOf (inside : Bool) (parts : List (List Char)) :
    (termsOf inside (parts.map String.ofList)).flatMap wordsOf
      = (parts.flatMap (wordsBy Text.isBlank)).map String.ofList := by
  induction parts generalizing inside with
  | nil => rfl
  | cons part rest ih =>
      have hwords : Text.words (String.ofList part) = (wordsBy Text.isBlank part).map String.ofList := by
        rw [words_eq, String.toList_ofList]
      rw [List.map_cons, termsOf, List.flatMap_append, ih, List.flatMap_cons, List.map_append]
      congr 1
      cases inside with
      | true =>
          show (phraseTerms _).flatMap wordsOf = _
          rw [flatMap_wordsOf_phraseTerms fun word => isWord_of_mem_words, hwords]
      | false =>
          show ((Text.words _).map escape).flatMap wordsOf = _
          rw [List.flatMap_map]
          simp only [wordsOf_escape, List.flatMap_singleton']
          exact hwords

theorem isTerm_of_mem_termsOf {inside : Bool} {parts : List String} {term : String}
    (h : term ∈ termsOf inside parts) : IsTerm term := by
  induction parts generalizing inside with
  | nil => exact absurd h List.not_mem_nil
  | cons part rest ih =>
      rw [termsOf, List.mem_append] at h
      rcases h with h | h
      · cases inside with
        | true => exact isTerm_of_mem_phraseTerms (fun word => isWord_of_mem_words) h
        | false =>
            obtain ⟨word, hword, rfl⟩ := List.mem_map.1 h
            exact .inl ⟨word, rfl, isWord_of_mem_words hword⟩
      · exact ih h

/-- **What is written for the index is read back as it was.** An escaped word has no bare character that
    means something, no quote and no blank; a phrase has two quotes that are not escaped, the first
    character and the last. The terms of a text are of these sorts, and hold the words of the text, in
    order, when its quotes separate words as blanks do, whether they are closed or not. -/
theorem terms_read_back :
    (∀ word : String, ∃ glyphs, scan (escape word).toList = some glyphs ∧
      String.ofList (glyphs.map (·.char)) = word ∧
      ∀ glyph ∈ glyphs, glyph.escaped = false →
        glyph.char ∉ specials ∧ glyph.char ≠ '"' ∧ Text.isBlank glyph.char = false) ∧
    (∀ phrase : String, ∃ inside,
      scan (quote phrase).toList = some (⟨'"', false⟩ :: inside ++ [⟨'"', false⟩]) ∧
      String.ofList (inside.map (·.char)) = phrase ∧
      ∀ glyph ∈ inside, glyph.escaped = false → glyph.char ≠ '"') ∧
    ∀ text : String, (∀ term ∈ tokenize text, IsTerm term) ∧
      (tokenize text).flatMap wordsOf
        = (wordsBy (fun c => c == '"' || Text.isBlank c) text.toList).map String.ofList := by
  refine ⟨fun word => ⟨_, scan_escape word, ?_, ?_⟩, fun phrase => ⟨_, scan_quote phrase, ?_, ?_⟩,
    fun text => ⟨fun term => isTerm_of_mem_termsOf, ?_⟩⟩
  · simp [Function.comp_def]
  · intro glyph hglyph hbare
    obtain ⟨c, -, rfl⟩ := List.mem_map.1 hglyph
    obtain ⟨hspecial, hblank⟩ := isSpecial_eq_false_iff.1 hbare
    have hquote : '"' ∈ specials := by decide
    refine ⟨hspecial, fun hc => ?_, hblank⟩
    obtain rfl : c = '"' := hc
    exact hspecial hquote
  · simp [Function.comp_def]
  · intro glyph hglyph hbare hquote
    obtain ⟨c, -, rfl⟩ := List.mem_map.1 hglyph
    obtain rfl : c = '"' := hquote
    exact absurd hbare (by decide)
  · rw [tokenize, flatMap_wordsOf_termsOf, wordsBy_splitOn]

/-- The second quote is never closed. -/
example : tokenize "red \"Attic  ware\" 5:1\"black" = ["red", "\"Attic ware\"", "5\\:1", "\"black\""] ∧
    (tokenize "red \"Attic  ware\" 5:1\"black").flatMap wordsOf
      = ["red", "Attic", "ware", "5:1", "black"] := by decide +kernel

end FacetSearch.Term
