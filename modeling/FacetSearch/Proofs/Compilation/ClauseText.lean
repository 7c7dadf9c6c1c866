import FacetSearch.Compilation.Compiler
import FacetSearch.Proofs.Compilation.Trail
import FacetSearch.Proofs.Text.Cutting
import Mathlib

set_option autoImplicit false

/-! # Clauses told apart by their texts

Clauses that read the same are kept once, so a clause must not read like another one that means
something else. Two things keep them apart. Read with backslashes taking the next character, an atomic
clause never ends in a closing parenthesis, except for the pair of clauses of an identifier, while a
choice between groups always does. And a choice opens with the field of its parameter, which no other
parameter has. The mark of related records stands in the middle of both and may be any text. -/

namespace FacetSearch

/-! ## Ends of texts -/

/-- What stands at the end of a text. -/
inductive Ending where
  | plain
  /-- A backslash that takes the next character. -/
  | escape
  /-- A closing parenthesis that no backslash takes. -/
  | close
deriving DecidableEq, Repr

namespace Ending

def next : Ending → Char → Ending
  | escape, _ => plain
  | _, c => if c = '\\' then escape else if c = ')' then close else plain

/-- The end of `text` behind an end. -/
def after (e : Ending) (text : String) : Ending := text.toList.foldl next e

theorem after_append (e : Ending) (a b : String) : e.after (a ++ b) = (e.after a).after b := by
  simp [after, List.foldl_append]

@[simp] theorem after_bracket (e : Ending) (a : String) : e.after (a ++ "]") = plain := by
  rw [after_append]
  cases e.after a <;> rfl

@[simp] theorem after_star (e : Ending) (a : String) : e.after (a ++ "*") = plain := by
  rw [after_append]
  cases e.after a <;> rfl

@[simp] theorem after_colon (e : Ending) (a : String) : e.after (a ++ ":") = plain := by
  rw [after_append]
  cases e.after a <;> rfl

/-- An escaped word ends as plainly as what stands before it. -/
theorem after_escape (word : String) : plain.after (Term.escape word) = plain := by
  unfold after Term.escape
  rw [String.toList_ofList]
  generalize word.toList = chars
  induction chars with
  | nil => rfl
  | cons c rest ih =>
      rw [Term.escapeChars, List.flatMap_cons, List.foldl_append]
      -- backslashes and parentheses are special, so each has a backslash of its own in front
      have hc : (if Term.isSpecial c = true then ['\\', c] else [c]).foldl next plain = plain := by
        by_cases hs : Term.isSpecial c = true
        · rw [if_pos hs]
          rfl
        · rw [if_neg hs]
          have hb : c ≠ '\\' := by
            rintro rfl
            exact hs (by decide)
          have hp : c ≠ ')' := by
            rintro rfl
            exact hs (by decide)
          simp [next, hb, hp]
      rw [hc]
      exact ih

theorem after_quote (e : Ending) (phrase : String) : e.after (Term.quote phrase) = plain := by
  unfold after Term.quote
  rw [String.toList_ofList, List.foldl_append]
  generalize ('"' :: Term.phraseChars phrase.toList).foldl next e = middle
  cases middle <;> rfl

/-- What holds behind each of some texts holds behind all of them together. -/
theorem after_intercalate {P : Ending → Prop} {separator : String} {texts : List String}
    (hne : texts ≠ []) (h : ∀ text ∈ texts, ∀ e : Ending, P (e.after text)) (e : Ending) :
    P (e.after (separator.intercalate texts)) := by
  induction texts generalizing e with
  | nil => exact absurd rfl hne
  | cons text rest ih =>
      cases rest with
      | nil => simpa using h text (List.mem_cons_self ..) e
      | cons next rest =>
          rw [String.intercalate_cons_cons, after_append]
          exact ih (by simp) (fun t ht => h t (List.mem_cons_of_mem _ ht)) _

end Ending

/-! ## Atomic clauses -/

/-- The text of an atomic clause: it ends plainly, or it is the pair of clauses of an identifier. -/
def IsAtom (text : String) : Prop :=
  (∀ e : Ending, e.after text = .plain) ∨
    ((∀ e : Ending, e.after text = .close) ∧ "(u".toList <+: text.toList)

theorem IsAtom.after_ne_escape {text : String} (h : IsAtom text) (e : Ending) :
    e.after text ≠ .escape := by
  rcases h with h | ⟨h, -⟩ <;> simp [h e]

theorem isAtom_levelText (level : FieldPath × Entity) : IsAtom (Compiler.levelText level) := by
  refine .inl ?_
  intro e
  rw [Compiler.levelText, Ending.after_append, Ending.after_colon, Ending.after_escape]

theorem after_of_mem_tokenize {text term : String} (h : term ∈ Term.tokenize text) :
    Ending.plain.after term = .plain := by
  unfold Term.tokenize at h
  generalize (text.toList.splitOn '"').map String.ofList = parts at h
  generalize false = inside at h
  induction parts generalizing inside with
  | nil => simp [Term.termsOf] at h
  | cons part rest ih =>
      simp only [Term.termsOf, List.mem_append] at h
      rcases h with h | h
      · cases inside with
        | false =>
            obtain ⟨word, -, rfl⟩ := List.mem_map.1 h
            exact Ending.after_escape word
        | true =>
            have h : term ∈ Term.phraseTerms (Text.words part) := h
            unfold Term.phraseTerms at h
            split at h
            · simp at h
            · obtain rfl := List.mem_singleton.1 h
              exact Ending.after_quote _ _
      · exact ih _ h

theorem isAtom_of_mem_valueTexts {c : Compiler} {t : Trail} {text : String}
    (h : text ∈ c.valueTexts t) : IsAtom text := by
  refine .inl ?_
  intro e
  unfold Compiler.valueTexts at h
  split at h
  · obtain ⟨term, hterm, rfl⟩ := List.mem_map.1 h
    rw [Ending.after_append, Ending.after_colon]
    cases hv : t.value with
    | none => simp [hv] at hterm
    | some raw => exact after_of_mem_tokenize (by simpa [hv] using hterm)
  · split at h
    · simp only [Compiler.rangeText, Option.mem_toList, Option.map_eq_some_iff] at h
      obtain ⟨ends, -, rfl⟩ := h
      exact Ending.after_bracket _ _
    · simp at h
  · simp at h

theorem isAtom_of_mem_texts {c : Compiler} {t : Trail} {text : String} (h : text ∈ c.texts t) :
    IsAtom text := by
  rcases List.mem_append.1 h with h | h
  · obtain ⟨level, -, rfl⟩ := List.mem_map.1 h
    exact isAtom_levelText level
  · exact isAtom_of_mem_valueTexts h

theorem isAtom_itemType (type : ItemType) : IsAtom (Field.itemType ++ ":" ++ type.token) := by
  refine .inl ?_
  intro e
  rw [Ending.after_append, Ending.after_colon]
  cases type <;> rfl

theorem isAtom_identifierClause (name : String) : IsAtom (Compiler.identifierClause name) := by
  refine .inr ⟨fun e => ?_, ?_⟩
  · rw [Compiler.identifierClause, Ending.after_append, Ending.after_append, Ending.after_quote]
    rfl
  · simp only [Compiler.identifierClause, String.toList_append, List.append_assoc]
    exact ⟨_, rfl⟩

theorem isAtom_tileClause (space : TileSpace) (path : String) :
    IsAtom (Compiler.tileClause space path) :=
  .inl fun e => Ending.after_star e _

theorem isAtom_yearClause (bound : YearBound) (year : Int) :
    IsAtom (Compiler.yearClause bound year) := by
  refine .inl ?_
  intro e
  cases bound with
  | since =>
      rw [Compiler.yearClause, Ending.after_append]
      generalize e.after _ = middle
      cases middle <;> rfl
  | «until» => exact Ending.after_bracket e _

theorem isAtom_nothing : IsAtom Clause.nothing.text := .inl fun e => by cases e <;> rfl

/-! ## Choices -/

/-- The parameters whose values narrow the result by a choice. -/
def choosers : List Parameter :=
  [.levels .context, .levels .predicate, .levels .project, .itemType, .identifier, .tile .chrono,
    .tile .geo, .year .since, .year .until]

theorem mem_choosers_levels (family : FieldFamily) : .levels family ∈ choosers := by
  cases family <;> simp [choosers]

theorem mem_choosers_tile (space : TileSpace) : .tile space ∈ choosers := by
  cases space <;> simp [choosers]

theorem mem_choosers_year (bound : YearBound) : .year bound ∈ choosers := by
  cases bound <;> simp [choosers]

/-- What every clause of a parameter's first level begins with. -/
def Parameter.opening : Parameter → String
  | levels family => (FieldPath.root family).name ++ ":"
  | itemType => Field.itemType ++ ":"
  | identifier => "(" ++ Field.uuid ++ ":"
  | tile space => Compiler.tileField space ++ ":"
  | year .since => Field.chronoLatest ++ ":["
  | year .until => Field.chronoEarliest ++ ":["
  | _ => ""

namespace Clause

/-- A clause that has the form of a parameter's choice between several groups. -/
def IsChoiceOf (p : Parameter) (c : Clause) : Prop :=
  ("(" ++ p.opening).toList <+: c.text.toList ∧ Ending.plain.after c.text = .close

theorem after_groupText {group : List String} (hne : group ≠ []) (h : ∀ text ∈ group, IsAtom text)
    (e : Ending) : e.after (groupText group) = .close := by
  have hinner : ∀ e : Ending, e.after (" AND ".intercalate group) ≠ .escape :=
    Ending.after_intercalate (P := (· ≠ .escape)) hne fun text ht e => (h text ht).after_ne_escape e
  rw [groupText, Ending.after_append, Ending.after_append]
  -- no backslash is left over inside that could take the closing parenthesis
  generalize hm : (e.after "(").after (" AND ".intercalate group) = middle
  have hmiddle : middle ≠ .escape := hm ▸ hinner _
  cases middle <;> first | rfl | exact absurd rfl hmiddle

/-- A choice between groups that begin as the parameter's first level does. -/
theorem isChoiceOf_anyOf {p : Parameter} {groups : List (List String)} (hne : groups ≠ [])
    (hatoms : ∀ group ∈ groups, ∀ text ∈ group, IsAtom text)
    (hopen : ∀ group ∈ groups, ∃ text rest, group = text :: rest ∧
      p.opening.toList <+: text.toList) :
    IsChoiceOf p (.anyOf groups) := by
  constructor
  · cases groups with
    | nil => exact absurd rfl hne
    | cons group others =>
        obtain ⟨text, rest, rfl, hhead⟩ := hopen group (List.mem_cons_self ..)
        have hfirst := hhead.trans (Text.prefix_intercalate " AND " text rest)
        have hgroup : ("(" ++ p.opening).toList <+: (groupText (text :: rest)).toList := by
          simp only [groupText, String.toList_append]
          exact ((List.prefix_append_right_inj _).2 hfirst).trans (List.prefix_append _ _)
        exact hgroup.trans (Text.prefix_intercalate " OR " _ _)
  · have hne' : groups.map groupText ≠ [] := by simpa using hne
    refine Ending.after_intercalate (P := (· = .close)) hne' (fun text ht e => ?_) _
    obtain ⟨group, hg, rfl⟩ := List.mem_map.1 ht
    obtain ⟨first, rest, rfl, -⟩ := hopen group hg
    exact after_groupText (by simp) (hatoms _ hg) e

/-- No two parameters open alike, and none like the pair of an identifier. -/
theorem openings_differ :
    ∀ p ∈ choosers, ¬("(u".toList <+: ("(" ++ p.opening).toList) ∧
      ¬(("(" ++ p.opening).toList <+: "(u".toList) ∧
      ∀ p' ∈ choosers, p ≠ p' → ¬(("(" ++ p.opening).toList <+: ("(" ++ p'.opening).toList) := by
  decide +kernel

theorem text_ne_of_isAtom {p : Parameter} {c : Clause} {text : String} (hp : p ∈ choosers)
    (hc : IsChoiceOf p c) (htext : IsAtom text) : text ≠ c.text := by
  rintro rfl
  -- an atomic clause ends plainly, or it opens as no choice does
  rcases htext with h | ⟨-, hu⟩
  · exact absurd (hc.2.symm.trans (h .plain)) (by simp)
  · rcases List.prefix_or_prefix_of_prefix hu hc.1 with h | h
    · exact (openings_differ p hp).1 h
    · exact (openings_differ p hp).2.1 h

theorem text_ne_of_isChoiceOf {p p' : Parameter} {c c' : Clause} (hp : p ∈ choosers)
    (hp' : p' ∈ choosers) (hne : p ≠ p') (hc : IsChoiceOf p c) (hc' : IsChoiceOf p' c') :
    c.text ≠ c'.text := by
  intro he
  rcases List.prefix_or_prefix_of_prefix hc.1 (he ▸ hc'.1) with h | h
  · exact (openings_differ p hp).2.2 p' hp' hne h
  · exact (openings_differ p' hp').2.2 p hp (Ne.symm hne) h

end Clause

end FacetSearch
