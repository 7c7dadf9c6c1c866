import FacetSearch.Proofs.Json.Scalars

set_option autoImplicit false

/-! # JSON values that are read back

A value without white space between its parts is read back from its text (`parse?_compact`), as long as
its numbers are, all of it can be held and it is not nested too deeply (`Printable`). The induction goes
through what a value reads as in front of any text that may follow a value (`Reads`), with one lemma for
each kind of value and one step for each item or member of a list. -/

namespace FacetSearch.Json

/-! ## Texts -/

theorem compactItems_eq (items : List Json) : compactItems items = items.map compact := by
  induction items with
  | nil => rfl
  | cons item rest ih => rw [compactItems, ih, List.map_cons]

/-- The text of an item of a list. -/
def itemText (item : Json) : List Char := item.compact.toList

/-- The text of a member of an object. -/
def memberText (member : String × Json) : List Char :=
  (quoted member.1).toList ++ ':' :: member.2.compact.toList

theorem toList_compact_array (items : List Json) :
    (compact (.array items)).toList = '[' :: ([','].intercalate (items.map itemText) ++ [']']) := by
  rw [compact, compactItems_eq, String.toList_append, String.toList_append,
    String.toList_intercalate, List.map_map]
  rfl

theorem map_toList_compactMembers (members : List (String × Json)) :
    (compactMembers members).map String.toList = members.map memberText := by
  induction members with
  | nil => rfl
  | cons member rest ih =>
      obtain ⟨name, value⟩ := member
      rw [compactMembers, List.map_cons, List.map_cons, ih, String.toList_append,
        String.toList_append, List.append_assoc]
      rfl

theorem toList_compact_object (members : List (String × Json)) :
    (compact (.object members)).toList
      = '\x7b' :: ([','].intercalate (members.map memberText) ++ ['\x7d']) := by
  rw [compact, String.toList_append, String.toList_append, String.toList_intercalate,
    map_toList_compactMembers]
  rfl

theorem toList_quoted (text : String) :
    (quoted text).toList = '"' :: (text.toList.flatMap quotedChar ++ ['"']) := by
  rw [quoted, String.toList_ofList, List.cons_append]

/-! ## Single values -/

section

variable {fuel levels : Nat} {text more rest : List Char}

theorem readValue_null (fuel levels : Nat) (rest : List Char) :
    readValue (fuel + 1) levels ("null".toList ++ rest) = some (.null, rest) := by
  unfold readValue
  rfl

theorem readValue_bool (fuel levels : Nat) (b : Bool) (rest : List Char) :
    readValue (fuel + 1) levels ((compact (.bool b)).toList ++ rest) = some (.bool b, rest) := by
  unfold readValue
  cases b <;> rfl

theorem readValue_string (fuel levels : Nat) (text : String) (rest : List Char) :
    readValue (fuel + 1) levels ((quoted text).toList ++ rest) = some (.string text, rest) := by
  rw [toList_quoted, List.cons_append, List.append_assoc, List.singleton_append]
  have hskip : skipSpace ('"' :: (text.toList.flatMap quotedChar ++ '"' :: rest))
      = '"' :: (text.toList.flatMap quotedChar ++ '"' :: rest) := rfl
  unfold readValue
  rw [hskip]
  simp only [readString_quoted]
  rfl

theorem readValue_number {n : Numeral} (h : ReadsBack n) (hrest : Ends rest) :
    readValue (fuel + 1) levels ((Numeral.text n).toList ++ rest) = some (.number n, rest) := by
  have hread : readNumber ((Numeral.text n).toList ++ rest) = some (n, rest) := by
    rw [readNumber_append hrest, h]
    rfl
  have hnumeral : ofNumeral n = .number n := by
    cases n with
    | integer z => rfl
    | real x => rw [ofNumeral, if_pos (isFinite_of_readsBack h)]
  obtain ⟨c, digits, htext, hc⟩ := exists_cons_of_readNumber hread
  rw [htext] at hread ⊢
  -- no other value begins like a number, and no white space does
  have hother : ∀ d, ¬ (d = '-' ∨ Decimal.isDigit d = true) → c ≠ d := by
    rintro d hd rfl
    exact hd hc
  have hskip : skipSpace (c :: digits) = c :: digits :=
    List.dropWhile_cons_of_neg (by
      simp [isSpace, hother ' ' (by decide), hother '\n' (by decide), hother '\t' (by decide),
        hother '\r' (by decide)])
  unfold readValue
  simp [hskip, hother 'n' (by decide), hother 't' (by decide), hother 'f' (by decide),
    hother '"' (by decide), hother '[' (by decide), hother '\x7b' (by decide), hread, hnumeral]

/-! ## Arrays -/

theorem readValue_skipSpace (fuel levels : Nat) (text : List Char) :
    readValue fuel levels (skipSpace text) = readValue fuel levels text := by
  have hskip : skipSpace (skipSpace text) = skipSpace text := List.dropWhile_idempotent _ _
  cases fuel with
  | zero => simp only [readValue]
  | succ fuel => rw [readValue, readValue, hskip]

theorem readItems_skipSpace (fuel levels : Nat) (text : List Char) :
    readItems fuel levels (skipSpace text) = readItems fuel levels text := by
  cases fuel with
  | zero => simp only [readItems]
  | succ fuel => rw [readItems, readItems, readValue_skipSpace]

/-- No item begins with a closing bracket. -/
theorem readItems_closing (fuel levels : Nat) (text : List Char) :
    readItems fuel levels (']' :: text) = none := by
  have hvalue : ∀ fuel, readValue fuel levels (']' :: text) = none := by
    intro fuel
    have hskip : skipSpace (']' :: text) = ']' :: text := rfl
    have hnumber : readNumber (']' :: text) = none := rfl
    cases fuel with
    | zero => simp only [readValue]
    | succ fuel => simp [readValue, hskip, hnumber]
  cases fuel with
  | zero => simp only [readItems]
  | succ fuel =>
      rw [readItems, hvalue]
      rfl

theorem readItems_last {item : Json} (h : readValue fuel levels text = some (item, ']' :: rest)) :
    readItems (fuel + 1) levels text = some ([item], rest) := by
  rw [readItems, h]
  rfl

theorem readItems_cons {item : Json} {items : List Json}
    (h : readValue fuel levels text = some (item, ',' :: more))
    (hmore : readItems fuel levels more = some (items, rest)) :
    readItems (fuel + 1) levels text = some (item :: items, rest) := by
  have hskip : skipSpace (',' :: more) = ',' :: more := rfl
  rw [readItems, h]
  simp only [Option.bind_eq_bind, Option.bind_some, hskip, hmore]

theorem readValue_array {items : List Json} (h : readItems fuel levels text = some (items, rest)) :
    readValue (fuel + 1) (levels + 1) ('[' :: text) = some (.array items, rest) := by
  have hskip : skipSpace ('[' :: text) = '[' :: text := rfl
  rw [← readItems_skipSpace] at h
  have hopen : ∀ more, skipSpace text ≠ ']' :: more := by
    intro more hclosed
    rw [hclosed, readItems_closing] at h
    exact absurd h (by simp)
  rcases htext : skipSpace text with _ | ⟨c, more⟩
  · rw [htext] at h
    simp [readValue, hskip, htext, h, within]
  · have hc : c ≠ ']' := by
      rintro rfl
      exact hopen more htext
    rw [htext] at h
    simp [readValue, hskip, htext, hc, h, within]

/-! ## Objects -/

theorem readMembers_last {name : String} {value : Json}
    (h : readValue fuel levels text = some (value, '\x7d' :: rest)) :
    readMembers (fuel + 1) levels ((quoted name).toList ++ ':' :: text)
      = some (some [(name, value)], rest) := by
  have hname : ∀ behind, skipSpace ('"' :: behind) = '"' :: behind := fun _ => rfl
  have hcolon : skipSpace (':' :: text) = ':' :: text := rfl
  have hclose : skipSpace ('\x7d' :: rest) = '\x7d' :: rest := rfl
  rw [toList_quoted, List.cons_append, List.append_assoc, List.singleton_append]
  simp only [readMembers, hname, readString_quoted, Option.bind_eq_bind, Option.bind_some, hcolon, h,
    hclose, Option.map_some]

theorem readMembers_cons {name : String} {value : Json} {members : List (String × Json)}
    (h : readValue fuel levels text = some (value, ',' :: more))
    (hmore : readMembers fuel levels more = some (some members, rest)) :
    readMembers (fuel + 1) levels ((quoted name).toList ++ ':' :: text)
      = some (some ((name, value) :: members), rest) := by
  have hname : ∀ behind, skipSpace ('"' :: behind) = '"' :: behind := fun _ => rfl
  have hcolon : skipSpace (':' :: text) = ':' :: text := rfl
  have hcomma : skipSpace (',' :: more) = ',' :: more := rfl
  rw [toList_quoted, List.cons_append, List.append_assoc, List.singleton_append]
  simp only [readMembers, hname, readString_quoted, Option.bind_eq_bind, Option.bind_some, hcolon, h,
    hcomma, hmore, Option.map_some]

/-- The text of members begins with the quote of a name, so it does not close the object. -/
theorem readValue_object {members : List (String × Json)}
    (h : readMembers fuel levels ('"' :: text) = some (some members, rest)) :
    readValue (fuel + 1) (levels + 1) ('\x7b' :: '"' :: text) = some (.object members, rest) := by
  have hskip : skipSpace ('\x7b' :: '"' :: text) = '\x7b' :: '"' :: text := rfl
  have hname : skipSpace ('"' :: text) = '"' :: text := rfl
  simp [readValue, hskip, hname, h, within, ofMembers]

end

/-! ## Values within values -/

/-- The value is read from its text, whatever may follow a value behind it. -/
def Reads (levels : Nat) (value : Json) : Prop :=
  ∀ fuel rest, value.compact.toList.length ≤ fuel → Ends rest →
    readValue (fuel + 1) levels (value.compact.toList ++ rest) = some (value, rest)

theorem Reads.read {levels fuel : Nat} {value : Json} {rest : List Char} (h : Reads levels value)
    (hfuel : value.compact.toList.length < fuel) (hrest : Ends rest) :
    readValue fuel levels (value.compact.toList ++ rest) = some (value, rest) := by
  obtain ⟨fuel, rfl⟩ := Nat.exists_eq_succ_of_ne_zero (Nat.ne_zero_of_lt hfuel)
  exact h fuel rest (Nat.le_of_lt_succ hfuel) hrest

theorem readItems_intercalate {levels : Nat} {items : List Json} (hne : items ≠ [])
    (h : ∀ item ∈ items, Reads levels item) {fuel : Nat} (rest : List Char)
    (hfuel : ([','].intercalate (items.map itemText)).length + 1 < fuel) :
    readItems fuel levels ([','].intercalate (items.map itemText) ++ ']' :: rest)
      = some (items, rest) := by
  induction items generalizing fuel with
  | nil => exact absurd rfl hne
  | cons item items ih =>
      obtain ⟨fuel, rfl⟩ := Nat.exists_eq_succ_of_ne_zero (Nat.ne_zero_of_lt hfuel)
      obtain ⟨hitem, hitems⟩ := List.forall_mem_cons.1 h
      cases items with
      | nil =>
          rw [List.map_cons, List.map_nil, List.intercalate_singleton] at hfuel ⊢
          exact readItems_last (hitem.read (Nat.lt_of_succ_lt_succ hfuel) (by simp [Ends]))
      | cons next items =>
          rw [List.map_cons, List.map_cons, List.intercalate_cons_cons, ← List.map_cons,
            itemText] at hfuel ⊢
          simp only [List.length_append, List.length_cons] at hfuel
          rw [List.append_assoc, List.append_assoc, List.singleton_append]
          exact readItems_cons (hitem.read (by omega) (by simp [Ends]))
            (ih (by simp) hitems (by omega))

theorem readMembers_intercalate {levels : Nat} {members : List (String × Json)} (hne : members ≠ [])
    (h : ∀ member ∈ members, Reads levels member.2) {fuel : Nat} (rest : List Char)
    (hfuel : ([','].intercalate (members.map memberText)).length + 1 < fuel) :
    readMembers fuel levels ([','].intercalate (members.map memberText) ++ '\x7d' :: rest)
      = some (some members, rest) := by
  induction members generalizing fuel with
  | nil => exact absurd rfl hne
  | cons member members ih =>
      obtain ⟨name, value⟩ := member
      obtain ⟨fuel, rfl⟩ := Nat.exists_eq_succ_of_ne_zero (Nat.ne_zero_of_lt hfuel)
      obtain ⟨hvalue, hmembers⟩ := List.forall_mem_cons.1 h
      dsimp only at hvalue
      cases members with
      | nil =>
          rw [List.map_cons, List.map_nil, List.intercalate_singleton, memberText] at hfuel ⊢
          simp only [List.length_append, List.length_cons] at hfuel
          rw [List.append_assoc, List.cons_append]
          exact readMembers_last (hvalue.read (by omega) (by simp [Ends]))
      | cons next members =>
          rw [List.map_cons, List.map_cons, List.intercalate_cons_cons, ← List.map_cons,
            memberText] at hfuel ⊢
          simp only [List.length_append, List.length_cons] at hfuel
          rw [List.append_assoc, List.append_assoc, List.singleton_append, List.append_assoc,
            List.cons_append]
          exact readMembers_cons (hvalue.read (by omega) (by simp [Ends]))
            (ih (by simp) hmembers (by omega))

theorem exists_intercalate_memberText (member : String × Json) (members : List (String × Json)) :
    ∃ text, [','].intercalate ((member :: members).map memberText) = '"' :: text := by
  have hmember : ∃ text, memberText member = '"' :: text := by
    rw [memberText, toList_quoted]
    exact ⟨_, rfl⟩
  obtain ⟨text, htext⟩ := hmember
  cases members with
  | nil => exact ⟨text, by rw [List.map_cons, List.map_nil, List.intercalate_singleton, htext]⟩
  | cons next members =>
      rw [List.map_cons, List.map_cons, List.intercalate_cons_cons, htext]
      exact ⟨_, rfl⟩

/-- A value that a text can say: its numbers are read back, all of it can be held, and it has no more
    than so many levels of nesting. -/
inductive Printable : Nat → Json → Prop
  | null (levels : Nat) : Printable levels .null
  | bool (levels : Nat) (b : Bool) : Printable levels (.bool b)
  | number (levels : Nat) {n : Numeral} (h : ReadsBack n) : Printable levels (.number n)
  | string (levels : Nat) (text : String) : Printable levels (.string text)
  | array {levels : Nat} {items : List Json} (h : ∀ item ∈ items, Printable levels item) :
      Printable (levels + 1) (.array items)
  | object {levels : Nat} {members : List (String × Json)}
      (h : ∀ member ∈ members, Printable levels member.2) : Printable (levels + 1) (.object members)

theorem Printable.reads {levels : Nat} {value : Json} (h : Printable levels value) :
    Reads levels value := by
  induction h with
  | null levels => exact fun fuel rest _ _ => readValue_null fuel levels rest
  | bool levels b => exact fun fuel rest _ _ => readValue_bool fuel levels b rest
  | number levels hn => exact fun fuel rest _ hrest => readValue_number hn hrest
  | string levels text => exact fun fuel rest _ _ => readValue_string fuel levels text rest
  | @array levels items _ ih =>
      intro fuel rest hfuel hrest
      rw [toList_compact_array] at hfuel ⊢
      simp only [List.length_append, List.length_cons] at hfuel
      rw [List.cons_append, List.append_assoc, List.singleton_append]
      cases items with
      | nil => simp [readValue, skipSpace, isSpace, within]
      | cons item items =>
          exact readValue_array (readItems_intercalate (by simp) ih rest (by omega))
  | @object levels members _ ih =>
      intro fuel rest hfuel hrest
      rw [toList_compact_object] at hfuel ⊢
      simp only [List.length_append, List.length_cons] at hfuel
      rw [List.cons_append, List.append_assoc, List.singleton_append]
      cases members with
      | nil => simp [readValue, skipSpace, isSpace, within]
      | cons member members =>
          obtain ⟨text, htext⟩ := exists_intercalate_memberText member members
          have hfuel' : ([','].intercalate ((member :: members).map memberText)).length + 1 < fuel := by
            omega
          have hread := readMembers_intercalate (by simp) ih rest hfuel'
          rw [htext, List.cons_append] at hread ⊢
          exact readValue_object hread

/-- **A printable value is read back from its text.** -/
theorem parse?_compact {value : Json} (h : Printable maxNesting value) :
    parse? value.compact = some value := by
  have hread := h.reads (2 * value.compact.toList.length + 1) [] (by omega) ends_nil
  rw [List.append_nil] at hread
  simp only [parse?, hread]
  rfl

end FacetSearch.Json
