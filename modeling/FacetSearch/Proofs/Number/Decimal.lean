import FacetSearch.Number.Decimal
import FacetSearch.Proofs.Number.Binary64
import FacetSearch.Proofs.Text.Cutting
import Mathlib

set_option autoImplicit false

/-! # The form of decimal texts

What a text looks like that is read as a binary64 number: a sign, if any, and then a name, or digits with
a point and an exponent (`IsNumeral`). So it has few characters, and a dash in it is a sign: it stands at
the front, where it makes the number negative (`isNegative_of_binary64?`), or right behind the letter of
the exponent (`IsNumeral.front_of_dash`). -/

namespace FacetSearch.Decimal

/-! ## Forms -/

/-- A sign, or none. -/
def IsSign (text : List Char) : Prop := text = [] ∨ text = ['+'] ∨ text = ['-']

/-- An exponent, or none. -/
def IsExponent (text : List Char) : Prop :=
  text = [] ∨ ∃ letter sign digits, text = letter :: (sign ++ digits) ∧
    (letter = 'e' ∨ letter = 'E') ∧ IsSign sign ∧ ∀ c ∈ digits, isDigit c = true

/-- The names of the numbers without digits, in lower case. -/
def names : List (List Char) :=
  [['i', 'n', 'f'], ['i', 'n', 'f', 'i', 'n', 'i', 't', 'y'], ['n', 'a', 'n']]

/-- A sign, and then a name, or digits with a point and an exponent. -/
inductive IsNumeral : List Char → Prop where
  | name {sign body : List Char} (hsign : IsSign sign)
    (hbody : body.map Char.toLower ∈ names) : IsNumeral (sign ++ body)
  | digits {sign mantissa exponent : List Char} (hsign : IsSign sign)
    (hmantissa : ∀ c ∈ mantissa, isDigit c = true ∨ c = '.') (hexponent : IsExponent exponent) :
    IsNumeral (sign ++ (mantissa ++ exponent))

theorem exists_isSign_of_leadingSign (text : List Char) :
    ∃ sign, IsSign sign ∧ text = sign ++ (leadingSign text).2 := by
  unfold leadingSign
  split
  · exact ⟨['+'], .inr (.inl rfl), rfl⟩
  · exact ⟨['-'], .inr (.inr rfl), rfl⟩
  · exact ⟨[], .inl rfl, rfl⟩

theorem isDigit_of_natChars? {text : List Char} {n : Nat} (h : natChars? text = some n) :
    ∀ c ∈ text, isDigit c = true := by
  unfold natChars? at h
  split at h
  · exact absurd h (by simp)
  · next hdigits =>
    rw [Bool.or_eq_true, not_or, Bool.not_eq_true', Bool.not_eq_false] at hdigits
    exact List.all_eq_true.1 hdigits.2

theorem isExponent_of_exponent? {text : List Char} {z : Int} (h : exponent? text = some z) :
    IsExponent text := by
  cases text with
  | nil => exact .inl rfl
  | cons c rest =>
      rw [exponent?] at h
      split at h
      · next hletter =>
        obtain ⟨sign, hsign, hrest⟩ := exists_isSign_of_leadingSign rest
        refine .inr ⟨c, sign, _, congrArg (c :: ·) hrest, hletter, hsign, ?_⟩
        cases hn : natChars? (leadingSign rest).2 with
        | none => exact absurd h (by simp [hn])
        | some n => exact isDigit_of_natChars? hn
      · exact absurd h (by simp)

/-- The digits of a number, its point among them, and its exponent; they are scaled under the sign. -/
theorem exists_mantissa_of_unsigned? {negative : Bool} {text : List Char} {x : Binary64}
    (h : unsigned? negative text = some x) :
    (∃ mantissa exponent, text = mantissa ++ exponent ∧
      (∀ c ∈ mantissa, isDigit c = true ∨ c = '.') ∧ IsExponent exponent) ∧
    ∃ digits places, x = scaled negative digits places := by
  have hwhole : ∀ text : List Char, ∀ c ∈ text.takeWhile isDigit, isDigit c = true ∨ c = '.' :=
    fun text c hc => .inl (List.mem_takeWhile_imp hc)
  have htext : text.takeWhile isDigit ++ (leadingDigits text).2 = text :=
    List.takeWhile_append_dropWhile
  rw [unsigned?] at h
  dsimp only at h
  split at h
  · next rest hpoint =>
    split at h
    · exact absurd h (by simp)
    · obtain ⟨z, hz, hx⟩ := Option.map_eq_some_iff.1 h
      refine ⟨⟨text.takeWhile isDigit ++ '.' :: rest.takeWhile isDigit, _, ?_, ?_,
        isExponent_of_exponent? hz⟩, _, _, hx.symm⟩
      · rw [List.append_assoc, List.cons_append, leadingDigits, List.takeWhile_append_dropWhile,
          ← hpoint, htext]
      · intro c hc
        rcases List.mem_append.1 hc with hc | hc
        · exact hwhole _ c hc
        · exact (List.mem_cons.1 hc).elim .inr (hwhole _ c)
  · split at h
    · exact absurd h (by simp)
    · obtain ⟨z, hz, hx⟩ := Option.map_eq_some_iff.1 h
      exact ⟨⟨_, _, htext.symm, hwhole _, isExponent_of_exponent? hz⟩, _, _, hx.symm⟩

/-- **What is read as a binary64 number has the form of one.** -/
theorem isNumeral_of_binary64? {text : String} {x : Binary64} (h : binary64? text = some x) :
    IsNumeral text.toList := by
  obtain ⟨sign, hsign, htext⟩ := exists_isSign_of_leadingSign text.toList
  rw [htext]
  have hname {name : String} (hlower : (String.ofList (leadingSign text.toList).2).toLower = name) :
      (leadingSign text.toList).2.map Char.toLower = name.toList := by
    rw [← hlower, String.toLower, String.toList_map, String.toList_ofList]
  simp only [binary64?] at h
  split at h
  · next hinfinite =>
    refine .name hsign ?_
    rcases hinfinite with hinfinite | hinfinite
    · rw [hname hinfinite]
      decide
    · rw [hname hinfinite]
      decide
  · split at h
    · next hnan =>
      refine .name hsign ?_
      rw [hname hnan]
      decide
    · obtain ⟨⟨mantissa, exponent, hbody, hmantissa, hexponent⟩, -⟩ := exists_mantissa_of_unsigned? h
      rw [hbody]
      exact .digits hsign hmantissa hexponent

/-! ## Characters -/

/-- The characters of decimal texts, in lower case. -/
def numeralChars : List Char :=
  ['0', '1', '2', '3', '4', '5', '6', '7', '8', '9', '.', '+', '-', 'e', 'i', 'n', 'f', 't', 'y', 'a']

theorem toLower_mem_of_isDigit {c : Char} (h : isDigit c = true) : c.toLower ∈ numeralChars := by
  have hrange : '0' ≤ c ∧ c ≤ '9' := by
    by_contra hno
    rw [isDigit, digit?, if_neg hno] at h
    exact absurd h (by simp)
  obtain ⟨hlo, hhi⟩ : 48 ≤ c.toNat ∧ c.toNat ≤ 57 := hrange
  rw [← Char.ofNat_toNat c]
  generalize c.toNat = n at hlo hhi
  interval_cases n <;> decide

theorem IsSign.toLower_mem {sign : List Char} (h : IsSign sign) :
    ∀ c ∈ sign, c.toLower ∈ numeralChars := by
  intro c hc
  rcases h with rfl | rfl | rfl
  · exact absurd hc (by simp)
  · rw [List.mem_singleton.1 hc]
    decide
  · rw [List.mem_singleton.1 hc]
    decide

theorem IsExponent.toLower_mem {text : List Char} (h : IsExponent text) :
    ∀ c ∈ text, c.toLower ∈ numeralChars := by
  rcases h with rfl | ⟨letter, sign, digits, rfl, hletter, hsign, hdigits⟩
  · simp
  · intro c hc
    rcases List.mem_cons.1 hc with rfl | hc
    · rcases hletter with rfl | rfl <;> decide
    · rcases List.mem_append.1 hc with hc | hc
      · exact hsign.toLower_mem c hc
      · exact toLower_mem_of_isDigit (hdigits c hc)

theorem IsNumeral.toLower_mem {text : List Char} (h : IsNumeral text) :
    ∀ c ∈ text, c.toLower ∈ numeralChars := by
  intro c hc
  cases h with
  | @name sign body hsign hbody =>
      rcases List.mem_append.1 hc with hc | hc
      · exact hsign.toLower_mem c hc
      · have hnames : ∀ name ∈ names,
            ∀ d ∈ name, d ∈ numeralChars := by
          simp [names, numeralChars]
        exact hnames _ hbody _ (List.mem_map_of_mem hc)
  | digits hsign hmantissa hexponent =>
      rcases List.mem_append.1 hc with hc | hc
      · exact hsign.toLower_mem c hc
      · rcases List.mem_append.1 hc with hc | hc
        · rcases hmantissa c hc with hdigit | rfl
          · exact toLower_mem_of_isDigit hdigit
          · decide
        · exact hexponent.toLower_mem c hc

/-! ## Dashes -/

theorem ne_dash_of_isDigit {c : Char} (h : isDigit c = true) : c ≠ '-' := by
  rintro rfl
  exact absurd h (by decide)

/-- **In front of the first dash of a number stands nothing, or the letter of the exponent.** -/
theorem IsNumeral.front_of_dash {text front back : List Char} (h : IsNumeral text)
    (htext : text = front ++ '-' :: back) (hfront : '-' ∉ front) :
    front = [] ∨ ∃ letter, front.getLast? = some letter ∧ (letter = 'e' ∨ letter = 'E') := by
  -- a sign that is a dash is the first one, and no other sign holds one
  have hsigned : ∀ sign body : List Char, IsSign sign → text = sign ++ body → '-' ∉ sign ∨ front = [] := by
    rintro sign body (rfl | rfl | rfl) hbody
    · exact .inl (by simp)
    · exact .inl (by decide)
    · refine .inr ?_
      cases front with
      | nil => rfl
      | cons c front =>
          have hhead := congrArg List.head? (htext.symm.trans hbody)
          obtain rfl : c = '-' := by simpa using hhead
          exact absurd (List.mem_cons_self ..) hfront
  have hdash : '-' ∈ text := htext ▸ (by simp)
  cases h with
  | @name sign body hsign hbody =>
      refine (hsigned sign body hsign rfl).symm.imp_right fun hplain => absurd hdash ?_
      have hnames : ∀ name ∈ names, '-' ∉ name := by simp [names]
      rw [List.mem_append, not_or]
      exact ⟨hplain, fun hmem => hnames _ hbody (List.mem_map_of_mem (f := Char.toLower) hmem)⟩
  | @digits sign mantissa exponent hsign hmantissa hexponent =>
      refine (hsigned sign _ hsign rfl).symm.imp_right fun hplain => ?_
      have hmantissa' : '-' ∉ mantissa := fun hmem => by
        rcases hmantissa _ hmem with hdigit | hpoint
        · exact ne_dash_of_isDigit hdigit rfl
        · exact absurd hpoint (by decide)
      rcases hexponent with rfl | ⟨letter, sign', digits, rfl, hletter, hsign', hdigits⟩
      · exact absurd hdash (by simp [hplain, hmantissa'])
      · have hletter' : letter ≠ '-' := by rcases hletter with rfl | rfl <;> decide
        have hdigits' : '-' ∉ digits := fun hmem => ne_dash_of_isDigit (hdigits _ hmem) rfl
        rcases hsign' with rfl | rfl | rfl
        · exact absurd hdash (by simp [hplain, hmantissa', hletter'.symm, hdigits'])
        · exact absurd hdash (by simp [hplain, hmantissa', hletter'.symm, hdigits'])
        · have hlead : '-' ∉ sign ++ mantissa ++ [letter] := by
            simp [hplain, hmantissa', hletter'.symm]
          have hsame : sign ++ mantissa ++ [letter] ++ '-' :: digits = front ++ '-' :: back := by
            simpa using htext
          obtain ⟨rfl, -⟩ := Text.eq_of_append_cons hlead hfront hsame
          exact ⟨letter, by simp, hletter⟩

theorem isNegative_scaled (digits : List Char) (exponent : Int) :
    (scaled true digits exponent).IsNegative := by
  unfold scaled
  dsimp only
  split_ifs
  · exact .finite 0
  · exact .infinite
  · exact Binary64.isNegative_ofRatio _ _
  · exact Binary64.isNegative_ofRatio _ _

/-- A dash at the front makes a number negative. -/
theorem isNegative_of_binary64? {text : String} {rest : List Char} {x : Binary64}
    (htext : text.toList = '-' :: rest) (h : binary64? text = some x) : x.IsNegative := by
  have hsign : leadingSign ('-' :: rest) = (some true, rest) := rfl
  simp only [binary64?, htext, hsign, decide_true] at h
  split_ifs at h with hinfinite hnan
  · exact Option.some.inj h ▸ .infinite
  · exact Option.some.inj h ▸ .nan
  · obtain ⟨-, digits, places, rfl⟩ := exists_mantissa_of_unsigned? h
    exact isNegative_scaled digits places

/-! ## Written numbers -/

theorem digit?_of_isDigit {c : Char} (h : c.isDigit = true) :
    digit? c = some (c.toNat - '0'.toNat) := by
  have hrange : '0' ≤ c ∧ c ≤ '9' := by
    rw [Char.isDigit, Bool.and_eq_true, decide_eq_true_eq, decide_eq_true_eq] at h
    exact h
  rw [digit?, if_pos hrange]

theorem foldl_eq_ofDigitChars {digits : List Char} (h : ∀ c ∈ digits, c.isDigit = true)
    (start : Nat) : digits.foldl (fun n c => n * 10 + (digit? c).getD 0) start
      = Nat.ofDigitChars 10 digits start := by
  unfold Nat.ofDigitChars
  induction digits generalizing start with
  | nil => rfl
  | cons c rest ih =>
      obtain ⟨hc, hrest⟩ := List.forall_mem_cons.1 h
      rw [List.foldl_cons, List.foldl_cons, ih hrest, digit?_of_isDigit hc, Option.getD_some,
        Nat.mul_comm]

theorem isDigit_of_mem_toString {n : Nat} {c : Char} (h : c ∈ (toString n).toList) :
    c.isDigit = true := by
  rw [Nat.toString_eq_ofList_toDigits, String.toList_ofList] at h
  exact Nat.isDigit_of_mem_toDigits (by decide) (by decide) h

theorem value_toString (n : Nat) : value (toString n).toList = n := by
  rw [value, foldl_eq_ofDigitChars fun _ => isDigit_of_mem_toString,
    Nat.toString_eq_ofList_toDigits, String.toList_ofList, Nat.ofDigitChars_ten_toDigits]

theorem natChars?_toString (n : Nat) : natChars? (toString n).toList = some n := by
  have hall : (toString n).toList.all isDigit = true := List.all_eq_true.2 fun c hc => by
    rw [isDigit, digit?_of_isDigit (isDigit_of_mem_toString hc), Option.isSome_some]
  have hne : (toString n).toList ≠ [] := by
    rw [Nat.toString_eq_ofList_toDigits, String.toList_ofList]
    exact Nat.toDigits_ne_nil
  rw [natChars?, hall, value_toString, List.isEmpty_eq_false_iff.2 hne]
  rfl

/-- **A number that is written is read back.** -/
theorem nat?_toString {n greatest : Nat} (h : n ≤ greatest) :
    nat? greatest (toString n) = some n := by
  unfold nat?
  dsimp only
  split
  · next rest hplus =>
    exact absurd (isDigit_of_mem_toString (hplus ▸ List.mem_cons_self ..)) (by decide : ¬ _)
  · rw [natChars?_toString, Option.filter_some, if_pos (decide_eq_true h)]

end FacetSearch.Decimal
