import FacetSearch.Json.Reader
import FacetSearch.Proofs.Number.Decimal
import FacetSearch.Proofs.Number.Digits
import Mathlib

set_option autoImplicit false

/-! # Numbers and strings in JSON texts

A number stops at the first comma or closing bracket, so it is read alike whatever follows that
(`readNumber_append`), and a written integer of 64 bits is read back (`readsBack_integer`). What is
written for a character inside quotes is read as that character (`readString_quotedChar`), and so every
string is read back (`readString_quoted`).

A number with a fraction need not be: its text names a decimal that is nearest to it, but the reader
rounds more than once. `ReadsBack` says of one number that it is. -/

namespace FacetSearch.Json

open Decimal

/-- What may follow a value: nothing, a comma or a closing bracket. -/
def Ends (rest : List Char) : Prop := ∀ c ∈ rest.head?, c = ',' ∨ c = ']' ∨ c = '\x7d'

theorem ends_nil : Ends [] := by simp [Ends]

theorem Ends.cases {rest : List Char} (h : Ends rest) :
    rest = [] ∨ ∃ c behind, rest = c :: behind ∧ (c = ',' ∨ c = ']' ∨ c = '\x7d') := by
  cases rest with
  | nil => exact .inl rfl
  | cons c behind => exact .inr ⟨c, behind, rfl, h c rfl⟩

/-! ## The parts of a number -/

section

variable {rest : List Char}

theorem leadingDigits_append (h : Ends rest) (text : List Char) :
    leadingDigits (text ++ rest) = ((leadingDigits text).1, (leadingDigits text).2 ++ rest) := by
  have hrest : leadingDigits rest = ([], rest) := by
    rcases h.cases with rfl | ⟨c, behind, rfl, rfl | rfl | rfl⟩ <;> rfl
  induction text with
  | nil => exact hrest
  | cons c text ih =>
      simp only [leadingDigits, List.cons_append, List.takeWhile_cons, List.dropWhile_cons,
        Prod.mk.injEq] at ih ⊢
      split <;> simp [ih]

theorem leadingSign_append (h : Ends rest) (text : List Char) :
    leadingSign (text ++ rest) = ((leadingSign text).1, (leadingSign text).2 ++ rest) := by
  cases text with
  | nil => rcases h.cases with rfl | ⟨c, behind, rfl, rfl | rfl | rfl⟩ <;> rfl
  | cons c text =>
      by_cases hplus : c = '+'
      · subst hplus
        rfl
      · by_cases hminus : c = '-'
        · subst hminus
          rfl
        · simp [leadingSign, hplus, hminus]

theorem readFraction_append (h : Ends rest) (text : List Char) :
    readFraction (text ++ rest) = (readFraction text).map fun read => (read.1, read.2 ++ rest) := by
  cases text with
  | nil => rcases h.cases with rfl | ⟨c, behind, rfl, rfl | rfl | rfl⟩ <;> rfl
  | cons c text =>
      by_cases hc : c = '.'
      · subst hc
        simp only [List.cons_append, readFraction, leadingDigits_append h]
        split <;> rfl
      · simp [readFraction, hc]

theorem readExponent_append (h : Ends rest) (text : List Char) :
    readExponent (text ++ rest) = (readExponent text).map fun read => (read.1, read.2 ++ rest) := by
  cases text with
  | nil => rcases h.cases with rfl | ⟨c, behind, rfl, rfl | rfl | rfl⟩ <;> rfl
  | cons c text =>
      by_cases hc : c = 'e' ∨ c = 'E'
      · rcases hc with rfl | rfl
        all_goals
          simp only [List.cons_append, readExponent, leadingSign_append h, leadingDigits_append h]
          split <;> rfl
      · rw [not_or] at hc
        simp [readExponent, hc.1, hc.2]

/-- A number behind its sign. -/
def readUnsigned (negative : Bool) (text : List Char) : Option (Numeral × List Char) :=
  if (leadingDigits text).1.isEmpty
      || ((leadingDigits text).1.head? == some '0' && (leadingDigits text).1.length > 1) then none
  else (readFraction (leadingDigits text).2).bind fun fraction =>
    (readExponent fraction.2).map fun exponent =>
      (numeral negative (leadingDigits text).1 fraction.1 exponent.1, exponent.2)

theorem readUnsigned_append (h : Ends rest) (negative : Bool) (text : List Char) :
    readUnsigned negative (text ++ rest)
      = (readUnsigned negative text).map fun read => (read.1, read.2 ++ rest) := by
  unfold readUnsigned
  rw [leadingDigits_append h]
  split
  · rfl
  · rw [readFraction_append h]
    cases readFraction (leadingDigits text).2 with
    | none => rfl
    | some fraction =>
        rw [Option.map_some, Option.bind_some, Option.bind_some, readExponent_append h]
        cases readExponent fraction.2 <;> rfl

/-! ## Whole numbers in their texts -/

theorem readNumber_minus (text : List Char) : readNumber ('-' :: text) = readUnsigned true text := by
  simp only [readNumber, readUnsigned, Option.bind_eq_bind, Option.map_eq_bind]
  rfl

theorem readNumber_of_ne_minus {text : List Char} (h : text.head? ≠ some '-') :
    readNumber text = readUnsigned false text := by
  unfold readNumber readUnsigned
  split
  next negative behind hsign =>
    split at hsign
    · exact absurd rfl h
    · obtain ⟨rfl, rfl⟩ := Prod.mk.inj hsign
      simp only [Option.bind_eq_bind, Option.map_eq_bind]
      rfl

/-- **A number is read alike whatever stands behind the end of it.** -/
theorem readNumber_append (h : Ends rest) (text : List Char) :
    readNumber (text ++ rest) = (readNumber text).map fun read => (read.1, read.2 ++ rest) := by
  cases text with
  | nil => rcases h.cases with rfl | ⟨c, behind, rfl, rfl | rfl | rfl⟩ <;> rfl
  | cons c text =>
      by_cases hc : c = '-'
      · subst hc
        rw [List.cons_append, readNumber_minus, readNumber_minus, readUnsigned_append h]
      · have hhead : (c :: text).head? ≠ some '-' := by simpa using hc
        have hhead' : (c :: text ++ rest).head? ≠ some '-' := by simpa using hc
        rw [readNumber_of_ne_minus hhead, readNumber_of_ne_minus hhead', readUnsigned_append h]

end

/-- A number begins with a dash or a digit. -/
theorem exists_cons_of_readNumber {text : List Char} {read : Numeral × List Char}
    (h : readNumber text = some read) :
    ∃ c rest, text = c :: rest ∧ (c = '-' ∨ isDigit c = true) := by
  cases text with
  | nil => exact absurd h (by simp [readNumber, leadingDigits])
  | cons c rest =>
      refine ⟨c, rest, rfl, ?_⟩
      by_contra hno
      rw [not_or] at hno
      have hhead : (c :: rest).head? ≠ some '-' := by simpa using hno.1
      have hempty : (leadingDigits (c :: rest)).1 = [] := by simp [leadingDigits, hno.2]
      rw [readNumber_of_ne_minus hhead, readUnsigned, hempty] at h
      exact absurd h (by simp)

/-- The number is read back from its text. -/
def ReadsBack (n : Numeral) : Prop := readNumber (Numeral.text n).toList = some (n, [])

instance : DecidablePred ReadsBack := fun _ => inferInstanceAs (Decidable (_ = _))

theorem isFinite_of_readsBack {x : Binary64} (h : ReadsBack (.real x)) : x.isFinite = true := by
  have hnull : readNumber "null".toList = none := rfl
  cases x with
  | finite negative units => rfl
  | infinite negative => exact absurd (hnull.symm.trans h) (by simp)
  | nan => exact absurd (hnull.symm.trans h) (by simp)

/-! ## Integers -/

theorem appendDigits_of_le {n : Nat} {digits : List Char}
    (h : n * 10 ^ digits.length + value digits ≤ greatestWord) :
    appendDigits n digits = (n * 10 ^ digits.length + value digits, []) := by
  induction digits generalizing n with
  | nil => simp [appendDigits, value]
  | cons c rest ih =>
      have hsum : n * 10 ^ (c :: rest).length + value (c :: rest)
          = (n * 10 + (digit? c).getD 0) * 10 ^ rest.length + value rest := by
        rw [value_cons, List.length_cons, digit]
        ring
      rw [hsum] at h ⊢
      have hnext : n * 10 + (digit? c).getD 0 ≤ greatestWord := by
        have hpow : 1 ≤ 10 ^ rest.length := Nat.one_le_pow _ _ (by decide)
        nlinarith
      unfold appendDigits
      dsimp only
      rw [if_pos hnext, ih h]

section

variable {n : Nat}

theorem isDigit_of_mem_text {c : Char} (h : c ∈ (toString n).toList) : isDigit c = true := by
  rw [isDigit_eq]
  exact isDigit_of_mem_toString h

/-- A written number with a zero in front is written as nothing else. -/
theorem length_le_of_head_zero (h : (toString n).toList.head? = some '0') :
    (toString n).toList.length ≤ 1 := by
  obtain ⟨rest, hdigits⟩ : ∃ rest, (toString n).toList = '0' :: rest :=
    ⟨_, List.eq_cons_of_mem_head? h⟩
  by_contra hlong
  have hrest : 0 < rest.length := by
    rw [hdigits, List.length_cons] at hlong
    omega
  -- the digits behind the zero write the number, so it is too small for one more
  have hlt : n < 10 ^ rest.length := by
    have hvalue := value_toString n
    rw [hdigits, value_cons, (by decide : digit '0' = 0), Nat.zero_mul, Nat.zero_add] at hvalue
    rw [← hvalue]
    exact value_lt fun c hc => isDigit_of_mem_text (hdigits ▸ List.mem_cons_of_mem _ hc)
  have hlength := (Nat.length_toDigits_le_iff (by decide) hrest).2 hlt
  rw [Nat.toString_eq_ofList_toDigits, String.toList_ofList] at hdigits
  rw [hdigits, List.length_cons] at hlength
  omega

theorem leadingDigits_toString : leadingDigits (toString n).toList = ((toString n).toList, []) := by
  have hall : ∀ c ∈ (toString n).toList, isDigit c = true := fun _ => isDigit_of_mem_text
  rw [leadingDigits, List.takeWhile_eq_self_iff.2 hall, List.dropWhile_eq_nil_iff.2 hall]

theorem readUnsigned_toString (h : n ≤ greatestWord) (negative : Bool) :
    readUnsigned negative (toString n).toList
      = some (if !negative then .integer n
        else if n = 0 ∨ 0x8000000000000000 < n then .real (-Binary64.ofNat n)
        else .integer (-(n : Int)), []) := by
  have hdigits : appendDigits 0 (toString n).toList = (n, []) := by
    rw [appendDigits_of_le]
    all_goals rw [value_toString, Nat.zero_mul, Nat.zero_add]
    exact h
  have hne : (toString n).toList ≠ [] := by
    rw [Nat.toString_eq_ofList_toDigits, String.toList_ofList]
    exact Nat.toDigits_ne_nil
  unfold readUnsigned
  rw [leadingDigits_toString, if_neg]
  · simp only [readFraction, readExponent, Option.bind_some, Option.map_some, numeral, hdigits]
    cases negative <;> simp
  · simp only [Bool.or_eq_true, List.isEmpty_iff, hne, false_or, Bool.and_eq_true, beq_iff_eq,
      decide_eq_true_eq, not_and]
    intro hhead
    exact (length_le_of_head_zero hhead).not_gt

end

/-- **A written integer of 64 bits is read back**, with a sign or without. -/
theorem readsBack_integer {z : Int} (hlow : -0x8000000000000000 ≤ z) (hhigh : z ≤ greatestWord) :
    ReadsBack (.integer z) := by
  unfold ReadsBack Numeral.text
  cases z with
  | ofNat n =>
      have hhead : (toString n).toList.head? ≠ some '-' := fun h =>
        absurd (isDigit_of_mem_text (List.mem_of_mem_head? h)) (by decide)
      show readNumber (toString n).toList = _
      rw [readNumber_of_ne_minus hhead, readUnsigned_toString (Int.ofNat_le.1 hhigh)]
      rfl
  | negSucc n =>
      have htext : (toString (Int.negSucc n)).toList = '-' :: (toString (n + 1)).toList := by
        show ("-" ++ toString (n + 1)).toList = _
        rw [String.toList_append]
        rfl
      have hle : n + 1 ≤ 0x8000000000000000 := by omega
      rw [htext, readNumber_minus, readUnsigned_toString (hle.trans (by decide))]
      simp only [Bool.not_true, Bool.false_eq_true, if_false, hle.not_gt, or_false, Nat.succ_ne_zero]
      rfl

theorem readsBack_of_fitsInt64 {z : Int} (h : fitsInt64 z = true) : ReadsBack (.integer z) := by
  rw [fitsInt64, Bool.and_eq_true, decide_eq_true_eq, decide_eq_true_eq] at h
  have hword : (0x8000000000000000 : Int) ≤ greatestWord := by decide
  exact readsBack_integer h.1 (by omega)

/-! ## Strings -/

theorem hexDigit?_hex : ∀ n < 16,
    hexDigit? (if n < 10 then Char.ofNat (48 + n) else Char.ofNat (87 + n)) = some n := by
  decide

theorem readUnicode_controlEscape {c : Char} (h : c.toNat < 32) (rest : List Char) :
    readUnicode ((controlEscape c).drop 2 ++ rest) = some (some c, rest) := by
  have hzero : hexDigit? '0' = some 0 := by decide
  have hhigh := hexDigit?_hex (c.toNat / 16) (by omega)
  have hlow := hexDigit?_hex (c.toNat % 16) (by omega)
  have hunit : ((0 * 16 + 0) * 16 + c.toNat / 16) * 16 + c.toNat % 16 = c.toNat := by omega
  simp only [controlEscape, List.drop_succ_cons, List.drop_zero, List.cons_append, List.nil_append,
    readUnicode, readHex4, hzero, hhigh, hlow, hunit, Option.bind_eq_bind, Option.bind_some]
  rw [if_neg (by omega), if_neg (by omega), Char.ofNat_toNat]

/-- What is written for a character inside quotes is read as that character. -/
theorem readString_quotedChar (fuel : Nat) (done : List Char) (c : Char) (text : List Char) :
    readString (fuel + 1) (some done) (quotedChar c ++ text)
      = readString fuel (some (c :: done)) text := by
  unfold quotedChar
  split_ifs with hquote hslash hline hreturn htab hback hfeed hcontrol
  · subst hquote
    rfl
  · subst hslash
    rfl
  · subst hline
    rfl
  · subst hreturn
    rfl
  · subst htab
    rfl
  · obtain rfl : c = Char.ofNat 8 := by rw [← hback, Char.ofNat_toNat]
    rfl
  · obtain rfl : c = Char.ofNat 12 := by rw [← hfeed, Char.ofNat_toNat]
    rfl
  · have hread := readUnicode_controlEscape hcontrol text
    have hescape : controlEscape c ++ text = '\\' :: 'u' :: ((controlEscape c).drop 2 ++ text) := rfl
    rw [hescape]
    generalize (controlEscape c).drop 2 ++ text = digits at hread
    simp only [readString, hread, Option.bind_eq_bind, Option.bind_some, Option.map_some]
  · simp [readString, hslash, hcontrol]

theorem readString_flatMap (text : List Char) {fuel : Nat} (done rest : List Char)
    (hfuel : text.length < fuel) :
    readString fuel (some done) (text.flatMap quotedChar ++ '"' :: rest)
      = some (some (String.ofList (done.reverse ++ text)), rest) := by
  induction text generalizing fuel done with
  | nil =>
      obtain ⟨fuel, rfl⟩ := Nat.exists_eq_succ_of_ne_zero (Nat.ne_zero_of_lt hfuel)
      simp [readString]
  | cons c text ih =>
      obtain ⟨fuel, rfl⟩ := Nat.exists_eq_succ_of_ne_zero (Nat.ne_zero_of_lt hfuel)
      rw [List.flatMap_cons, List.append_assoc, readString_quotedChar,
        ih _ (Nat.lt_of_succ_lt_succ hfuel)]
      simp

theorem length_le_length_flatMap (text : List Char) :
    text.length ≤ (text.flatMap quotedChar).length := by
  have hpos : ∀ c, 0 < (quotedChar c).length := by
    intro c
    unfold quotedChar
    split_ifs <;> simp [controlEscape]
  induction text with
  | nil => simp
  | cons c text ih =>
      have := hpos c
      rw [List.flatMap_cons, List.length_append, List.length_cons]
      omega

/-- **A string is read back from behind its opening quote.** -/
theorem readString_quoted (text : String) (rest : List Char) :
    readString ((text.toList.flatMap quotedChar ++ '"' :: rest).length + 1) (some [])
        (text.toList.flatMap quotedChar ++ '"' :: rest) = some (some text, rest) := by
  have hlength := length_le_length_flatMap text.toList
  rw [readString_flatMap _ _ _ (by rw [List.length_append]; omega)]
  simp

end FacetSearch.Json
