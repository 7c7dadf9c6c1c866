import FacetSearch.Number.Decimal
import Mathlib

set_option autoImplicit false

/-! # Runs of digits

The number that a run of digits writes is positional: what stands in front counts by the length of what
stands behind (`value_append`). Among runs of one length, the order of texts is the order of numbers
(`lt_iff_value_lt`), so a number has only one run of each length. -/

namespace FacetSearch.Decimal

variable {c c' : Char} {digits digits' : List Char}

/-! ## One digit -/

/-- The value of a digit; zero for other characters. -/
def digit (c : Char) : Nat := (digit? c).getD 0

theorem isDigit_iff : isDigit c = true ↔ '0' ≤ c ∧ c ≤ '9' := by
  unfold isDigit digit?
  split <;> simp_all

theorem isDigit_eq (c : Char) : isDigit c = c.isDigit := by
  rw [Bool.eq_iff_iff, isDigit_iff, Char.isDigit, Bool.and_eq_true, decide_eq_true_eq,
    decide_eq_true_eq]
  rfl

theorem digit_of_isDigit (h : isDigit c = true) : digit c + 48 = c.toNat ∧ digit c < 10 := by
  obtain ⟨hlow, hhigh⟩ := isDigit_iff.1 h
  have hlow' : 48 ≤ c.toNat := hlow
  have hhigh' : c.toNat ≤ 57 := hhigh
  rw [digit, digit?, if_pos ⟨hlow, hhigh⟩, Option.getD_some]
  have hzero : '0'.toNat = 48 := rfl
  omega

theorem lt_iff_digit_lt (h : isDigit c = true) (h' : isDigit c' = true) :
    c < c' ↔ digit c < digit c' := by
  have hvalue := (digit_of_isDigit h).1
  have hvalue' := (digit_of_isDigit h').1
  have hchar : c < c' ↔ c.toNat < c'.toNat := Iff.rfl
  rw [hchar]
  omega

/-! ## Runs -/

theorem foldl_eq_add_value (digits : List Char) (start : Nat) :
    digits.foldl (fun n c => n * 10 + (digit? c).getD 0) start
      = start * 10 ^ digits.length + value digits := by
  unfold value
  induction digits generalizing start with
  | nil => simp
  | cons c rest ih =>
      rw [List.foldl_cons, List.foldl_cons, ih, ih (0 * 10 + _), List.length_cons]
      ring

theorem value_append (front back : List Char) :
    value (front ++ back) = value front * 10 ^ back.length + value back := by
  rw [value, List.foldl_append, foldl_eq_add_value]
  rfl

theorem value_cons (c : Char) (rest : List Char) :
    value (c :: rest) = digit c * 10 ^ rest.length + value rest := by
  rw [value, List.foldl_cons, foldl_eq_add_value, Nat.zero_mul, Nat.zero_add, digit]

theorem value_lt (h : ∀ c ∈ digits, isDigit c = true) : value digits < 10 ^ digits.length := by
  induction digits with
  | nil => simp [value]
  | cons c rest ih =>
      obtain ⟨hc, hrest⟩ := List.forall_mem_cons.1 h
      have hdigit := (digit_of_isDigit hc).2
      have hbehind := ih hrest
      rw [value_cons, List.length_cons, pow_succ]
      nlinarith

/-- **Runs of one length are ordered as the numbers that they write.** -/
theorem lt_iff_value_lt (h : ∀ c ∈ digits, isDigit c = true) (h' : ∀ c ∈ digits', isDigit c = true)
    (hlength : digits.length = digits'.length) : digits < digits' ↔ value digits < value digits' := by
  induction digits generalizing digits' with
  | nil =>
      obtain rfl := List.length_eq_zero_iff.1 hlength.symm
      simp
  | cons c rest ih =>
      obtain ⟨c', rest', rfl⟩ := List.exists_cons_of_length_eq_add_one hlength.symm
      obtain ⟨hc, hrest⟩ := List.forall_mem_cons.1 h
      obtain ⟨hc', hrest'⟩ := List.forall_mem_cons.1 h'
      have hlength' : rest.length = rest'.length := Nat.succ.inj hlength
      have hbehind := value_lt hrest
      have hbehind' := value_lt hrest'
      rw [List.cons_lt_cons_iff, ih hrest hrest' hlength', value_cons, value_cons]
      rw [← hlength'] at hbehind' ⊢
      rcases lt_trichotomy (digit c) (digit c') with hless | hsame | hmore
      · have hstep : (digit c + 1) * 10 ^ rest.length ≤ digit c' * 10 ^ rest.length :=
          Nat.mul_le_mul_right _ hless
        rw [Nat.succ_mul] at hstep
        exact iff_of_true (.inl ((lt_iff_digit_lt hc hc').2 hless)) (by omega)
      · obtain rfl : c = c' := by
          have hvalue := (digit_of_isDigit hc).1
          have hvalue' := (digit_of_isDigit hc').1
          exact Char.toNat_inj.1 (by omega)
        simp
      · have hstep : (digit c' + 1) * 10 ^ rest.length ≤ digit c * 10 ^ rest.length :=
          Nat.mul_le_mul_right _ hmore
        rw [Nat.succ_mul] at hstep
        refine iff_of_false ?_ (by omega)
        rintro (hless | ⟨rfl, -⟩)
        · exact absurd ((lt_iff_digit_lt hc hc').1 hless) hmore.not_gt
        · exact absurd hmore (lt_irrefl _)

theorem eq_of_value_eq (h : ∀ c ∈ digits, isDigit c = true) (h' : ∀ c ∈ digits', isDigit c = true)
    (hlength : digits.length = digits'.length) (hvalue : value digits = value digits') :
    digits = digits' := by
  rcases lt_trichotomy digits digits' with hless | hsame | hmore
  · exact absurd hvalue ((lt_iff_value_lt h h' hlength).1 hless).ne
  · exact hsame
  · exact absurd hvalue ((lt_iff_value_lt h' h hlength.symm).1 hmore).ne'

end FacetSearch.Decimal
