import FacetSearch.Number.Shortest
import FacetSearch.Proofs.Number.Binary64

set_option autoImplicit false

/-! # Whole numbers in binary64

Rounding keeps what has 53 significant bits (`roundUnits_of_dvd`) and stays on its side of a power of
two (`roundUnits_le`, `le_roundUnits`). So the integers below `2 ^ 53` are binary64 numbers themselves:
they are compared, subtracted and cut off as integers (`le_ofInt`, `ofInt_sub_ofInt`,
`truncate?_round_ofInt`) and written with their own digits (`plain_whole`). For other numbers a bound
on the size is kept by division by what is not below one and by the step up to a whole number
(`Within.div`, `Within.max_one_ceil`). -/

namespace FacetSearch.Binary64

variable {n k num den : Nat} {i j : Int} {x y : Binary64}

/-! ## Units -/

theorem exists_one_eq : ∃ k, one = 2 ^ k := by
  unfold one
  generalize 1074 = k
  exact ⟨k, Nat.pow_eq⟩

theorem one_pos : 0 < one := by
  obtain ⟨k, hone⟩ := exists_one_eq
  rw [hone]
  exact Nat.two_pow_pos k

theorem whole_lt_overflow (h : n < 2 ^ 53) : n * one < overflow := by
  have hle : 53 ≤ 1024 := by decide
  unfold overflow
  generalize 1024 = k at hle ⊢
  have hpow : 2 ^ 53 ≤ Nat.pow 2 k := Nat.pow_le_pow_right (by decide) hle
  exact Nat.mul_lt_mul_of_pos_right (h.trans_le hpow) one_pos

/-! ## Rounding -/

theorem bitLength_le_iff : bitLength n ≤ k ↔ n < 2 ^ k := by
  unfold bitLength
  split
  · next hzero =>
    rw [hzero]
    exact iff_of_true (Nat.zero_le k) (Nat.two_pow_pos k)
  · next hne => exact Nat.succ_le_iff.trans (Nat.log2_lt hne)

theorem roundRatio_mul (hden : 0 < den) (n : Nat) : roundRatio (n * den) den = n := by
  rw [roundRatio, Nat.mul_mod_left, Nat.mul_zero, if_pos hden, Nat.mul_div_cancel n hden]

theorem div_le_roundRatio (num den : Nat) : num / den ≤ roundRatio num den := by
  unfold roundRatio
  dsimp only
  split
  · exact le_refl _
  · split <;> omega

theorem roundRatio_le (hden : 0 < den) (h : num ≤ den * n) : roundRatio num den ≤ n := by
  have hquot : num / den ≤ n := (Nat.div_le_iff_le_mul hden).2 (by rw [Nat.mul_comm]; omega)
  unfold roundRatio
  dsimp only
  split
  · exact hquot
  · next hlarge =>
    -- a quotient at the bound leaves nothing over
    have hbelow : num / den < n := by
      have hsum := Nat.div_add_mod num den
      refine lt_of_le_of_ne hquot ?_
      rintro rfl
      omega
    split <;> omega

/-- **What has 53 significant bits is kept.** -/
theorem roundUnits_of_dvd (hdvd : 2 ^ k ∣ n) (h : n < 2 ^ (k + 53)) : roundUnits n 1 = n := by
  have hspare : bitLength n - 53 ≤ k := Nat.sub_le_iff_le_add.2 (bitLength_le_iff.2 h)
  obtain ⟨count, hcount⟩ := (pow_dvd_pow 2 hspare).trans hdvd
  rw [roundUnits, Nat.div_one, Nat.one_mul, Nat.pow_eq]
  generalize 2 ^ (bitLength n - 53) = scale at hcount ⊢
  rcases Nat.eq_zero_or_pos scale with rfl | hpos
  · omega
  · rw [hcount, Nat.mul_comm scale, roundRatio_mul hpos]

theorem roundUnits_le (hden : 0 < den) (h : num ≤ den * 2 ^ k) : roundUnits num den ≤ 2 ^ k := by
  have hquot : num / den ≤ 2 ^ k := Nat.div_le_of_le_mul h
  have hspare : bitLength (num / den) - 53 ≤ k := by
    have hbits : bitLength (num / den) ≤ k + 1 :=
      bitLength_le_iff.2 (hquot.trans_lt (Nat.pow_lt_pow_right (by decide) (Nat.lt_succ_self k)))
    omega
  rw [roundUnits, Nat.pow_eq]
  generalize bitLength (num / den) - 53 = spare at hspare ⊢
  have hsplit : 2 ^ k = 2 ^ (k - spare) * 2 ^ spare := by rw [← pow_add, Nat.sub_add_cancel hspare]
  rw [hsplit] at h ⊢
  refine Nat.mul_le_mul_right _ (roundRatio_le (Nat.mul_pos hden (Nat.two_pow_pos spare)) ?_)
  rwa [Nat.mul_assoc, Nat.mul_comm (2 ^ spare)]

theorem le_roundUnits (h : 2 ^ k ≤ n) : 2 ^ k ≤ roundUnits n 1 := by
  rw [roundUnits, Nat.div_one, Nat.one_mul, Nat.pow_eq]
  refine le_trans ?_ (Nat.mul_le_mul_right _ (div_le_roundRatio n _))
  by_cases hspare : bitLength n - 53 ≤ k
  · generalize bitLength n - 53 = spare at hspare ⊢
    rw [← Nat.sub_add_cancel hspare, pow_add] at h ⊢
    exact Nat.mul_le_mul_right _ ((Nat.le_div_iff_mul_le (Nat.two_pow_pos spare)).2 h)
  · -- the power is below the last digit that is kept
    have hscale : 2 ^ (bitLength n - 53) ≤ n := by
      refine le_of_not_gt fun hlt => ?_
      have hshort := bitLength_le_iff.2 hlt
      omega
    have hpow : 2 ^ k ≤ 2 ^ (bitLength n - 53) := Nat.pow_le_pow_right (by decide) (by omega)
    exact hpow.trans (Nat.le_mul_of_pos_left _ (Nat.div_pos hscale (Nat.two_pow_pos _)))

theorem roundUnits_whole (h : n < 2 ^ 53) : roundUnits (n * one) 1 = n * one := by
  obtain ⟨k, hone⟩ := exists_one_eq
  rw [hone]
  refine roundUnits_of_dvd (Dvd.intro_left n rfl) ?_
  rw [pow_add, Nat.mul_comm]
  exact Nat.mul_lt_mul_of_pos_left h (Nat.two_pow_pos k)

/-! ## Integers below `2 ^ 53` -/

theorem ofNat_eq (h : n < 2 ^ 53) : ofNat n = finite false (n * one) := by
  rw [ofNat, ofRatio, roundUnits_whole h, ofUnits, if_pos (whole_lt_overflow h)]

theorem ofInt_eq (h : i.natAbs < 2 ^ 53) : ofInt i = finite (i < 0) (i.natAbs * one) := by
  rw [ofInt, ofRatio, roundUnits_whole h, ofUnits, if_pos (whole_lt_overflow h)]

theorem signed_not (negative : Bool) (units : Nat) :
    signed (!negative) units = -signed negative units := by
  cases negative <;> simp [signed]

theorem signed_natAbs (i : Int) : signed (i < 0) (i.natAbs * one) = i * one := by
  rw [signed]
  generalize one = unit
  rw [Nat.cast_mul, ← Int.neg_mul, ← ite_mul]
  congr 1
  simp only [decide_eq_true_eq]
  omega

theorem place?_ofInt (h : i.natAbs < 2 ^ 53) : (ofInt i).place? = some (i * one) := by
  rw [ofInt_eq h, place?, signed_natAbs]

theorem finite_ne_nan (negative : Bool) (units : Nat) : finite negative units ≠ nan := nofun

theorem ofInt_ne_nan (h : i.natAbs < 2 ^ 53) : ofInt i ≠ nan := by
  rw [ofInt_eq h]
  exact finite_ne_nan _ _

theorem le_ofInt (hi : i.natAbs < 2 ^ 53) (hj : j.natAbs < 2 ^ 53) :
    (ofInt i).le (ofInt j) = decide (i ≤ j) := by
  rw [le, place?_ofInt hi, place?_ofInt hj]
  exact decide_eq_decide.2 (Int.mul_le_mul_right (Int.natCast_pos.2 one_pos))

theorem eqv_ofInt (hi : i.natAbs < 2 ^ 53) (hj : j.natAbs < 2 ^ 53) :
    (ofInt i).eqv (ofInt j) = decide (i = j) := by
  rw [eqv, place?_ofInt hi, place?_ofInt hj]
  exact decide_eq_decide.2 (Int.mul_eq_mul_right_iff (Int.natCast_pos.2 one_pos).ne')

theorem min_ofInt (hi : i.natAbs < 2 ^ 53) (hj : j.natAbs < 2 ^ 53) :
    (ofInt i).min (ofInt j) = ofInt (Min.min i j) := by
  rw [min, if_neg (ofInt_ne_nan hi), le_ofInt hj hi, ← apply_ite ofInt]
  congr 1
  simp only [decide_eq_true_eq]
  omega

theorem max_ofInt (hi : i.natAbs < 2 ^ 53) (hj : j.natAbs < 2 ^ 53) :
    (ofInt i).max (ofInt j) = ofInt (Max.max i j) := by
  rw [max, if_neg (ofInt_ne_nan hi), le_ofInt hi hj, ← apply_ite ofInt]
  congr 1
  simp only [decide_eq_true_eq]
  omega

theorem sub_eq (x y : Binary64) : x - y = x.add y.neg := rfl

theorem ofInt_sub_ofInt (hi : i.natAbs < 2 ^ 53) (hj : j.natAbs < 2 ^ 53) :
    ofInt i - ofInt j = ofInt (i - j) := by
  rw [sub_eq, ofInt_eq hi, ofInt_eq hj, neg, add, signed_not, signed_natAbs, signed_natAbs,
    ← Int.sub_eq_add_neg, ← Int.sub_mul]
  have hpos : (0 : Int) < one := Int.natCast_pos.2 one_pos
  by_cases hzero : (i - j) * one = 0
  · obtain rfl : i = j := by
      rcases Int.mul_eq_zero.1 hzero with hdiff | hunit
      · omega
      · omega
    rw [if_pos hzero, Bool.and_not_self, Int.sub_self, ofInt_eq (show Int.natAbs 0 < 2 ^ 53 by decide),
      Int.natAbs_zero, Nat.zero_mul]
    rfl
  · have hsign : (i - j) * one < 0 * one ↔ i - j < 0 := Int.mul_lt_mul_right hpos
    rw [Int.zero_mul] at hsign
    rw [if_neg hzero, decide_eq_decide.2 hsign, Int.natAbs_mul, Int.natAbs_natCast, ofInt, ofRatio]

/-- The integer part of a whole number, which rounding keeps, is the number. -/
theorem truncate?_round_ofInt (h : i.natAbs < 2 ^ 53) : (ofInt i).round.truncate? = some i := by
  have hpos := one_pos
  rw [ofInt_eq h, round, truncate?]
  generalize one = unit at *
  have hhalf : unit / 2 < unit := Nat.div_lt_self hpos (by decide)
  have hround : (i.natAbs * unit + unit / 2) / unit = i.natAbs := by
    rw [Nat.mul_comm, Nat.mul_add_div hpos, Nat.div_eq_of_lt hhalf, Nat.add_zero]
  rw [hround, Nat.mul_div_cancel _ hpos, signed]
  refine congrArg some ?_
  simp only [decide_eq_true_eq]
  omega

/-- **A whole number is written with its own digits.** -/
theorem plain_whole (h : n < 2 ^ 53) : (finite false (n * one)).plain = toString n := by
  have hpos := one_pos
  rw [plain]
  generalize one = unit at *
  rw [Nat.mul_mod_left, Nat.mul_div_cancel _ hpos, if_pos ⟨rfl, h⟩]
  rfl

/-! ## Bounds on the size -/

/-- The number is finite, with at most `bound` units on either side. -/
inductive Within (bound : Nat) : Binary64 → Prop where
  | finite {units : Nat} (negative : Bool) (h : units ≤ bound) : Within bound (.finite negative units)

/-- The number is not below one. -/
inductive OneOrMore : Binary64 → Prop where
  | finite {units : Nat} (h : one ≤ units) : OneOrMore (.finite false units)
  | infinite : OneOrMore (.infinite false)

theorem within_ofInt (h : i.natAbs < 2 ^ 53) (hi : i.natAbs ≤ n) : (ofInt i).Within (n * one) := by
  rw [ofInt_eq h]
  exact .finite _ (Nat.mul_le_mul_right _ hi)

theorem oneOrMore_ofNat (h : 1 ≤ n) : (ofNat n).OneOrMore := by
  have hround : one ≤ roundUnits (n * one) 1 := by
    obtain ⟨k, hone⟩ := exists_one_eq
    rw [hone]
    exact le_roundUnits (Nat.le_mul_of_pos_left _ h)
  rw [ofNat, ofRatio, ofUnits]
  split
  · exact .finite hround
  · exact .infinite

/-- A bound that is a power of two is kept by division. -/
theorem Within.div (h : x.Within (2 ^ k * one)) (hfinite : 2 ^ k * one < overflow)
    (hy : y.OneOrMore) : (x / y).Within (2 ^ k * one) := by
  obtain @⟨units, negative, hunits⟩ := h
  cases hy with
  | infinite => exact .finite _ (Nat.zero_le _)
  | @finite divisor hdivisor =>
      have hpos : 0 < divisor := one_pos.trans_le hdivisor
      have hround : roundUnits (units * one) divisor ≤ 2 ^ k * one := by
        obtain ⟨k', hone⟩ := exists_one_eq
        rw [hone, ← pow_add] at hunits ⊢
        rw [hone] at hdivisor
        refine roundUnits_le hpos ?_
        rw [Nat.mul_comm divisor]
        exact Nat.mul_le_mul hunits hdivisor
      show (div _ _).Within _
      rw [Binary64.div, if_neg hpos.ne', ofUnits, if_pos (hround.trans_lt hfinite)]
      exact .finite _ hround

/-- The least whole number that is neither below the number nor below one. -/
theorem Within.max_one_ceil (h : x.Within (n * one)) (hn : n < 2 ^ 53) :
    ∃ m : Nat, 1 ≤ m ∧ m < 2 ^ 53 ∧ x.ceil.max 1 = .finite false (m * one) := by
  have hone : (1 : Binary64) = .finite false (1 * one) := ofNat_eq (n := 1) (by decide)
  obtain @⟨units, negative, hunits⟩ := h
  rw [hone]
  have hpos := one_pos
  cases negative with
  | true =>
      refine ⟨1, le_refl 1, by decide, ?_⟩
      rw [ceil, max, if_neg (finite_ne_nan _ _), if_pos]
      simp only [le, place?, signed, if_true, Bool.false_eq_true, if_false, decide_eq_true_eq]
      generalize one = unit at *
      omega
  | false =>
      have hceil : (units + one - 1) / one ≤ n := by
        rw [Nat.div_le_iff_le_mul hpos]
        omega
      rw [ceil]
      generalize (units + one - 1) / one = count at hceil
      have hle : (Binary64.finite false (count * one)).le (.finite false (1 * one))
          = decide (count ≤ 1) := by
        rw [le, place?, place?]
        simp only [signed, Bool.false_eq_true, if_false, Nat.cast_le]
        exact decide_eq_decide.2 (Nat.mul_le_mul_right_iff hpos)
      rw [max, if_neg (finite_ne_nan _ _), hle]
      by_cases hcount : count ≤ 1
      · exact ⟨1, le_refl 1, by decide, if_pos (decide_eq_true hcount)⟩
      · refine ⟨count, by omega, hceil.trans_lt hn, if_neg ?_⟩
        rwa [decide_eq_true_eq]

end FacetSearch.Binary64
