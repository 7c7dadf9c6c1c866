import FacetSearch.Number.Binary64
import Mathlib

set_option autoImplicit false

/-! # The order of binary64 numbers

Numbers are compared by their places on the line, and sorted by keys that also tell the two zeros apart.
Among finite numbers, and among numbers that were rounded, the place is a monotone function of the key
(`place?_of_isFinite`, `place?_ofUnits`), so what is sorted by keys is in ascending order
(`le_of_sortKey_le`). A sign survives products with natural numbers and rounding (`IsNegative`). -/

namespace FacetSearch.Binary64

variable {x y : Binary64}

/-- The larger of two numbers is the one that is not below the other. -/
theorem eqv_max_of_le (h : y.le x = true) : (x.max y).eqv x = true := by
  unfold le at h
  cases hy : y.place? with
  | none => rw [hy] at h; exact absurd h (by simp)
  | some a =>
      cases hx : x.place? with
      | none => rw [hy, hx] at h; exact absurd h (by simp)
      | some b =>
          rw [hy, hx] at h
          have hnumber : x ≠ nan := by rintro rfl; exact absurd hx (by simp [place?])
          rw [max, if_neg hnumber]
          split
          · next hle =>
            simp only [le, hx, hy, decide_eq_true_eq] at hle h
            simp only [eqv, hx, hy, decide_eq_true_eq]
            omega
          · simp only [eqv, hx, decide_true]

/-- The place of a finite number with a sort key: the two zeros share theirs. -/
def keyPlace (key : Int) : Int := if 0 ≤ key then key else key + 1

theorem place?_of_isFinite (h : x.isFinite = true) : x.place? = some (keyPlace x.sortKey) := by
  cases x with
  | finite negative units =>
      cases negative with
      | false =>
          simp only [place?, signed, sortKey, keyPlace, Bool.false_eq_true, if_false]
          rw [if_pos (by omega)]
      | true =>
          simp only [place?, signed, sortKey, keyPlace, if_true]
          rw [if_neg (by omega), Int.sub_add_cancel]
  | infinite negative => exact absurd h (by simp [isFinite])
  | nan => exact absurd h (by simp [isFinite])

theorem monotone_keyPlace : Monotone keyPlace := by
  intro a b hab
  unfold keyPlace
  split <;> split <;> omega

/-- The same for a number that was rounded: it lies between the infinities, which have the keys behind
    all others. -/
def roundedPlace (key : Int) : Int := Max.max (-(overflow : Int)) (Min.min overflow (keyPlace key))

theorem monotone_roundedPlace : Monotone roundedPlace := by
  intro a b hab
  have hkeys := monotone_keyPlace hab
  unfold roundedPlace
  generalize overflow = top
  omega

theorem place?_ofUnits (negative : Bool) (units : Nat) : (ofUnits negative units).place?
    = some (roundedPlace (ofUnits negative units).sortKey) := by
  unfold roundedPlace ofUnits
  split
  · next hfinite =>
    rw [place?_of_isFinite rfl, keyPlace]
    generalize overflow = top at hfinite ⊢
    refine congrArg some ?_
    cases negative with
    | false =>
        simp only [sortKey, Bool.false_eq_true, if_false]
        omega
    | true =>
        simp only [sortKey, if_true]
        omega
  · cases negative with
    | false =>
        simp only [place?, signed, sortKey, keyPlace, Bool.false_eq_true, if_false]
        generalize overflow = top
        refine congrArg some ?_
        omega
    | true =>
        simp only [place?, signed, sortKey, keyPlace, if_true]
        generalize overflow = top
        refine congrArg some ?_
        omega

theorem le_of_sortKey_le {place : Int → Int} (hplace : Monotone place)
    (hx : x.place? = some (place x.sortKey)) (hy : y.place? = some (place y.sortKey))
    (h : x.sortKey ≤ y.sortKey) : x.le y = true := by
  rw [le, hx, hy]
  exact decide_eq_true (hplace h)

/-! ## Signs -/

/-- The number has a sign, if it is one. -/
inductive IsNegative : Binary64 → Prop where
  | finite (units : Nat) : IsNegative (.finite true units)
  | infinite : IsNegative (.infinite true)
  | nan : IsNegative .nan

theorem isNegative_ofUnits (units : Nat) : (ofUnits true units).IsNegative := by
  unfold ofUnits
  split
  · exact .finite units
  · exact .infinite

theorem isNegative_ofRatio (num den : Nat) : (ofRatio true num den).IsNegative := by
  unfold ofRatio
  exact isNegative_ofUnits _

theorem IsNegative.mul_ofUnits (h : x.IsNegative) (units : Nat) :
    (mul x (ofUnits false units)).IsNegative := by
  unfold ofUnits
  split
  · cases h with
    | finite units' => exact isNegative_ofUnits _
    | infinite =>
        rw [mul]
        split
        · exact .nan
        · exact .infinite
    | nan => exact .nan
  · cases h with
    | finite units' =>
        rw [mul]
        split
        · exact .nan
        · exact .infinite
    | infinite => exact .infinite
    | nan => exact .nan

theorem IsNegative.mul_ofNat (h : x.IsNegative) (n : Nat) : (x * ofNat n).IsNegative := by
  unfold ofNat ofRatio
  exact h.mul_ofUnits _

theorem IsNegative.round (h : x.IsNegative) : x.round.IsNegative := by
  cases h with
  | finite units => exact .finite _
  | infinite => exact .infinite
  | nan => exact .nan

/-- The integer part of a number with a sign is not above zero. -/
theorem IsNegative.truncate?_le {z : Int} (h : x.IsNegative) (hz : x.truncate? = some z) : z ≤ 0 := by
  cases h with
  | finite units =>
      rw [truncate?] at hz
      generalize units / one = whole at hz
      have hsigned := Option.some.inj hz
      rw [signed, if_pos rfl] at hsigned
      omega
  | infinite => exact absurd hz (by simp [truncate?])
  | nan => exact absurd hz (by simp [truncate?])

end FacetSearch.Binary64
