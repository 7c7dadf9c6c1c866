import FacetSearch.Tile.Chronology
import Mathlib

set_option autoImplicit false

/-! # Boxes and the moves into them

A box holds the points between its edges. Of the four quarters of a box, a point lies in the one that
its own move leads to and in no other (`Box.holds_step_iff`), whatever the widths: an axis of width one
has an empty lower half, and the move of a point that it holds is always toward the upper one. Hence the
digits of a point are those of every box around it (`Box.prefix_digitsToward_iff`), and the box at their
end is as narrow as that many halvings can make it (`Box.replay_digitsToward`). -/

namespace FacetSearch.Chronology

/-! ## Digits of moves -/

@[simp] theorem Move.ofDigit?_digit (m : Move) : Move.ofDigit? m.digit = some m := by
  rcases m with ⟨_ | _, _ | _⟩ <;> rfl

theorem Move.digit_of_ofDigit? {c : Char} {m : Move} (h : Move.ofDigit? c = some m) :
    m.digit = c := by
  unfold Move.ofDigit? at h
  split_ifs at h with h0 h1 h2 h3
  all_goals
    obtain rfl := Option.some.inj h
    exact Eq.symm ‹c = _›

theorem Move.digit_injective : Function.Injective Move.digit := fun m m' h => by
  have hread := congrArg Move.ofDigit? h
  rw [Move.ofDigit?_digit, Move.ofDigit?_digit] at hread
  exact Option.some.inj hread

/-- The character is the digit of a move. -/
def IsDigit (c : Char) : Prop := (Move.ofDigit? c).isSome = true

instance : DecidablePred IsDigit := fun _ => inferInstanceAs (Decidable (_ = true))

theorem isDigit_digit (m : Move) : IsDigit m.digit := by
  rw [IsDigit, Move.ofDigit?_digit]
  rfl

theorem isDigit_iff {c : Char} : IsDigit c ↔ c ∈ ['0', '1', '2', '3'] := by
  unfold IsDigit Move.ofDigit?
  split_ifs <;> simp_all

/-! ## Points of an axis -/

namespace Axis

/-- The value lies on the axis. -/
def Holds (a : Axis) (x : Int) : Prop := a.lo ≤ x ∧ x < a.hi

instance (a : Axis) (x : Int) : Decidable (a.Holds x) := inferInstanceAs (Decidable (_ ∧ _))

variable {a : Axis} {x : Int}

theorem one_le_width (h : a.Holds x) : 1 ≤ a.width := by
  unfold Holds at h
  unfold width
  omega

theorem holds_lower_iff : a.lower.Holds x ↔ a.Holds x ∧ x < a.mid := by
  simp only [Holds, lower, mid, width]
  omega

theorem holds_upper_iff : a.upper.Holds x ↔ a.Holds x ∧ a.mid ≤ x := by
  simp only [Holds, upper, mid, width]
  omega

/-- A half leaves at most half of the values beside any one of its own. -/
theorem width_lower_le (a : Axis) : a.lower.width - 1 ≤ (a.width - 1) / 2 := by
  simp only [lower, mid, width]
  omega

theorem width_upper_le (a : Axis) : a.upper.width - 1 ≤ (a.width - 1) / 2 := by
  simp only [upper, mid, width]
  omega

end Axis

namespace Box

/-! ## Points of a box -/

/-- The point of two values lies in the box. -/
def Holds (b : Box) (earliest latest : Int) : Prop := b.early.Holds earliest ∧ b.late.Holds latest

instance (b : Box) (earliest latest : Int) : Decidable (b.Holds earliest latest) :=
  inferInstanceAs (Decidable (_ ∧ _))

variable {b b' : Box} {e l : Int} {m : Move} {text : List Char}

theorem holds_square_iff {bound : Int} :
    (square bound).Holds e l ↔ (0 ≤ e ∧ e ≤ bound) ∧ 0 ≤ l ∧ l ≤ bound := by
  simp only [Holds, Axis.Holds, square, Int.lt_add_one_iff]

theorem inhabited_iff : b.inhabited = true ↔ 1 ≤ b.early.width ∧ 1 ≤ b.late.width := by
  simp [inhabited]

theorem Holds.inhabited (h : b.Holds e l) : b.inhabited = true :=
  inhabited_iff.2 ⟨Axis.one_le_width h.1, Axis.one_le_width h.2⟩

theorem settled_iff : b.settled = true ↔ b.early.width ≤ 1 ∧ b.late.width ≤ 1 := by
  simp [settled]

/-- **Of the quarters of a box, a point lies in the one that its own move leads to.** -/
theorem holds_step_iff : (b.step m).Holds e l ↔ b.Holds e l ∧ m = b.moveToward e l := by
  rcases m with ⟨ancient, recent⟩
  have hearly : (if ancient then b.early.lower else b.early.upper).Holds e ↔
      b.early.Holds e ∧ ancient = decide (e < b.early.mid) := by
    cases ancient
    · simp [Axis.holds_upper_iff]
    · simp [Axis.holds_lower_iff]
  have hlate : (if recent then b.late.upper else b.late.lower).Holds l ↔
      b.late.Holds l ∧ recent = decide (b.late.mid ≤ l) := by
    cases recent
    · simp [Axis.holds_lower_iff]
    · simp [Axis.holds_upper_iff]
  simp only [Holds, step, moveToward, hearly, hlate, Move.mk.injEq]
  tauto

theorem width_step_le (b : Box) (m : Move) :
    (b.step m).early.width - 1 ≤ (b.early.width - 1) / 2 ∧
      (b.step m).late.width - 1 ≤ (b.late.width - 1) / 2 := by
  rcases m with ⟨_ | _, _ | _⟩
  · exact ⟨b.early.width_upper_le, b.late.width_lower_le⟩
  · exact ⟨b.early.width_upper_le, b.late.width_upper_le⟩
  · exact ⟨b.early.width_lower_le, b.late.width_lower_le⟩
  · exact ⟨b.early.width_lower_le, b.late.width_upper_le⟩

/-! ## Replaying digits -/

theorem replay_cons {c : Char} :
    b.replay (c :: text) = .ok b' ↔
      ∃ m : Move, m.digit = c ∧ (b.step m).inhabited = true ∧ (b.step m).replay text = .ok b' := by
  rw [replay]
  constructor
  · intro h
    split at h
    · exact absurd h (by simp)
    · next m hm =>
      split at h
      · next hin => exact ⟨m, Move.digit_of_ofDigit? hm, hin, h⟩
      · exact absurd h (by simp)
  · rintro ⟨m, rfl, hin, hrest⟩
    rw [Move.ofDigit?_digit]
    simp only [hin, if_true]
    exact hrest

theorem replay_append {front back : List Char} :
    b.replay (front ++ back) = .ok b' ↔
      ∃ middle, b.replay front = .ok middle ∧ middle.replay back = .ok b' := by
  induction front generalizing b with
  | nil =>
      rw [List.nil_append, replay]
      constructor
      · intro h
        exact ⟨b, rfl, h⟩
      · rintro ⟨middle, hb, h⟩
        obtain rfl := Except.ok.inj hb
        exact h
  | cons c front ih =>
      rw [List.cons_append, replay_cons]
      simp only [ih, replay_cons]
      tauto

/-- Digits lead into the box. -/
theorem Holds.of_replay (h : b.replay text = .ok b') (hin : b'.Holds e l) : b.Holds e l := by
  induction text generalizing b with
  | nil =>
      obtain rfl := Except.ok.inj h
      exact hin
  | cons c text ih =>
      obtain ⟨m, -, -, hrest⟩ := replay_cons.1 h
      exact (holds_step_iff.1 (ih hrest)).1

theorem inhabited_of_replay (hb : b.inhabited = true) (h : b.replay text = .ok b') :
    b'.inhabited = true := by
  induction text generalizing b with
  | nil =>
      obtain rfl := Except.ok.inj h
      exact hb
  | cons c text ih =>
      obtain ⟨m, -, hin, hrest⟩ := replay_cons.1 h
      exact ih hin hrest

/-- Each digit halves what is left of either axis beside one value. -/
theorem width_replay_le (h : b.replay text = .ok b') :
    b'.early.width - 1 ≤ (b.early.width - 1) / 2 ^ text.length ∧
      b'.late.width - 1 ≤ (b.late.width - 1) / 2 ^ text.length := by
  -- halving twice is dividing by the product
  have hhalve : ∀ (w w' v : Int) (n : Nat), w' ≤ w / 2 → v ≤ w' / 2 ^ n → v ≤ w / 2 ^ (n + 1) := by
    intro w w' v n hw hv
    rw [pow_succ', ← Int.ediv_ediv_of_nonneg (by norm_num)]
    exact hv.trans (Int.ediv_le_ediv (by positivity) hw)
  induction text generalizing b with
  | nil =>
      obtain rfl := Except.ok.inj h
      simp
  | cons c text ih =>
      obtain ⟨m, -, -, hrest⟩ := replay_cons.1 h
      obtain ⟨hearly, hlate⟩ := b.width_step_le m
      obtain ⟨hearly', hlate'⟩ := ih hrest
      exact ⟨hhalve _ _ _ _ hearly hearly', hhalve _ _ _ _ hlate hlate'⟩

/-! ## The digits toward a point -/

/-- The digits of the moves toward a point until the box settles, at most `fuel` of them. -/
def digitsToward (earliest latest : Int) (fuel : Nat) (b : Box) : List Char :=
  (b.movesToward earliest latest fuel).map Move.digit

theorem length_digitsToward_le (e l : Int) (fuel : Nat) (b : Box) :
    (b.digitsToward e l fuel).length ≤ fuel := by
  unfold digitsToward
  rw [List.length_map]
  induction fuel generalizing b with
  | zero => simp [movesToward]
  | succ fuel ih =>
      rw [movesToward]
      split
      · simp
      · simpa using ih _

theorem digitsToward_succ (e l : Int) (fuel : Nat) (b : Box) :
    b.digitsToward e l (fuel + 1) = if b.settled then []
      else (b.moveToward e l).digit :: (b.step (b.moveToward e l)).digitsToward e l fuel := by
  unfold digitsToward
  rw [movesToward]
  split <;> rfl

theorem isDigit_digitsToward {fuel : Nat} : ∀ c ∈ b.digitsToward e l fuel, IsDigit c := by
  intro c hc
  obtain ⟨m, -, rfl⟩ := List.mem_map.1 hc
  exact isDigit_digit m

/-- **The digits toward a point in a box lead to a box around it**, which has settled unless they are as
    many as there may be. -/
theorem replay_digitsToward (fuel : Nat) (h : b.Holds e l) :
    ∃ b', b.replay (b.digitsToward e l fuel) = .ok b' ∧ b'.Holds e l ∧
      (b'.settled = true ∨ (b.digitsToward e l fuel).length = fuel) := by
  induction fuel generalizing b with
  | zero => exact ⟨b, rfl, h, .inr rfl⟩
  | succ fuel ih =>
      rw [digitsToward_succ]
      by_cases hsettled : b.settled = true
      · rw [if_pos hsettled]
        exact ⟨b, rfl, h, .inl hsettled⟩
      · rw [if_neg hsettled]
        have hstep : (b.step (b.moveToward e l)).Holds e l := holds_step_iff.2 ⟨h, rfl⟩
        obtain ⟨b', hreplay, hin, hend⟩ := ih hstep
        refine ⟨b', replay_cons.2 ⟨_, rfl, hstep.inhabited, hreplay⟩, hin, hend.imp id ?_⟩
        intro hlength
        rw [List.length_cons, hlength]

/-- **A box of no more digits than a point has is around the point exactly when its digits are the first
    of the point's.** -/
theorem prefix_digitsToward_iff {fuel : Nat} (h : b.Holds e l) (hreplay : b.replay text = .ok b')
    (hlength : text.length ≤ (b.digitsToward e l fuel).length) :
    text <+: b.digitsToward e l fuel ↔ b'.Holds e l := by
  induction text generalizing b fuel with
  | nil =>
      obtain rfl := Except.ok.inj hreplay
      simpa using h
  | cons c text ih =>
      obtain ⟨m, rfl, hin, hrest⟩ := replay_cons.1 hreplay
      -- the point has a digit left, so its box has not settled
      cases fuel with
      | zero => exact absurd hlength (by simp [digitsToward, movesToward])
      | succ fuel =>
          rw [digitsToward_succ] at hlength ⊢
          by_cases hsettled : b.settled = true
          · rw [if_pos hsettled] at hlength
            exact absurd hlength (by simp)
          · rw [if_neg hsettled] at hlength ⊢
            by_cases hm : m = b.moveToward e l
            · subst hm
              rw [List.cons_prefix_cons, and_iff_right rfl]
              exact ih (holds_step_iff.2 ⟨h, rfl⟩) hrest (Nat.le_of_succ_le_succ hlength)
            · -- another quarter does not hold the point, nor do the boxes in it
              constructor
              · intro hp
                exact absurd (Move.digit_injective (List.cons_prefix_cons.1 hp).1) hm
              · intro hholds
                exact absurd (holds_step_iff.1 (hholds.of_replay hrest)).2 hm

end Box

end FacetSearch.Chronology
