/-
# ColabEdit.Theory.Rounding -- rounding to a grid of fractions

The grid of `s` has the numbers `m / s` (`OnGrid`); decimal places are the grid of
a power of ten.  `halfUp s` rounds to the nearest number of the grid, and away
from zero where two are equally near.  It keeps the grid, is monotone from zero
on, and moves nothing by more than half a unit.

The last lemma is about bisection: the rounded middle of two grid numbers is
strictly between them exactly if they are two units apart (`middle_between_iff`).
-/
import Mathlib.Algebra.Order.Floor.Ring
import Mathlib.Algebra.Ring.Parity
import Mathlib.Data.Rat.Floor
import Mathlib.Tactic.FieldSimp
import Mathlib.Tactic.Linarith
import Mathlib.Tactic.Positivity
import Mathlib.Tactic.Ring

namespace ColabEdit.Theory

set_option autoImplicit false

def OnGrid (s : ℕ) (q : ℚ) : Prop := ∃ m : ℤ, q = m / s

/-- Round half up. -/
def halfUp (s : ℕ) (q : ℚ) : ℚ :=
  if 0 ≤ q then (⌊q * s + 1 / 2⌋ : ℤ) / s else -((⌊-q * s + 1 / 2⌋ : ℤ) / s)

namespace OnGrid

variable {s : ℕ} {q q' : ℚ}

theorem zero : OnGrid s 0 := ⟨0, by simp⟩

theorem add (grid : OnGrid s q) (grid' : OnGrid s q') : OnGrid s (q + q') := by
  obtain ⟨m, rfl⟩ := grid
  obtain ⟨m', rfl⟩ := grid'
  exact ⟨m + m', by push_cast; ring⟩

theorem sub (grid : OnGrid s q) (grid' : OnGrid s q') : OnGrid s (q - q') := by
  obtain ⟨m, rfl⟩ := grid
  obtain ⟨m', rfl⟩ := grid'
  exact ⟨m - m', by push_cast; ring⟩

theorem intCast (positive : 0 < s) (n : ℤ) : OnGrid s n := by
  have ne : (s : ℚ) ≠ 0 := by positivity
  exact ⟨n * s, by push_cast; field_simp⟩

/-- Two grid numbers are equal or a unit apart. -/
theorem unit_le (positive : 0 < s) (grid : OnGrid s q) (grid' : OnGrid s q') (lt : q < q') :
    q + 1 / s ≤ q' := by
  have pos : (0 : ℚ) < s := by positivity
  obtain ⟨m, rfl⟩ := grid
  obtain ⟨m', rfl⟩ := grid'
  rw [div_lt_div_iff_of_pos_right pos] at lt
  rw [← add_div, div_le_div_iff_of_pos_right pos]
  exact_mod_cast Int.add_one_le_of_lt (by exact_mod_cast lt)

end OnGrid

section HalfUp

variable {s : ℕ} {q q' : ℚ}

theorem halfUp_onGrid (s : ℕ) (q : ℚ) : OnGrid s (halfUp s q) := by
  unfold halfUp
  split
  · exact ⟨_, rfl⟩
  · exact ⟨-⌊-q * s + 1 / 2⌋, by push_cast; ring⟩

theorem halfUp_of_nonneg (nonneg : 0 ≤ q) : halfUp s q = (⌊q * s + 1 / 2⌋ : ℤ) / s := if_pos nonneg

/-- A grid number is its own rounding. -/
theorem halfUp_of_onGrid (positive : 0 < s) (grid : OnGrid s q) : halfUp s q = q := by
  have ne : (s : ℚ) ≠ 0 := by positivity
  have floor : ∀ m : ℤ, ⌊(m : ℚ) / s * s + 1 / 2⌋ = m := fun m => by
    rw [div_mul_cancel₀ _ ne, Int.floor_intCast_add]
    norm_num
  obtain ⟨m, rfl⟩ := grid
  unfold halfUp
  split
  · rw [floor]
  · rw [show -((m : ℚ) / s) = ((-m : ℤ) : ℚ) / s by push_cast; ring, floor]
    push_cast
    ring

theorem halfUp_mono (positive : 0 < s) (nonneg : 0 ≤ q) (le : q ≤ q') : halfUp s q ≤ halfUp s q' := by
  have pos : (0 : ℚ) < s := by positivity
  rw [halfUp_of_nonneg nonneg, halfUp_of_nonneg (nonneg.trans le), div_le_div_iff_of_pos_right pos]
  have floors : ⌊q * s + 1 / 2⌋ ≤ ⌊q' * s + 1 / 2⌋ := Int.floor_le_floor (by nlinarith)
  exact_mod_cast floors

theorem halfUp_nonneg (positive : 0 < s) (nonneg : 0 ≤ q) : 0 ≤ halfUp s q := by
  rw [← halfUp_of_onGrid positive OnGrid.zero]
  exact halfUp_mono positive le_rfl nonneg

/-- Rounding does not cross a grid number. -/
theorem halfUp_le (positive : 0 < s) (nonneg : 0 ≤ q) (grid : OnGrid s q') (le : q ≤ q') :
    halfUp s q ≤ q' := by
  rw [← halfUp_of_onGrid positive grid]
  exact halfUp_mono positive nonneg le

theorem halfUp_close (positive : 0 < s) (nonneg : 0 ≤ q) :
    q - 1 / (2 * s) < halfUp s q ∧ halfUp s q ≤ q + 1 / (2 * s) := by
  have pos : (0 : ℚ) < s := by positivity
  have low : q * s + 1 / 2 - 1 < ⌊q * s + 1 / 2⌋ := Int.sub_one_lt_floor _
  have high : (⌊q * s + 1 / 2⌋ : ℚ) ≤ q * s + 1 / 2 := Int.floor_le _
  rw [halfUp_of_nonneg nonneg]
  constructor
  · rw [lt_div_iff₀ pos, sub_mul, div_mul_eq_mul_div, one_mul, div_mul_cancel_right₀ pos.ne']
    linarith
  · rw [div_le_iff₀ pos, add_mul, div_mul_eq_mul_div, one_mul, div_mul_cancel_right₀ pos.ne']
    linarith

/-- The middle of two grid numbers rounds up. -/
theorem middle_le_halfUp (positive : 0 < s) (grid : OnGrid s q) (nonneg : 0 ≤ q) : q / 2 ≤ halfUp s (q / 2) := by
  have pos : (0 : ℚ) < s := by positivity
  obtain ⟨m, rfl⟩ := grid
  have half : 0 ≤ (m : ℚ) / s / 2 := by positivity
  obtain ⟨close, -⟩ := halfUp_close positive half
  obtain ⟨k, is⟩ := halfUp_onGrid s ((m : ℚ) / s / 2)
  rw [is] at close ⊢
  -- in units of half a grid step both sides are whole numbers
  have lt : m - 1 < 2 * k := by
    have : (m : ℚ) - 1 < 2 * k := by
      have scaled := (mul_lt_mul_iff_left₀ (show (0 : ℚ) < 2 * s by positivity)).2 close
      field_simp at scaled
      linarith
    exact_mod_cast this
  have le : (m : ℚ) ≤ 2 * k := by exact_mod_cast (show m ≤ 2 * k by omega)
  rw [div_div, div_le_div_iff₀ (by positivity) pos]
  nlinarith

/-- The rounded half reaches a grid number with half a unit less. -/
theorem le_halfUp_half_iff (positive : 0 < s) (grid : OnGrid s q) (nonneg : 0 ≤ q) (grid' : OnGrid s q') :
    q' ≤ halfUp s (q / 2) ↔ 2 * q' ≤ q + 1 / s := by
  have half : (1 : ℚ) / (2 * s) = 1 / s / 2 := by ring
  have close := (halfUp_close positive (div_nonneg nonneg zero_le_two)).2
  have up := middle_le_halfUp positive grid nonneg
  rw [half] at close
  constructor
  · intro le
    linarith
  · intro le
    by_contra less
    have unit := (halfUp_onGrid s (q / 2)).unit_le positive grid' (not_le.1 less)
    have pos : (0 : ℚ) < 1 / s := by positivity
    linarith

/-- The rounded half vanishes only for zero. -/
theorem halfUp_half_eq_zero_iff (positive : 0 < s) (grid : OnGrid s q) (nonneg : 0 ≤ q) :
    halfUp s (q / 2) = 0 ↔ q = 0 := by
  constructor
  · intro zero
    have up := middle_le_halfUp positive grid nonneg
    rw [zero] at up
    linarith
  · rintro rfl
    rw [zero_div, halfUp_of_onGrid positive .zero]

/-- The middle between a number and 1 leaves half of the units between them. -/
theorem halfUp_middle_one (positive : 0 < s) {n : ℕ} (le : n ≤ s) :
    halfUp s ((1 - n / s + 1) / 2) = 1 - (n / 2 : ℕ) / s := by
  have pos : (0 : ℚ) < s := by positivity
  have small : (n : ℚ) / s ≤ 1 := (div_le_one pos).2 (by exact_mod_cast le)
  have floor : ⌊(1 - (n : ℚ) / s + 1) / 2 * s + 1 / 2⌋ = (s : ℤ) - (n / 2 : ℕ) := by
    have scaled : (1 - (n : ℚ) / s + 1) / 2 * s = s - n / 2 := by field_simp; ring
    rw [scaled, Int.floor_eq_iff]
    rcases Nat.even_or_odd' n with ⟨h, rfl | rfl⟩
    · rw [Nat.mul_div_cancel_left _ two_pos]
      push_cast
      constructor <;> linarith
    · rw [show (2 * h + 1) / 2 = h by omega]
      push_cast
      constructor <;> linarith
  rw [halfUp_of_nonneg (by linarith), floor, Int.cast_sub, Int.cast_natCast, Int.cast_natCast, sub_div,
    div_self pos.ne']

/-- **The rounded middle lies strictly between two grid numbers exactly if they
are two units apart.** -/
theorem middle_between_iff (positive : 0 < s) (grid : OnGrid s q) (grid' : OnGrid s q') (nonneg : 0 ≤ q) :
    q < halfUp s ((q + q') / 2) ∧ halfUp s ((q + q') / 2) < q' ↔ q + 2 / s ≤ q' := by
  have pos : (0 : ℚ) < s := by positivity
  have unit : (0 : ℚ) < 1 / s := by positivity
  have two : (2 : ℚ) / s = 1 / s + 1 / s := by ring
  constructor
  · rintro ⟨above, below⟩
    have first := grid.unit_le positive (halfUp_onGrid s _) above
    have second := (halfUp_onGrid s _).unit_le positive grid' below
    linarith
  · intro apart
    have sum : 0 ≤ q + q' := by linarith
    have up := middle_le_halfUp positive (grid.add grid') sum
    have close := (halfUp_close positive (div_nonneg sum zero_le_two)).2
    have half : (1 : ℚ) / (2 * s) = 1 / s / 2 := by ring
    constructor
    · linarith
    · linarith

end HalfUp

end ColabEdit.Theory
