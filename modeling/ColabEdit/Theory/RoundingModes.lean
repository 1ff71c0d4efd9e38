/-
# ColabEdit.Theory.RoundingModes -- four ways to round, and what the digits tell

`Mode.round m s` rounds to the grid of `s`: the magnitude goes to the grid number
below it, or to the next one if `Mode.Up` says so.  `halfUp` of
`ColabEdit.Theory.Rounding` is one of the modes (`round_halfUp`).

A digit list cut at a place gives the grid number below and the fraction that is
left (`cut_floor`).  The first digit behind the cut decides whether the fraction
reaches a half (`half_le_iff`), and only the rest decides whether it is one
(`eq_half_iff`).
-/
import ColabEdit.Theory.Radix
import ColabEdit.Theory.Rounding

namespace ColabEdit.Theory

open Radix (Below number reading)

set_option autoImplicit false

inductive Mode
  | down
  | halfUp
  | halfEven
  | up

namespace Mode

/-- Whether `n + f`, with `0 ≤ f < 1`, is rounded to `n + 1`. -/
def Up : Mode → ℤ → ℚ → Prop
  | down, _, _ => False
  | halfUp, _, f => 1 / 2 ≤ f
  | halfEven, n, f => 1 / 2 < f ∨ f = 1 / 2 ∧ ¬ Even n
  | up, _, f => f ≠ 0

instance (m : Mode) (n : ℤ) (f : ℚ) : Decidable (m.Up n f) := by
  cases m <;> unfold Up <;> infer_instance

/-- The rounding of a number that is not negative. -/
def magnitude (m : Mode) (s : ℕ) (q : ℚ) : ℚ :=
  (⌊q * s⌋ + if m.Up ⌊q * s⌋ (Int.fract (q * s)) then 1 else 0) / s

def round (m : Mode) (s : ℕ) (q : ℚ) : ℚ := if 0 ≤ q then m.magnitude s q else -m.magnitude s (-q)

variable {m : Mode} {s : ℕ} {q : ℚ}

theorem not_up_zero (m : Mode) (n : ℤ) : ¬ m.Up n 0 := by
  cases m <;> norm_num [Up]

/-- A grid number is its own rounding. -/
theorem magnitude_of_onGrid (positive : 0 < s) (grid : OnGrid s q) : m.magnitude s q = q := by
  have ne : (s : ℚ) ≠ 0 := by positivity
  obtain ⟨n, rfl⟩ := grid
  unfold magnitude
  rw [div_mul_cancel₀ _ ne, Int.floor_intCast, Int.fract_intCast, if_neg (not_up_zero m n), add_zero]

theorem magnitude_zero (positive : 0 < s) : m.magnitude s 0 = 0 := magnitude_of_onGrid positive .zero

theorem round_of_onGrid (positive : 0 < s) (grid : OnGrid s q) : m.round s q = q := by
  obtain ⟨n, is⟩ := grid
  have flipped : OnGrid s (-q) := ⟨-n, by rw [is]; push_cast; ring⟩
  unfold round
  split
  · exact magnitude_of_onGrid positive ⟨n, is⟩
  · rw [magnitude_of_onGrid positive flipped, neg_neg]

/-- Rounding is symmetric. -/
theorem round_signed (positive : 0 < s) {sign : ℤ} (unit : sign = 1 ∨ sign = -1) (nonneg : 0 ≤ q) :
    m.round s (sign * q) = sign * m.magnitude s q := by
  unfold round
  rcases unit with rfl | rfl
  · rw [Int.cast_one, one_mul, one_mul, if_pos nonneg]
  · rw [Int.cast_neg, Int.cast_one, neg_one_mul, neg_one_mul, neg_neg]
    rcases nonneg.eq_or_lt with rfl | greater
    · rw [neg_zero, if_pos le_rfl, magnitude_zero positive, neg_zero]
    · rw [if_neg (by linarith)]

/-- **Half up is one of the modes.** -/
theorem round_halfUp (s : ℕ) (q : ℚ) : Mode.halfUp.round s q = ColabEdit.Theory.halfUp s q := by
  have floors : ∀ r : ℚ, (⌊r⌋ + if 1 / 2 ≤ Int.fract r then 1 else 0 : ℚ) = (⌊r + 1 / 2⌋ : ℤ) := by
    intro r
    have whole := Int.floor_add_fract r
    have nonneg := Int.fract_nonneg r
    have less := Int.fract_lt_one r
    by_cases half : 1 / 2 ≤ Int.fract r
    · have : ⌊r + 1 / 2⌋ = ⌊r⌋ + 1 := by
        rw [Int.floor_eq_iff]
        push_cast
        constructor <;> linarith
      rw [if_pos half, this]
      push_cast
      ring
    · have : ⌊r + 1 / 2⌋ = ⌊r⌋ := by
        rw [Int.floor_eq_iff]
        constructor <;> linarith [not_le.1 half]
      rw [if_neg half, this, add_zero]
  unfold round magnitude ColabEdit.Theory.halfUp Up
  rw [floors, floors]

end Mode

namespace Radix

variable {b : ℕ} {l : List ℕ} {i : ℕ} {t : ℚ}

/-- What stands behind a cut is less than one. -/
theorem behind_lt_one (base : 1 < b) (below : Below b l) (small : t < (b : ℚ) ^ (-l.length : ℤ)) :
    reading b l (-1) + t < 1 := by
  have positive : 0 < b := by omega
  have power : (0 : ℚ) < (b : ℚ) ^ (-l.length : ℤ) := by positivity
  have whole : (number b l : ℚ) + 1 ≤ (b : ℚ) ^ (l.length : ℤ) := by
    rw [zpow_natCast]
    exact_mod_cast number_lt base below
  have unit : (b : ℚ) ^ (l.length : ℤ) * (b : ℚ) ^ (-l.length : ℤ) = 1 := by
    rw [zpow_neg]
    exact mul_inv_cancel₀ (by positivity)
  rw [reading_eq positive, show (-1 : ℤ) + 1 - l.length = -l.length by ring]
  nlinarith

/-- **A cut leaves the floor in front and the fraction behind.** -/
theorem cut_floor (base : 1 < b) (below : Below b l) (inside : i ≤ l.length) (nonneg : 0 ≤ t)
    (small : t < (b : ℚ) ^ (i - l.length : ℤ)) :
    ⌊reading b l (i - 1) + t⌋ = number b (l.take i) ∧
      Int.fract (reading b l (i - 1) + t) = reading b (l.drop i) (-1) + t := by
  have positive : 0 < b := by omega
  have length : (l.take i).length = i := List.length_take_of_le inside
  have split : reading b l (i - 1) = number b (l.take i) + reading b (l.drop i) (-1) := by
    conv_lhs => rw [← List.take_append_drop i l]
    rw [reading_append, reading_eq positive (l.take i), length, show (i : ℤ) - 1 + 1 - i = 0 by ring,
      zpow_zero, mul_one, show (i : ℤ) - 1 - i = -1 by ring]
  have less := behind_lt_one (t := t) base (below.sublist (List.drop_sublist i l)) (by
    rw [List.length_drop, Nat.cast_sub inside, neg_sub]
    exact small)
  have nonneg' := reading_nonneg b (l.drop i) (-1)
  have floor : ⌊reading b l (i - 1) + t⌋ = number b (l.take i) := by
    rw [Int.floor_eq_iff, split]
    push_cast
    constructor <;> linarith
  refine ⟨floor, ?_⟩
  rw [Int.fract, floor, split]
  push_cast
  ring

/-- Few decimals. -/
theorem reading_onGrid (positive : 0 < b) {e : ℤ} {k : ℕ} (few : (l.length : ℤ) ≤ e + k + 1) :
    OnGrid (b ^ k) (reading b l e) := by
  have ne : (b : ℚ) ≠ 0 := by positivity
  obtain ⟨j, place⟩ : ∃ j : ℕ, e + 1 - l.length = (j : ℤ) - k := ⟨(e + k + 1 - l.length).toNat, by omega⟩
  refine ⟨number b l * b ^ j, ?_⟩
  rw [reading_eq positive, place, zpow_sub₀ ne, zpow_natCast, zpow_natCast]
  push_cast
  ring

section Half

variable {d : ℕ} {m : List ℕ}

/-- A tenth behind the first digit. -/
theorem rest_lt (below : Below 10 (d :: m)) (small : t < (10 : ℚ) ^ (-(d :: m).length : ℤ)) :
    reading 10 m (-2) + t < 1 / 10 := by
  have scaled : reading 10 m (-1) = 10 * reading 10 m (-2) := by
    rw [reading_eq (by decide), reading_eq (by decide), show (-1 : ℤ) + 1 - m.length = -2 + 1 - m.length + 1 by ring,
      zpow_add_one₀ (by norm_num)]
    push_cast
    ring
  have less := behind_lt_one (b := 10) (t := 10 * t) (by decide) below.tail (by
    rw [List.length_cons, Nat.cast_add, Nat.cast_one, neg_add, zpow_add₀ (by norm_num), zpow_neg_one] at small
    push_cast
    linarith)
  linarith

/-- The first digit tells whether a half is reached. -/
theorem half_le_iff (below : Below 10 (d :: m)) (nonneg : 0 ≤ t)
    (small : t < (10 : ℚ) ^ (-(d :: m).length : ℤ)) : 1 / 2 ≤ reading 10 (d :: m) (-1) + t ↔ 5 ≤ d := by
  have rest := rest_lt below small
  have nonneg' := reading_nonneg 10 m (-2)
  rw [reading_cons, show (-1 : ℤ) - 1 = -2 by ring, zpow_neg_one]
  push_cast
  constructor
  · intro half
    have : (4 : ℚ) < d := by linarith
    exact_mod_cast this
  · intro five
    have : (5 : ℚ) ≤ d := by exact_mod_cast five
    linarith

/-- It is a half exactly if that digit is 5 and nothing follows. -/
theorem eq_half_iff (below : Below 10 (d :: m)) (nonneg : 0 ≤ t)
    (small : t < (10 : ℚ) ^ (-(d :: m).length : ℤ)) :
    reading 10 (d :: m) (-1) + t = 1 / 2 ↔ d = 5 ∧ number 10 m = 0 ∧ t = 0 := by
  have rest := rest_lt below small
  have nonneg' := reading_nonneg 10 m (-2)
  have reach := half_le_iff below nonneg small
  have more : number 10 m = 0 ↔ reading 10 m (-2) = 0 := by
    have power : (10 : ℚ) ^ (-2 + 1 - m.length : ℤ) ≠ 0 := by positivity
    rw [reading_eq (by decide), mul_eq_zero, Nat.cast_eq_zero]
    push_cast
    exact (or_iff_left power).symm
  rw [reading_cons, show (-1 : ℤ) - 1 = -2 by ring, zpow_neg_one] at reach ⊢
  push_cast at reach ⊢
  constructor
  · intro half
    have five : 5 ≤ d := reach.1 half.ge
    have le : (d : ℚ) ≤ 5 := by linarith
    have equal : d = 5 := le_antisymm (by exact_mod_cast le) five
    rw [equal] at half
    push_cast at half
    exact ⟨equal, more.2 (by linarith), by linarith⟩
  · rintro ⟨rfl, none, rfl⟩
    rw [more.1 none]
    norm_num

end Half

end Radix

end ColabEdit.Theory
