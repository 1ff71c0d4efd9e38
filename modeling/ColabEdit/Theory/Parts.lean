/-
# ColabEdit.Theory.Parts -- the equal parts of an interval

`cut a b n k` is the `k`-th of the points that cut the interval from `a` to `b`
into `n` equal parts; `InPart a b n k t` says that `t` lies strictly inside the
`k`-th part.  Different parts do not meet and are ordered as their numbers
(`InPart.lt`), and every part lies inside the interval (`InPart.between`).
-/
import Mathlib.Algebra.Order.Field.Basic
import Mathlib.Tactic.FieldSimp
import Mathlib.Tactic.Linarith
import Mathlib.Tactic.Ring

namespace ColabEdit.Theory

set_option autoImplicit false

section Parts

variable {K : Type*} [Field K] [LinearOrder K]

def cut (a b : K) (n k : ℤ) : K := a + k * (b - a) / n

/-- Strictly inside the `k`-th of `n` parts. -/
def InPart (a b : K) (n k : ℤ) (t : K) : Prop := cut a b n k < t ∧ t < cut a b n (k + 1)

omit [LinearOrder K] in
@[simp] theorem cut_zero (a b : K) (n : ℤ) : cut a b n 0 = a := by simp [cut]

variable [IsStrictOrderedRing K]

theorem cut_self (a b : K) {n : ℤ} (positive : 0 < n) : cut a b n n = b := by
  have ne : (n : K) ≠ 0 := by exact_mod_cast positive.ne'
  unfold cut
  field_simp
  ring

theorem cut_lt_cut {a b : K} (lt : a < b) {n i j : ℤ} (positive : 0 < n) (less : i < j) :
    cut a b n i < cut a b n j := by
  have n_pos : (0 : K) < n := by exact_mod_cast positive
  have steps : (i : K) < j := by exact_mod_cast less
  have := div_lt_div_of_pos_right (mul_lt_mul_of_pos_right steps (sub_pos.2 lt)) n_pos
  unfold cut
  linarith

theorem cut_le_cut {a b : K} (le : a ≤ b) {n i j : ℤ} (positive : 0 < n) (less : i ≤ j) :
    cut a b n i ≤ cut a b n j := by
  have n_pos : (0 : K) < n := by exact_mod_cast positive
  have steps : (i : K) ≤ j := by exact_mod_cast less
  have := div_le_div_of_nonneg_right (mul_le_mul_of_nonneg_right steps (sub_nonneg.2 le)) n_pos.le
  unfold cut
  linarith

theorem le_cut {a b : K} (le : a ≤ b) {n k : ℤ} (positive : 0 < n) (nonneg : 0 ≤ k) :
    a ≤ cut a b n k := by
  simpa using cut_le_cut le positive nonneg

theorem cut_le {a b : K} (le : a ≤ b) {n k : ℤ} (positive : 0 < n) (less : k ≤ n) :
    cut a b n k ≤ b := by
  simpa [cut_self a b positive] using cut_le_cut le positive less

theorem InPart.lt {a b t u : K} {n i j : ℤ} (ordered : a ≤ b) (positive : 0 < n) (less : i < j)
    (left : InPart a b n i t) (right : InPart a b n j u) : t < u :=
  calc
    t < cut a b n (i + 1) := left.2
    _ ≤ cut a b n j := cut_le_cut ordered positive less
    _ < u := right.1

theorem InPart.ne {a b t u : K} {n i j : ℤ} (ordered : a ≤ b) (positive : 0 < n) (differ : i ≠ j)
    (left : InPart a b n i t) (right : InPart a b n j u) : t ≠ u := by
  rcases differ.lt_or_gt with less | greater
  · exact (left.lt ordered positive less right).ne
  · exact (right.lt ordered positive greater left).ne'

theorem InPart.between {a b t : K} {n k : ℤ} (ordered : a ≤ b) (nonneg : 0 ≤ k) (less : k < n)
    (inPart : InPart a b n k t) : a < t ∧ t < b :=
  ⟨(le_cut ordered (by omega) nonneg).trans_lt inPart.1,
    inPart.2.trans_le (cut_le ordered (by omega) (by omega))⟩

/-- The middle of a smaller interval inside a part lies in the part. -/
theorem InPart.middle {a b lo hi : K} {n k : ℤ} (below : cut a b n k ≤ lo) (less : lo < hi)
    (above : hi ≤ cut a b n (k + 1)) : InPart a b n k ((lo + hi) / 2) :=
  ⟨below.trans_lt (left_lt_add_div_two.2 less), (add_div_two_lt_right.2 less).trans_le above⟩

end Parts

end ColabEdit.Theory
