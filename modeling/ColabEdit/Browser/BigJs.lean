/-
# ColabEdit.Browser.BigJs -- the digit arrays of `big.js`

A number of `app/static/js/big.js` is a sign `s`, an exponent `e` and the array
`c` of its decimal digits; the first digit stands at the place `10 ^ e`.  The
digits are natural numbers here: every subtraction of the source takes a smaller
digit from a larger one (`ColabEdit.Browser.BigSum`).

In the source an exponent is a double, exact below `2 ^ 53`, and an array has
fewer than `2 ^ 32` places, or it throws a `RangeError`.  The model is faithful
where neither bound is met: numbers with at most `10 ^ 6` digits and exponents
from `-10 ^ 6` to `10 ^ 6`, the range of `MAX_DP` and `MAX_POWER`, stay far below
both, and so do their sums, products, quotients and roundings.

`Canonical` is the form every function of the file returns: digits below 10, no
zero at either end, and zero itself as `[0]` with exponent 0, of either sign.  A
number different from zero has one canonical form (`Canonical.unique`).

`cmp_eq`: `cmp`, which looks at signs, exponents, digits and lengths, is the order
of the values.
-/
import ColabEdit.Theory.Radix
import Mathlib.Data.Sign.Basic

namespace ColabEdit.Browser

open ColabEdit.Theory
open Radix (Below Trimmed number reading)

set_option autoImplicit false

/-- The fields of a `Big`. -/
structure BigJs where
  s : ℤ
  e : ℤ
  c : List ℕ
  deriving DecidableEq

namespace BigJs

/-- `!x.c[0]` -/
abbrev IsZero (x : BigJs) : Prop := x.c.getD 0 0 = 0

/-- `new Big(s * 0)`: `parse` keeps the sign of zero. -/
def zero (s : ℤ) : BigJs := ⟨s, 0, [0]⟩

def value (x : BigJs) : ℚ := x.s * reading 10 x.c x.e

structure Canonical (x : BigJs) : Prop where
  sign : x.s = 1 ∨ x.s = -1
  below : Below 10 x.c
  shape : x.c = [0] ∧ x.e = 0 ∨ Trimmed x.c

/-! ## The canonical form -/

section Canonical

variable {x y : BigJs}

theorem zero_canonical {s : ℤ} (sign : s = 1 ∨ s = -1) : (zero s).Canonical :=
  ⟨sign, .cons (by decide) .nil, .inl ⟨rfl, rfl⟩⟩

@[simp] theorem zero_value (s : ℤ) : (zero s).value = 0 := by simp [value, zero]

theorem Canonical.of_isZero (canonical : x.Canonical) (isZero : x.IsZero) : x.c = [0] ∧ x.e = 0 := by
  refine canonical.shape.resolve_right fun trimmed => ?_
  obtain ⟨d, m, shape, first⟩ := trimmed.first
  rw [IsZero, shape] at isZero
  exact first isZero

theorem Canonical.trimmed (canonical : x.Canonical) (some : ¬ x.IsZero) : Trimmed x.c :=
  canonical.shape.resolve_left fun none => some (by rw [IsZero, none.1]; rfl)

theorem Canonical.isZero_iff (canonical : x.Canonical) : x.IsZero ↔ x.value = 0 := by
  constructor
  · intro isZero
    have shape := canonical.of_isZero isZero
    rw [value, shape.1]
    simp [reading]
  · intro none
    by_contra some
    obtain ⟨d, m, shape, first⟩ := (canonical.trimmed some).first
    have large : (10 : ℕ) ^ x.e ≤ reading 10 x.c x.e := shape ▸ Radix.pow_le_reading first
    have power : (0 : ℚ) < (10 : ℕ) ^ x.e := by positivity
    rcases mul_eq_zero.1 none with sign | digits
    · rcases canonical.sign with plus | minus
      · rw [plus] at sign
        norm_num at sign
      · rw [minus] at sign
        norm_num at sign
    · linarith

theorem Canonical.c_ne_nil (canonical : x.Canonical) : x.c ≠ [] := by
  rcases canonical.shape with ⟨digits, -⟩ | trimmed
  · rw [digits]
    exact List.cons_ne_nil _ _
  · obtain ⟨d, m, shape, -⟩ := trimmed.first
    rw [shape]
    exact List.cons_ne_nil _ _

theorem Canonical.pow_le (canonical : x.Canonical) (some : ¬ x.IsZero) : (10 : ℚ) ^ x.e ≤ reading 10 x.c x.e := by
  obtain ⟨d, m, shape, first⟩ := (canonical.trimmed some).first
  rw [shape]
  exact_mod_cast Radix.pow_le_reading (b := 10) first

theorem Canonical.abs_value (canonical : x.Canonical) : |x.value| = reading 10 x.c x.e := by
  have nonneg := Radix.reading_nonneg 10 x.c x.e
  rcases canonical.sign with sign | sign
  · rw [value, sign, Int.cast_one, one_mul, abs_of_nonneg nonneg]
  · rw [value, sign, Int.cast_neg, Int.cast_one, neg_one_mul, abs_neg, abs_of_nonneg nonneg]

/-- The sign of a number that is not zero. -/
theorem Canonical.neg_iff (canonical : x.Canonical) (some : x.value ≠ 0) : x.s = -1 ↔ x.value < 0 := by
  have nonneg := Radix.reading_nonneg 10 x.c x.e
  rcases canonical.sign with sign | sign
  · have is : x.value = reading 10 x.c x.e := by rw [value, sign, Int.cast_one, one_mul]
    exact ⟨fun minus => by omega, fun less => absurd less (by rw [is]; exact not_lt.2 nonneg)⟩
  · have is : x.value = -reading 10 x.c x.e := by rw [value, sign, Int.cast_neg, Int.cast_one, neg_one_mul]
    refine ⟨fun _ => lt_of_le_of_ne ?_ some, fun _ => sign⟩
    rw [is]
    linarith

/-- **One canonical form for each number but zero.** -/
theorem Canonical.unique (canonical : x.Canonical) (canonical' : y.Canonical) (same : x.value = y.value) :
    x.c = y.c ∧ x.e = y.e ∧ (x.value ≠ 0 → x.s = y.s) := by
  by_cases zero : x.value = 0
  · have left := canonical.of_isZero (canonical.isZero_iff.2 zero)
    have right := canonical'.of_isZero (canonical'.isZero_iff.2 (same ▸ zero))
    exact ⟨left.1.trans right.1.symm, left.2.trans right.2.symm, fun some => absurd zero some⟩
  · have zero' : y.value ≠ 0 := same ▸ zero
    have readings : reading 10 x.c x.e = reading 10 y.c y.e := by
      rw [← canonical.abs_value, ← canonical'.abs_value, same]
    obtain ⟨digits, exponent⟩ := Radix.reading_unique (by decide) canonical.below canonical'.below
      (canonical.trimmed fun none => zero (canonical.isZero_iff.1 none))
      (canonical'.trimmed fun none => zero' (canonical'.isZero_iff.1 none)) readings
    refine ⟨digits, exponent, fun _ => ?_⟩
    have signs : x.s = -1 ↔ y.s = -1 := by
      rw [canonical.neg_iff zero, canonical'.neg_iff zero', same]
    have left := canonical.sign
    have right := canonical'.sign
    omega

/-- A canonical number from digits that start with a digit other than zero. -/
theorem canonical_trim {s e : ℤ} {d : ℕ} {m : List ℕ} (sign : s = 1 ∨ s = -1) (below : Below 10 (d :: m))
    (first : d ≠ 0) : (⟨s, e, (d :: m).rdropWhile (· = 0)⟩ : BigJs).Canonical :=
  ⟨sign, below.sublist (List.rdropWhile_prefix _ _).sublist, .inr (Radix.trimmed_rdropWhile first)⟩

theorem value_trim (s e : ℤ) (l : List ℕ) :
    (⟨s, e, l.rdropWhile (· = 0)⟩ : BigJs).value = s * reading 10 l e := by
  rw [value, Radix.reading_rdropWhile]

end Canonical

/-! ## Comparison -/

/-- `greater ^ xNeg ? 1 : -1` -/
def verdict (greater xNeg : Bool) : ℤ := if greater ^^ xNeg then 1 else -1

/-- The digits from one index on, and the lengths where an array has ended. -/
def cmpDigits (xNeg : Bool) : List ℕ → List ℕ → ℤ
  | d :: xc, d' :: yc => if d ≠ d' then verdict (d > d') xNeg else cmpDigits xNeg xc yc
  | xc, yc => if xc.length = yc.length then 0 else verdict (xc.length > yc.length) xNeg

def cmp (x y : BigJs) : ℤ :=
  if x.IsZero ∨ y.IsZero then
    if x.IsZero then if y.IsZero then 0 else -y.s else x.s
  else if x.s ≠ y.s then x.s
  else if x.e ≠ y.e then verdict (x.e > y.e) (x.s < 0)
  else cmpDigits (x.s < 0) x.c y.c

section Comparison

variable {x y : BigJs}

theorem cmpDigits_append (xNeg : Bool) (p xc yc : List ℕ) :
    cmpDigits xNeg (p ++ xc) (p ++ yc) = cmpDigits xNeg xc yc := by
  induction p with
  | nil => rfl
  | cons d p ih => rw [List.cons_append, List.cons_append, cmpDigits, if_neg (not_not.2 rfl), ih]

/-- The larger one of two readings under the sign `s`. -/
theorem verdict_eq {s : ℤ} (sign : s = 1 ∨ s = -1) {p q : ℚ} (greater : Bool)
    (larger : greater = true → q < p) (smaller : greater = false → p < q) :
    verdict greater (s < 0) = (SignType.sign (s * (p - q)) : ℤ) := by
  rcases sign with rfl | rfl
  · rw [Int.cast_one, one_mul]
    cases greater with
    | true => rw [sign_pos (sub_pos.2 (larger rfl))]; rfl
    | false => rw [sign_neg (sub_neg.2 (smaller rfl))]; rfl
  · rw [Int.cast_neg, Int.cast_one, neg_one_mul, neg_sub]
    cases greater with
    | true => rw [sign_neg (sub_neg.2 (larger rfl))]; rfl
    | false => rw [sign_pos (sub_pos.2 (smaller rfl))]; rfl

/-- The digits of two trimmed arrays at one exponent compare like their readings. -/
theorem cmpDigits_eq {s e : ℤ} {xc yc : List ℕ} (sign : s = 1 ∨ s = -1) (below : Below 10 xc)
    (below' : Below 10 yc) (trimmed : Trimmed xc) (trimmed' : Trimmed yc) :
    cmpDigits (s < 0) xc yc = (SignType.sign (s * (reading 10 xc e - reading 10 yc e)) : ℤ) := by
  rcases Radix.first_difference xc yc with ⟨m, rfl⟩ | ⟨d, m, rfl⟩ | ⟨p, d, m, d', m', rfl, rfl, differ⟩
  · have is := cmpDigits_append (s < 0) xc [] m
    rw [List.append_nil] at is
    rw [is]
    cases m with
    | nil => simp [cmpDigits]
    | cons d m =>
        have less := Radix.reading_lt_of_length (b := 10) (e := e) (p := xc) (by decide)
          (trimmed'.number_right (List.cons_ne_nil d m))
        exact verdict_eq sign false nofun fun _ => less
  · have is := cmpDigits_append (s < 0) yc (d :: m) []
    have less := Radix.reading_lt_of_length (b := 10) (e := e) (p := yc) (by decide)
      (trimmed.number_right (List.cons_ne_nil d m))
    rw [List.append_nil] at is
    rw [is]
    exact verdict_eq sign true (fun _ => less) nofun
  · rw [cmpDigits_append, cmpDigits, if_pos differ]
    refine verdict_eq sign _ (fun greater => ?_) fun not => ?_
    · exact Radix.reading_lt_of_digit (by decide) below' (of_decide_eq_true greater)
    · exact Radix.reading_lt_of_digit (by decide) below
        (lt_of_le_of_ne (not_lt.1 (of_decide_eq_false not)) differ)

theorem Canonical.s_eq (canonical : x.Canonical) (some : x.value ≠ 0) : x.s = (SignType.sign x.value : ℤ) := by
  rcases lt_or_gt_of_ne some with less | greater
  · rw [sign_neg less, (canonical.neg_iff some).2 less]
    rfl
  · rw [sign_pos greater]
    exact canonical.sign.resolve_right fun minus => greater.not_gt ((canonical.neg_iff some).1 minus)

/-- **`cmp` is the order of the values.** -/
theorem cmp_eq (canonical : x.Canonical) (canonical' : y.Canonical) :
    x.cmp y = (SignType.sign (x.value - y.value) : ℤ) := by
  unfold cmp
  by_cases none : x.IsZero
  · rw [if_pos (.inl none), if_pos none, canonical.isZero_iff.1 none, zero_sub]
    by_cases none' : y.IsZero
    · rw [if_pos none', canonical'.isZero_iff.1 none', neg_zero, sign_zero]
      rfl
    · rw [if_neg none', canonical'.s_eq fun zero => none' (canonical'.isZero_iff.2 zero), Left.sign_neg]
      exact (SignType.coe_neg _).symm
  have some : x.value ≠ 0 := fun zero => none (canonical.isZero_iff.2 zero)
  by_cases none' : y.IsZero
  · rw [if_pos (.inr none'), if_neg none, canonical'.isZero_iff.1 none', sub_zero]
    exact canonical.s_eq some
  have some' : y.value ≠ 0 := fun zero => none' (canonical'.isZero_iff.2 zero)
  rw [if_neg (not_or.2 ⟨none, none'⟩)]
  by_cases differ : x.s ≠ y.s
  · -- the sign of `x` is the sign of the difference
    rw [if_pos differ]
    have left := canonical.neg_iff some
    have right := canonical'.neg_iff some'
    rcases canonical.sign with plus | minus
    · have minus' : y.s = -1 := canonical'.sign.resolve_left fun plus' => differ (plus.trans plus'.symm)
      have above : ¬ x.value < 0 := fun less => by
        have := left.2 less
        omega
      rw [plus, sign_pos (by linarith [right.1 minus'])]
      rfl
    · have above : ¬ y.value < 0 := fun less => by
        have := right.2 less
        omega
      rw [minus, sign_neg (by linarith [left.1 minus])]
      rfl
  rw [if_neg differ]
  have same : x.s = y.s := not_not.1 differ
  have trimmed := canonical.trimmed none
  have trimmed' := canonical'.trimmed none'
  have values : x.value - y.value = x.s * (reading 10 x.c x.e - reading 10 y.c y.e) := by
    rw [value, value, same]
    ring
  rw [values]
  by_cases exponents : x.e ≠ y.e
  · rw [if_pos exponents]
    obtain ⟨d, m, shape, first⟩ := trimmed.first
    obtain ⟨d', m', shape', first'⟩ := trimmed'.first
    refine verdict_eq canonical.sign _ (fun greater => ?_) fun not => ?_
    · rw [shape]
      exact Radix.reading_lt_of_exponent (by decide) canonical'.below first (of_decide_eq_true greater)
    · rw [shape']
      exact Radix.reading_lt_of_exponent (by decide) canonical.below first'
        (lt_of_le_of_ne (not_lt.1 (of_decide_eq_false not)) exponents)
  · rw [if_neg exponents, ← not_not.1 exponents]
    exact cmpDigits_eq canonical.sign canonical.below canonical'.below trimmed trimmed'

/-- `12.5`, `1.25` and `-1.25`. -/
theorem cmp_eq_shifted :
    let x : BigJs := ⟨1, 1, [1, 2, 5]⟩
    let y : BigJs := ⟨1, 0, [1, 2, 5]⟩
    x.cmp y = (SignType.sign (x.value - y.value) : ℤ) ∧ x.cmp y = 1 ∧ cmp ⟨-1, 0, [1, 2, 5]⟩ y = -1 := by
  have below : Below 10 [1, 2, 5] := by unfold Below; decide
  have trimmed : Trimmed [1, 2, 5] := ⟨⟨1, [2, 5], rfl, by decide⟩, ⟨[1, 2], 5, rfl, by decide⟩⟩
  exact ⟨cmp_eq ⟨.inl rfl, below, .inr trimmed⟩ ⟨.inl rfl, below, .inr trimmed⟩, by decide, by decide⟩

end Comparison

end BigJs

end ColabEdit.Browser
