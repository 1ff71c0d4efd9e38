/-
# ColabEdit.Browser.BigSum -- `plus` and `minus` on digit arrays

The two functions of `app/static/js/big.js` call each other when the signs
differ, and work on the arrays when they agree: zeros in front equalise the
exponents, `plus` adds from the end of the shorter array with a carry, `minus`
takes the smaller number from the larger one and borrows from the next digit to
the left that is not zero.

`sums_exact`: sum and difference are exact and canonical, and each undoes the other
digit for digit.
-/
import ColabEdit.Browser.BigJs
import Mathlib.Tactic.LinearCombination

namespace ColabEdit.Browser.BigJs

open ColabEdit.Theory
open Radix (Below Trimmed number reading)

set_option autoImplicit false

/-- `t.reverse(); for (; n--; t.push(0)); t.reverse();` -/
def prepend (n : ℕ) (t : List ℕ) : List ℕ := List.replicate n 0 ++ t

/-- Prepend zeros to equalise exponents: `xc`, `yc` and `ye`. -/
def align (x y : BigJs) : List ℕ × List ℕ × ℤ :=
  if x.e > y.e then (x.c, prepend (x.e - y.e).toNat y.c, x.e)
  else if x.e < y.e then (prepend (y.e - x.e).toNat x.c, y.c, y.e)
  else (x.c, y.c, y.e)

/-- `for (b = 0; a;)`, at the place `a - 1` with the carry `b`. -/
def addFrom (yc : List ℕ) : ℕ → List ℕ → ℕ → List ℕ × ℕ
  | 0, xc, b => (xc, b)
  | a + 1, xc, b =>
      let sum := xc.getD a 0 + yc.getD a 0 + b
      addFrom yc a (xc.set a (sum % 10)) (sum / 10)

/-- `plus` for equal signs. -/
def plusAlike (x y : BigJs) : BigJs :=
  if x.IsZero ∨ y.IsZero then
    if ¬ y.IsZero then y else if ¬ x.IsZero then x else zero x.s
  else
    let (xc, yc, ye) := align x y
    let (xc, yc) := if xc.length < yc.length then (yc, xc) else (xc, yc)
    let (xc, b) := addFrom yc yc.length xc 0
    let (xc, ye) := if b ≠ 0 then (b :: xc, ye + 1) else (xc, ye)
    ⟨y.s, ye, xc.rdropWhile (· = 0)⟩

/-- `for (i = j; i && !xc[--i]; xc[i] = 9); --xc[i];` -/
def borrow : ℕ → List ℕ → List ℕ
  | 0, xc => xc.set 0 (xc.getD 0 0 - 1)
  | i + 1, xc => if xc.getD i 0 = 0 then borrow i (xc.set i 9) else xc.set i (xc.getD i 0 - 1)

/-- `for (b = i; j > a;)` -/
def subtractFrom (yc : List ℕ) (a : ℕ) : ℕ → List ℕ → List ℕ
  | 0, xc => xc
  | j + 1, xc =>
      if j + 1 > a then
        let xc :=
          if xc.getD j 0 < yc.getD j 0 then
            let xc := borrow j xc
            xc.set j (xc.getD j 0 + 10)
          else xc
        subtractFrom yc a j (xc.set j (xc.getD j 0 - yc.getD j 0))
      else xc

/-- `xLTy` for equal exponents. -/
def xLTy : List ℕ → List ℕ → Bool
  | d :: xc, d' :: yc => if d ≠ d' then d < d' else xLTy xc yc
  | xc, yc => xc.length < yc.length

/-- `for (; xc[0] === 0;) { xc.shift(); --ye; }` -/
def shiftZeros : List ℕ → ℤ → List ℕ × ℤ
  | 0 :: xc, ye => shiftZeros xc (ye - 1)
  | xc, ye => (xc, ye)

/-- `minus` for equal signs. -/
def minusAlike (x y : BigJs) : BigJs :=
  if x.IsZero ∨ y.IsZero then
    if ¬ y.IsZero then { y with s := -y.s } else if ¬ x.IsZero then x else zero 1
  else
    let a := (x.e - y.e).natAbs
    let (xc, yc, ye) := align x y
    let less := if x.e ≠ y.e then decide (x.e < y.e) else xLTy x.c y.c
    let (xc, yc, s) := if less then (yc, xc, -y.s) else (xc, yc, y.s)
    -- zeros behind `xc` if it is shorter
    let xc := xc ++ List.replicate (yc.length - xc.length) 0
    let xc := (subtractFrom yc a yc.length xc).rdropWhile (· = 0)
    let (xc, ye) := shiftZeros xc ye
    if xc.getD 0 0 = 0 then zero 1 else ⟨s, ye, xc⟩

/-- A sign is 1 or -1, so `minus` does not come back to `plus`. -/
def plus (x y : BigJs) : BigJs :=
  if x.s ≠ y.s then minusAlike x { y with s := -y.s } else plusAlike x y

def minus (x y : BigJs) : BigJs :=
  if x.s ≠ y.s then plusAlike x { y with s := -y.s } else minusAlike x y

/-! ## The loops -/

section Loops

variable {yc p q : List ℕ}

/-- What `addFrom` leaves in front of the digits it does not reach. -/
theorem addFrom_spec (below' : Below 10 yc) (a : ℕ) (below : Below 10 p) (length : p.length = a)
    (inside : a ≤ yc.length) (q : List ℕ) {b : ℕ} (carry : b ≤ 1) :
    ∃ out b', addFrom yc a (p ++ q) b = (out ++ q, b') ∧ out.length = a ∧ Below 10 out ∧ b' ≤ 1 ∧
      number 10 out + b' * 10 ^ a = number 10 p + number 10 (yc.take a) + b := by
  induction a generalizing p q b with
  | zero =>
      obtain rfl := List.length_eq_zero_iff.1 length
      exact ⟨[], b, rfl, rfl, .nil, carry, by simp⟩
  | succ a ih =>
      obtain ⟨r, d, rfl, rfl⟩ := Radix.exists_concat length
      have digit := below.right.head
      have digit' := below'.getD (by decide) r.length
      obtain ⟨out, b', is, len, small, bit, sum⟩ :=
        ih below.left rfl (by omega) ((d + yc.getD r.length 0 + b) % 10 :: q)
          (b := (d + yc.getD r.length 0 + b) / 10) (by omega)
      refine ⟨out ++ [(d + yc.getD r.length 0 + b) % 10], b', ?_, by simp [len],
        small.append (.cons (Nat.mod_lt _ (by decide)) .nil), bit, ?_⟩
      · rw [addFrom, List.append_assoc, List.singleton_append, Radix.getD_place, Radix.set_place, is]
        simp
      · have split := Nat.div_add_mod (d + yc.getD r.length 0 + b) 10
        rw [Radix.take_succ (by omega), Radix.number_concat, Radix.number_concat, Radix.number_concat, pow_succ]
        nlinarith

/-- The borrow finds a digit when there is one. -/
theorem borrow_spec (i : ℕ) (below : Below 10 p) (length : p.length = i) (q : List ℕ)
    (some : number 10 p ≠ 0) :
    ∃ out, borrow i (p ++ q) = out ++ q ∧ out.length = i ∧ Below 10 out ∧ number 10 out + 1 = number 10 p := by
  induction i generalizing p q with
  | zero =>
      obtain rfl := List.length_eq_zero_iff.1 length
      exact absurd rfl some
  | succ i ih =>
      obtain ⟨r, d, rfl, rfl⟩ := Radix.exists_concat length
      have digit := below.right.head
      rw [Radix.number_concat] at some ⊢
      rw [borrow, List.append_assoc, List.singleton_append, Radix.getD_place]
      by_cases zero : d = 0
      · rw [if_pos zero, Radix.set_place]
        obtain ⟨out, is, len, small, less⟩ := ih below.left rfl (9 :: q) (by omega)
        refine ⟨out ++ [9], by rw [is]; simp, by simp [len], small.append (.cons (by decide) .nil), ?_⟩
        rw [Radix.number_concat]
        omega
      · rw [if_neg zero, Radix.set_place]
        refine ⟨r ++ [d - 1], by simp, by simp, below.left.append (.cons (by omega) .nil), ?_⟩
        rw [Radix.number_concat]
        omega

/-- No digit is taken from a smaller one as long as the whole number in front is
large enough. -/
theorem subtractFrom_spec (below' : Below 10 yc) {a : ℕ} (zeros : number 10 (yc.take a) = 0) (j : ℕ)
    (below : Below 10 p) (length : p.length = j) (inside : j ≤ yc.length) (q : List ℕ)
    (le : number 10 (yc.take j) ≤ number 10 p) :
    ∃ out, subtractFrom yc a j (p ++ q) = out ++ q ∧ out.length = j ∧ Below 10 out ∧
      number 10 out + number 10 (yc.take j) = number 10 p := by
  induction j generalizing p q with
  | zero =>
      obtain rfl := List.length_eq_zero_iff.1 length
      exact ⟨[], rfl, rfl, .nil, by simp⟩
  | succ j ih =>
      rw [subtractFrom]
      by_cases more : j + 1 > a
      · obtain ⟨r, d, rfl⟩ : ∃ r d, p = r ++ [d] := by
          have some : p ≠ [] := fun none => by simp [none] at length
          exact ⟨_, _, (List.dropLast_append_getLast some).symm⟩
        have inner : r.length = j := by simpa using length
        subst inner
        have digit := below.right.head
        have digit' := below'.getD (by decide) r.length
        rw [Radix.take_succ (by omega), Radix.number_concat, Radix.number_concat] at le
        rw [if_pos more, List.append_assoc, List.singleton_append, Radix.getD_place,
          Radix.take_succ (by omega), Radix.number_concat, Radix.number_concat]
        dsimp only
        by_cases less : d < yc.getD r.length 0
        · obtain ⟨s, is, len, small, one⟩ := borrow_spec r.length below.left rfl (d :: q) (by omega)
          rw [if_pos less, is, ← len, Radix.getD_place, Radix.set_place, Radix.getD_place, Radix.set_place, len]
          obtain ⟨out, is', len', small', sum⟩ :=
            ih small len (by omega) ((d + 10 - yc.getD r.length 0) :: q) (by omega)
          refine ⟨out ++ [d + 10 - yc.getD r.length 0], by rw [is']; simp, by simp [len'],
            small'.append (.cons (by omega) .nil), ?_⟩
          rw [Radix.number_concat]
          omega
        · rw [if_neg less, Radix.getD_place, Radix.set_place]
          obtain ⟨out, is', len', small', sum⟩ :=
            ih below.left rfl (by omega) ((d - yc.getD r.length 0) :: q) (by omega)
          refine ⟨out ++ [d - yc.getD r.length 0], by rw [is']; simp, by simp [len'],
            small'.append (.cons (by omega) .nil), ?_⟩
          rw [Radix.number_concat]
          omega
      · have none : number 10 (yc.take (j + 1)) = 0 := by
          have inner : (yc.take a).take (j + 1) = yc.take (j + 1) := by
            rw [List.take_take, min_eq_left (by omega)]
          rw [← inner, Radix.number_take (by decide) (below'.sublist (List.take_sublist a yc)), zeros,
            Nat.zero_div]
        exact ⟨p, by rw [if_neg more], length, below, by omega⟩

theorem shiftZeros_spec (l : List ℕ) (e : ℤ) :
    ∃ n, l = List.replicate n 0 ++ (shiftZeros l e).1 ∧ (shiftZeros l e).2 = e - n ∧
      ∀ d ∈ (shiftZeros l e).1.head?, d ≠ 0 := by
  induction l generalizing e with
  | nil => exact ⟨0, rfl, by simp [shiftZeros], nofun⟩
  | cons d l ih =>
      by_cases zero : d = 0
      · subst zero
        obtain ⟨n, shape, place, first⟩ := ih (e - 1)
        refine ⟨n + 1, ?_, ?_, first⟩
        · rw [shiftZeros, List.replicate_succ, List.cons_append, ← shape]
        · rw [shiftZeros, place]
          push_cast
          ring
      · have stop : shiftZeros (d :: l) e = (d :: l, e) := by
          cases d with
          | zero => exact absurd rfl zero
          | succ d => rfl
        rw [stop]
        exact ⟨0, rfl, by simp, by rintro x ⟨⟩; exact zero⟩

end Loops

/-! ## Sum and difference -/

section Value

variable {x y : BigJs}

theorem Canonical.neg (canonical : y.Canonical) : ({ y with s := -y.s } : BigJs).Canonical :=
  ⟨by have := canonical.sign; simp only; omega, canonical.below, canonical.shape⟩

theorem neg_value (y : BigJs) : ({ y with s := -y.s } : BigJs).value = -y.value := by
  simp only [value]
  push_cast
  ring

/-- The two arrays at the exponent of the larger number. -/
structure Aligned (x y : BigJs) (xc yc : List ℕ) (e : ℤ) : Prop where
  left : reading 10 xc e = reading 10 x.c x.e
  right : reading 10 yc e = reading 10 y.c y.e
  below : Below 10 xc
  below' : Below 10 yc
  some : (10 : ℚ) ^ e ≤ reading 10 xc e + reading 10 yc e

theorem prepend_reading {e e' : ℤ} (less : e' ≤ e) (t : List ℕ) :
    reading 10 (prepend (e - e').toNat t) e = reading 10 t e' := by
  rw [prepend, Radix.reading_zeros_append]
  congr 1
  omega

theorem align_spec (canonical : x.Canonical) (canonical' : y.Canonical) (some : ¬ x.IsZero) (some' : ¬ y.IsZero) :
    Aligned x y (align x y).1 (align x y).2.1 (align x y).2.2 := by
  have large := canonical.pow_le some
  have large' := canonical'.pow_le some'
  have nonneg := Radix.reading_nonneg 10 x.c x.e
  have nonneg' := Radix.reading_nonneg 10 y.c y.e
  unfold align
  by_cases greater : x.e > y.e
  · rw [if_pos greater]
    refine ⟨rfl, prepend_reading greater.le _, canonical.below, (Below.zeros (by decide) _).append canonical'.below, ?_⟩
    dsimp only
    rw [prepend_reading greater.le]
    linarith
  · rw [if_neg greater]
    by_cases less : x.e < y.e
    · rw [if_pos less]
      refine ⟨prepend_reading less.le _, rfl, (Below.zeros (by decide) _).append canonical.below, canonical'.below, ?_⟩
      dsimp only
      rw [prepend_reading less.le]
      linarith
    · have equal : x.e = y.e := by omega
      rw [if_neg less]
      refine ⟨by rw [equal], rfl, canonical.below, canonical'.below, ?_⟩
      rw [equal] at large
      dsimp only
      linarith [Radix.reading_nonneg 10 x.c y.e]

/-- The digits of a sum, the carry in front of them. -/
theorem addFrom_reading {xc yc : List ℕ} {e : ℤ} (below : Below 10 xc) (below' : Below 10 yc)
    (shorter : yc.length ≤ xc.length) :
    ∃ out b, addFrom yc yc.length xc 0 = (out, b) ∧ Below 10 (b :: out) ∧
      reading 10 (b :: out) (e + 1) = reading 10 xc e + reading 10 yc e := by
  obtain ⟨p, q, rfl, length⟩ : ∃ p q, xc = p ++ q ∧ p.length = yc.length :=
    ⟨xc.take yc.length, xc.drop yc.length, (List.take_append_drop _ _).symm,
      List.length_take_of_le shorter⟩
  obtain ⟨out, b, is, len, small, bit, sum⟩ := addFrom_spec below' yc.length below.left length le_rfl q
    (b := 0) (by decide)
  refine ⟨out ++ q, b, is, .cons (by omega) (small.append below.right), ?_⟩
  rw [List.take_length, Nat.add_zero] at sum
  have equal : (number 10 out + b * 10 ^ yc.length : ℚ) = number 10 p + number 10 yc := by exact_mod_cast sum
  have place : (10 : ℚ) ^ (e + 1) = 10 ^ yc.length * 10 ^ (e + 1 - yc.length) := by
    rw [← zpow_natCast, ← zpow_add₀ (by norm_num)]
    congr 1
    ring
  have front : (e + 1 - 1 : ℤ) = e := by ring
  rw [Radix.reading_cons, front, Radix.reading_append, Radix.reading_append, Radix.reading_eq (by decide) out,
    Radix.reading_eq (by decide) p, Radix.reading_eq (by decide) yc, len, length, Nat.cast_ofNat, place]
  linear_combination (10 : ℚ) ^ (e + 1 - yc.length) * equal

/-- **Equal signs: the sum of the digits.** -/
theorem plusAlike_spec (canonical : x.Canonical) (canonical' : y.Canonical) (signs : x.s = y.s) :
    (plusAlike x y).Canonical ∧ (plusAlike x y).value = x.value + y.value := by
  unfold plusAlike
  by_cases none : x.IsZero ∨ y.IsZero
  · rw [if_pos none]
    by_cases some' : y.IsZero
    · rw [if_neg (not_not.2 some'), canonical'.isZero_iff.1 some', add_zero]
      by_cases some : x.IsZero
      · rw [if_neg (not_not.2 some), canonical.isZero_iff.1 some]
        exact ⟨zero_canonical canonical.sign, zero_value _⟩
      · rw [if_pos some]
        exact ⟨canonical, rfl⟩
    · rw [if_pos some', canonical.isZero_iff.1 (none.resolve_right some'), zero_add]
      exact ⟨canonical', rfl⟩
  rw [if_neg none]
  obtain ⟨some, some'⟩ := not_or.1 none
  have aligned := align_spec canonical canonical' some some'
  generalize (align x y) = arrays at aligned
  obtain ⟨xc, yc, e⟩ := arrays
  dsimp only at aligned ⊢
  -- the longer array first
  obtain ⟨long, short, swap, shorter, sum, below, below'⟩ : ∃ long short,
      (if xc.length < yc.length then (yc, xc) else (xc, yc)) = (long, short) ∧ short.length ≤ long.length ∧
        reading 10 long e + reading 10 short e = reading 10 xc e + reading 10 yc e ∧
        Below 10 long ∧ Below 10 short := by
    by_cases less : xc.length < yc.length
    · exact ⟨yc, xc, if_pos less, less.le, add_comm _ _, aligned.below', aligned.below⟩
    · exact ⟨xc, yc, if_neg less, not_lt.1 less, rfl, aligned.below, aligned.below'⟩
  rw [swap]
  obtain ⟨out, b, is, small, value⟩ := addFrom_reading (e := e) below below' shorter
  dsimp only
  rw [is]
  have total : x.value + y.value = y.s * reading 10 (b :: out) (e + 1) := by
    rw [value, sum, aligned.left, aligned.right, BigJs.value, BigJs.value, signs]
    ring
  dsimp only
  rw [total]
  by_cases carry : b ≠ 0
  · rw [if_pos carry]
    exact ⟨canonical_trim canonical'.sign small carry, value_trim _ _ _⟩
  · obtain rfl : b = 0 := not_not.1 carry
    have same : reading 10 (0 :: out) (e + 1) = reading 10 out e := by
      rw [Radix.reading_cons, Nat.cast_zero, zero_mul, zero_add, add_sub_cancel_right]
    rw [same] at value ⊢
    obtain ⟨d, m, shape, first⟩ := Radix.first_of_pow_le (b := 10) (by decide) small.tail
      (by rw [value, sum]; exact_mod_cast aligned.some)
    rw [if_neg carry]
    exact ⟨shape ▸ canonical_trim canonical'.sign (shape ▸ small.tail) first, value_trim _ _ _⟩

/-- The first digit that differs tells the smaller array. -/
theorem xLTy_spec {xc yc : List ℕ} {e : ℤ} (below : Below 10 xc) (below' : Below 10 yc) :
    if xLTy xc yc then reading 10 xc e ≤ reading 10 yc e else reading 10 yc e ≤ reading 10 xc e := by
  have append : ∀ p xc yc : List ℕ, xLTy (p ++ xc) (p ++ yc) = xLTy xc yc := fun p xc yc => by
    induction p with
    | nil => rfl
    | cons d p ih => rw [List.cons_append, List.cons_append, xLTy, if_neg (not_not.2 rfl), ih]
  rcases Radix.first_difference xc yc with ⟨m, rfl⟩ | ⟨d, m, rfl⟩ | ⟨p, d, m, d', m', rfl, rfl, differ⟩
  · have is := append xc [] m
    have le : reading 10 xc e ≤ reading 10 (xc ++ m) e := by
      rw [Radix.reading_append]
      linarith [Radix.reading_nonneg 10 m (e - xc.length)]
    rw [List.append_nil] at is
    rw [is]
    cases m with
    | nil => rw [List.append_nil]; exact le_rfl
    | cons d m => exact le
  · have is := append yc (d :: m) []
    rw [List.append_nil] at is
    rw [is, Radix.reading_append]
    exact le_add_of_nonneg_right (Radix.reading_nonneg _ _ _)
  · rw [append, xLTy, if_pos differ]
    by_cases less : d < d'
    · rw [if_pos (decide_eq_true less)]
      exact (Radix.reading_lt_of_digit (by decide) below less).le
    · rw [if_neg (by simpa using less)]
      exact (Radix.reading_lt_of_digit (by decide) below' (lt_of_le_of_ne (not_lt.1 less) differ.symm)).le

/-- The digits of the smaller number taken from those of the larger. -/
theorem subtractFrom_reading {xc yc : List ℕ} {e : ℤ} (below : Below 10 xc) (below' : Below 10 yc) {a : ℕ}
    (zeros : number 10 (yc.take a) = 0) (le : reading 10 yc e ≤ reading 10 xc e) :
    ∃ out, subtractFrom yc a yc.length (xc ++ List.replicate (yc.length - xc.length) 0) = out ∧ Below 10 out ∧
      reading 10 out e = reading 10 xc e - reading 10 yc e := by
  have padded := Radix.reading_append_zeros 10 (yc.length - xc.length) xc e
  have all := below.append (.zeros (by decide) (yc.length - xc.length))
  have longer : yc.length ≤ (xc ++ List.replicate (yc.length - xc.length) 0).length := by
    rw [List.length_append, List.length_replicate]
    omega
  generalize xc ++ List.replicate (yc.length - xc.length) 0 = l at padded all longer ⊢
  obtain ⟨p, q, rfl, length⟩ : ∃ p q, l = p ++ q ∧ p.length = yc.length :=
    ⟨l.take yc.length, l.drop yc.length, (List.take_append_drop _ _).symm, List.length_take_of_le longer⟩
  have power : (0 : ℚ) < 10 ^ (e + 1 - yc.length) := by positivity
  have front : reading 10 p e = number 10 p * 10 ^ (e + 1 - yc.length) := by
    rw [Radix.reading_eq (by decide), length, Nat.cast_ofNat]
  have front' : reading 10 yc e = number 10 yc * 10 ^ (e + 1 - yc.length) := by
    rw [Radix.reading_eq (by decide), Nat.cast_ofNat]
  have split := Radix.reading_append 10 p q e
  have behind := Radix.reading_lt (by decide) all.right (e - p.length)
  rw [length, Nat.cast_ofNat, show e - (yc.length : ℤ) + 1 = e + 1 - yc.length by ring] at behind
  -- what stands behind the last digit of `yc` is less than a unit there
  have enough : number 10 yc ≤ number 10 p := by
    have : (number 10 yc : ℚ) < number 10 p + 1 := by
      by_contra less
      rw [length] at split
      nlinarith [not_lt.1 less]
    have := Nat.lt_succ_iff.1 (by exact_mod_cast this : number 10 yc < number 10 p + 1)
    exact this
  obtain ⟨out, is, len, small, sum⟩ := subtractFrom_spec below' zeros yc.length all.left length le_rfl q
    (by rwa [List.take_length])
  rw [List.take_length] at sum
  have equal : (number 10 out + number 10 yc : ℚ) = number 10 p := by exact_mod_cast sum
  refine ⟨out ++ q, is, small.append all.right, ?_⟩
  rw [← padded, split, Radix.reading_append, Radix.reading_eq (by decide) out, len, length, front, front',
    Nat.cast_ofNat]
  linear_combination (10 : ℚ) ^ (e + 1 - yc.length) * equal

/-- Zeros at both ends taken away. -/
theorem strip_spec {s e : ℤ} {l : List ℕ} (sign : s = 1 ∨ s = -1) (below : Below 10 l) :
    let (xc, ye) := shiftZeros (l.rdropWhile (· = 0)) e
    let z := if xc.getD 0 0 = 0 then zero 1 else ⟨s, ye, xc⟩
    z.Canonical ∧ z.value = s * reading 10 l e := by
  obtain ⟨n, shape, place, first⟩ := shiftZeros_spec (l.rdropWhile (· = 0)) e
  have value := Radix.reading_rdropWhile 10 l e
  rw [shape, Radix.reading_zeros_append, ← place] at value
  have small : Below 10 (shiftZeros (l.rdropWhile (· = 0)) e).1 :=
    below.sublist ((List.IsSuffix.sublist ⟨_, shape.symm⟩).trans (List.rdropWhile_prefix _ _).sublist)
  have last := List.rdropWhile_last_not (· = 0) l
  generalize List.rdropWhile (fun x : ℕ => decide (x = 0)) l = t at *
  generalize shiftZeros t e = r at *
  obtain ⟨xc, ye⟩ := r
  dsimp only at *
  cases xc with
  | nil =>
      rw [if_pos List.getD_nil, ← value]
      exact ⟨zero_canonical (.inl rfl), by simp⟩
  | cons d m =>
      have some : d ≠ 0 := first d rfl
      rw [List.getD_cons_zero, if_neg some]
      refine ⟨⟨sign, small, .inr ⟨⟨d, m, rfl, some⟩, ?_⟩⟩, by rw [BigJs.value, value]⟩
      refine ⟨_, _, (List.dropLast_append_getLast (List.cons_ne_nil d m)).symm, ?_⟩
      have ne : t ≠ [] := by
        rw [shape]
        simp
      have := last ne
      simp only [shape, List.getLast_append_of_ne_nil _ (List.cons_ne_nil d m), decide_eq_true_eq] at this
      exact this

/-- The smaller of the two has the zeros in front. -/
theorem prepend_zeros (n : ℕ) (t : List ℕ) : number 10 ((prepend n t).take n) = 0 := by
  rw [prepend, List.take_append_of_le_length (by rw [List.length_replicate]), List.take_of_length_le
    (by rw [List.length_replicate]), Radix.number_zeros]

/-- The larger array, the smaller one, and the sign of the difference. -/
theorem larger_spec (canonical : x.Canonical) (canonical' : y.Canonical) (some : ¬ x.IsZero) (some' : ¬ y.IsZero)
    (signs : x.s = y.s) :
    ∃ big small s,
      (if (if x.e ≠ y.e then decide (x.e < y.e) else xLTy x.c y.c) then
        ((align x y).2.1, (align x y).1, -y.s) else ((align x y).1, (align x y).2.1, y.s)) = (big, small, s) ∧
      (s = 1 ∨ s = -1) ∧ Below 10 big ∧ Below 10 small ∧ number 10 (small.take (x.e - y.e).natAbs) = 0 ∧
      reading 10 small (align x y).2.2 ≤ reading 10 big (align x y).2.2 ∧
      x.value - y.value = s * (reading 10 big (align x y).2.2 - reading 10 small (align x y).2.2) := by
  have sign := canonical'.sign
  have aligned := align_spec canonical canonical' some some'
  obtain ⟨d, m, shape, first⟩ := (canonical.trimmed some).first
  obtain ⟨d', m', shape', first'⟩ := (canonical'.trimmed some').first
  have values : x.value - y.value = y.s * (reading 10 (align x y).1 (align x y).2.2 -
      reading 10 (align x y).2.1 (align x y).2.2) := by
    rw [aligned.left, aligned.right, BigJs.value, BigJs.value, signs]
    ring
  have swapped : x.value - y.value = ((-y.s : ℤ) : ℚ) * (reading 10 (align x y).2.1 (align x y).2.2 -
      reading 10 (align x y).1 (align x y).2.2) := by
    rw [values]
    push_cast
    ring
  rcases lt_trichotomy x.e y.e with less | equal | greater
  · refine ⟨_, _, _, if_pos (by rw [if_pos less.ne]; exact decide_eq_true less), by omega, aligned.below',
      aligned.below, ?_, ?_, swapped⟩
    · rw [align, if_neg less.not_gt, if_pos less, show (x.e - y.e).natAbs = (y.e - x.e).toNat by omega]
      exact prepend_zeros _ _
    · rw [aligned.left, aligned.right, shape']
      exact (Radix.reading_lt_of_exponent (by decide) canonical.below first' less).le
  · have place : (x.e - y.e).natAbs = 0 := by omega
    have compare := xLTy_spec (e := x.e) canonical.below canonical'.below
    rw [if_neg (not_not.2 equal), place]
    by_cases less : xLTy x.c y.c
    · rw [if_pos less] at compare
      refine ⟨_, _, _, if_pos less, by omega, aligned.below', aligned.below, rfl, ?_, swapped⟩
      rw [aligned.left, aligned.right, ← equal]
      exact compare
    · rw [if_neg less] at compare
      refine ⟨_, _, _, if_neg less, sign, aligned.below, aligned.below', rfl, ?_, values⟩
      rw [aligned.left, aligned.right, ← equal]
      exact compare
  · refine ⟨_, _, _, if_neg (by rw [if_pos greater.ne']; simpa using greater.le), sign, aligned.below,
      aligned.below', ?_, ?_, values⟩
    · rw [align, if_pos greater, show (x.e - y.e).natAbs = (x.e - y.e).toNat by omega]
      exact prepend_zeros _ _
    · rw [aligned.left, aligned.right, shape]
      exact (Radix.reading_lt_of_exponent (by decide) canonical'.below first greater).le

/-- **Equal signs: the smaller from the larger.** -/
theorem minusAlike_spec (canonical : x.Canonical) (canonical' : y.Canonical) (signs : x.s = y.s) :
    (minusAlike x y).Canonical ∧ (minusAlike x y).value = x.value - y.value := by
  unfold minusAlike
  by_cases none : x.IsZero ∨ y.IsZero
  · rw [if_pos none]
    by_cases some' : y.IsZero
    · rw [if_neg (not_not.2 some'), canonical'.isZero_iff.1 some', sub_zero]
      by_cases some : x.IsZero
      · rw [if_neg (not_not.2 some), canonical.isZero_iff.1 some]
        exact ⟨zero_canonical (.inl rfl), zero_value _⟩
      · rw [if_pos some]
        exact ⟨canonical, rfl⟩
    · rw [if_pos some', canonical.isZero_iff.1 (none.resolve_right some'), zero_sub]
      exact ⟨canonical'.neg, neg_value y⟩
  rw [if_neg none]
  obtain ⟨some, some'⟩ := not_or.1 none
  obtain ⟨big, small, s, swap, sign, below, below', zeros, le, value⟩ :=
    larger_spec canonical canonical' some some' signs
  rw [value]
  generalize align x y = arrays at *
  obtain ⟨xc, yc, e⟩ := arrays
  dsimp only at swap ⊢
  rw [swap]
  dsimp only
  obtain ⟨out, is, digits, reading⟩ := subtractFrom_reading (e := e) below below' zeros le
  rw [is, ← reading]
  exact strip_spec sign digits

/-- **`plus` is exact.** -/
theorem plus_spec (canonical : x.Canonical) (canonical' : y.Canonical) :
    (plus x y).Canonical ∧ (plus x y).value = x.value + y.value := by
  unfold plus
  by_cases signs : x.s = y.s
  · rw [if_neg (not_not.2 signs)]
    exact plusAlike_spec canonical canonical' signs
  · rw [if_pos signs, ← sub_neg_eq_add, ← neg_value y]
    have flip := canonical'.neg
    exact minusAlike_spec canonical flip (by have := canonical.sign; have := canonical'.sign; simp only; omega)

/-- **`minus` is exact.** -/
theorem minus_spec (canonical : x.Canonical) (canonical' : y.Canonical) :
    (minus x y).Canonical ∧ (minus x y).value = x.value - y.value := by
  unfold minus
  by_cases signs : x.s = y.s
  · rw [if_neg (not_not.2 signs)]
    exact minusAlike_spec canonical canonical' signs
  · rw [if_pos signs, sub_eq_add_neg, ← neg_value y]
    have flip := canonical'.neg
    exact plusAlike_spec canonical flip (by have := canonical.sign; have := canonical'.sign; simp only; omega)

/-- **Sums and differences are exact**, and each undoes the other digit for digit. -/
theorem sums_exact (canonical : x.Canonical) (canonical' : y.Canonical) :
    ((plus x y).Canonical ∧ (plus x y).value = x.value + y.value ∧
      (minus (plus x y) y).c = x.c ∧ (minus (plus x y) y).e = x.e) ∧
    ((minus x y).Canonical ∧ (minus x y).value = x.value - y.value ∧
      (plus (minus x y) y).c = x.c ∧ (plus (minus x y) y).e = x.e) := by
  obtain ⟨sum, sum_value⟩ := plus_spec canonical canonical'
  obtain ⟨difference, difference_value⟩ := minus_spec canonical canonical'
  obtain ⟨back, back_value⟩ := minus_spec sum canonical'
  obtain ⟨back', back_value'⟩ := plus_spec difference canonical'
  have undone := back.unique canonical (by rw [back_value, sum_value]; ring)
  have undone' := back'.unique canonical (by rw [back_value', difference_value]; ring)
  exact ⟨⟨sum, sum_value, undone.1, undone.2.1⟩, difference, difference_value, undone'.1, undone'.2.1⟩

/-- `1 - 0.001` borrows through two places, and `0.999 + 0.001` carries back. -/
theorem sums_exact_carry :
    let x : BigJs := ⟨1, 0, [1]⟩
    let y : BigJs := ⟨1, -3, [1]⟩
    minus x y = ⟨1, -1, [9, 9, 9]⟩ ∧ (minus x y).value = x.value - y.value ∧ (plus (minus x y) y).c = x.c := by
  have one : ∀ e : ℤ, (⟨1, e, [1]⟩ : BigJs).Canonical := fun e =>
    ⟨.inl rfl, .cons (by decide) .nil, .inr ⟨⟨1, [], rfl, by decide⟩, ⟨[], 1, rfl, by decide⟩⟩⟩
  obtain ⟨-, -, value, back, -⟩ := sums_exact (one 0) (one (-3))
  exact ⟨by decide +kernel, value, back⟩

end Value

end ColabEdit.Browser.BigJs
