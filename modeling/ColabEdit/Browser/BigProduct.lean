/-
# ColabEdit.Browser.BigProduct -- `times` on digit arrays

Schoolbook multiplication (`app/static/js/big.js`, lines 905 to 985): for every
digit of the shorter array, from the last one on, a row of products is added to
the digits behind its place, with a carry of one digit.

`products_exact`: the product is exact and canonical, and the same digit for digit
in either order, although only one of the two factors is the row.
-/
import ColabEdit.Browser.BigJs
import Mathlib.Tactic.LinearCombination

namespace ColabEdit.Browser.BigJs

open ColabEdit.Theory
open Radix (Below Trimmed number reading)

set_option autoImplicit false

/-- `for (j = a + i; j > i;)`, from the place `j` with the carry `b`. -/
def row (xc : List ℕ) (yci i : ℕ) : ℕ → List ℕ → ℕ → List ℕ × ℕ
  | 0, c, b => (c, b)
  | j + 1, c, b =>
      if j + 1 > i then
        let b := c.getD (j + 1) 0 + yci * xc.getD (j + 1 - i - 1) 0 + b
        row xc yci i j (c.set (j + 1) (b % 10)) (b / 10)
      else (c, b)

/-- `for (i = b; i--;)`, with the carry of the row before. -/
def rows (xc yc : List ℕ) : ℕ → List ℕ → ℕ → List ℕ × ℕ
  | 0, c, b => (c, b)
  | i + 1, c, _ =>
      let (c, b) := row xc (yc.getD i 0) i (xc.length + i) c 0
      rows xc yc i (c.set i ((c.getD i 0 + b) % 10)) b

def times (x y : BigJs) : BigJs :=
  let s := if x.s = y.s then 1 else -1
  if x.IsZero ∨ y.IsZero then zero s
  else
    let (xc, yc) := if x.c.length < y.c.length then (y.c, x.c) else (x.c, y.c)
    let (c, b) := rows xc yc yc.length (List.replicate (xc.length + yc.length) 0) 0
    let e := if b ≠ 0 then x.e + y.e + 1 else x.e + y.e
    -- any leading zero
    let c := if c.getD 0 0 = 0 then c.tail else c
    ⟨s, e, c.rdropWhile (· = 0)⟩

/-! ## One row and all rows -/

section Rows

variable {xc yc : List ℕ}

/-- A row adds a multiple of the first `k` digits of `xc` to the digits behind the
place `i`. -/
theorem row_spec (below : Below 10 xc) {yci : ℕ} (digit : yci < 10) {i : ℕ} {p : List ℕ}
    (place : p.length = i + 1) (k : ℕ) (inside : k ≤ xc.length) {m : List ℕ} (length : m.length = k)
    (below' : Below 10 m) (q : List ℕ) {b : ℕ} (carry : b < 10) :
    ∃ out b', row xc yci i (i + k) (p ++ m ++ q) b = (p ++ out ++ q, b') ∧ out.length = k ∧ Below 10 out ∧
      b' < 10 ∧ number 10 out + b' * 10 ^ k = number 10 m + yci * number 10 (xc.take k) + b := by
  induction k generalizing m q b with
  | zero =>
      obtain rfl := List.length_eq_zero_iff.1 length
      refine ⟨[], b, ?_, rfl, .nil, carry, by simp⟩
      cases i with
      | zero => rfl
      | succ i => rw [Nat.add_zero, row, if_neg (lt_irrefl _)]
  | succ k ih =>
      obtain ⟨m, d, rfl, rfl⟩ := Radix.exists_concat length
      have digit' := below'.right.head
      have factor := below.getD (by decide) m.length
      have product : yci * xc.getD m.length 0 ≤ 81 := Nat.mul_le_mul (by omega : yci ≤ 9) (by omega : _ ≤ 9)
      have here : i + m.length + 1 = (p ++ m).length := by
        rw [List.length_append, place]
        omega
      have there : i + m.length + 1 - i - 1 = m.length := by omega
      generalize total : d + yci * xc.getD m.length 0 + b = t
      obtain ⟨out, b', is, len, small, bit, sum⟩ :=
        ih (by omega) rfl below'.left (t % 10 :: q) (b := t / 10) (by omega)
      refine ⟨out ++ [t % 10], b', ?_, by simp [len], small.append (.cons (Nat.mod_lt _ (by decide)) .nil), bit, ?_⟩
      · have shape : p ++ (m ++ [d]) ++ q = (p ++ m) ++ d :: q := by simp
        rw [← Nat.add_assoc, row, if_pos (by omega), there, shape, here, Radix.getD_place]
        dsimp only
        rw [Radix.set_place, total, is]
        simp
      · have split := Nat.div_add_mod t 10
        rw [Radix.take_succ (by omega), Radix.number_concat, Radix.number_concat, Radix.number_concat, pow_succ]
        nlinarith

/-- The rows from the place `i` on are the product with the digits from there on. -/
theorem rows_spec (below : Below 10 xc) (below' : Below 10 yc) (i : ℕ) (inside : i ≤ yc.length)
    {t : List ℕ} (length : t.length = xc.length + (yc.length - i)) (small : Below 10 t)
    (sum : number 10 t = number 10 xc * number 10 (yc.drop i)) (b : ℕ) (first : 0 < i ∨ b = t.getD 0 0) :
    ∃ out b', rows xc yc i (List.replicate i 0 ++ t) b = (out, b') ∧ out.length = xc.length + yc.length ∧
      Below 10 out ∧ number 10 out = number 10 xc * number 10 yc ∧ b' = out.getD 0 0 := by
  induction i generalizing t b with
  | zero => exact ⟨t, b, rfl, by simpa using length, small, by simpa using sum, first.resolve_left (lt_irrefl 0)⟩
  | succ i ih =>
      obtain ⟨m, q, rfl, len⟩ : ∃ m q, t = m ++ q ∧ m.length = xc.length :=
        ⟨t.take xc.length, t.drop xc.length, (List.take_append_drop _ _).symm,
          List.length_take_of_le (by omega)⟩
      have behind : q.length = yc.length - (i + 1) := by
        rw [List.length_append] at length
        omega
      obtain ⟨out, b', is, len', small', bit, value⟩ := row_spec below (below'.getD (by decide) i)
        (i := i) (p := List.replicate (i + 1) 0) (by simp) xc.length le_rfl len small.left q (b := 0) (by decide)
      have place : List.replicate (i + 1) 0 ++ out ++ q = List.replicate i 0 ++ 0 :: (out ++ q) := by
        rw [List.replicate_succ']
        simp
      have step : rows xc yc (i + 1) (List.replicate (i + 1) 0 ++ (m ++ q)) b =
          rows xc yc i (List.replicate i 0 ++ b' :: (out ++ q)) b' := by
        rw [rows, ← List.append_assoc, Nat.add_comm xc.length i, is]
        dsimp only
        rw [place]
        have get := Radix.getD_place (List.replicate i 0) 0 (out ++ q)
        have set := Radix.set_place (List.replicate i 0) 0 b' (out ++ q)
        rw [List.length_replicate] at get set
        rw [get, Nat.zero_add, Nat.mod_eq_of_lt bit, set]
      rw [step]
      refine ih (by omega) ?_ (.cons bit (small'.append small.right)) ?_ b' (.inr rfl)
      · rw [List.length_cons, List.length_append, len', behind]
        omega
      · -- one more digit of `yc` in front
        have inner : i < yc.length := by omega
        rw [List.take_length, Nat.add_zero] at value
        rw [Radix.number_append, behind] at sum
        rw [List.drop_eq_getElem_cons inner, Radix.number_cons, Radix.number_cons, List.length_drop,
          List.length_append, Radix.number_append, len', behind, pow_add, ← List.getD_eq_getElem _ 0 inner]
        linear_combination (10 : ℕ) ^ (yc.length - (i + 1)) * value + sum

end Rows

/-! ## The product -/

section Value

variable {x y : BigJs}

/-- **`times` is exact.** -/
theorem times_spec (canonical : x.Canonical) (canonical' : y.Canonical) :
    (times x y).Canonical ∧ (times x y).value = x.value * y.value := by
  have sign : (if x.s = y.s then (1 : ℤ) else -1) = x.s * y.s := by
    rcases canonical.sign with left | left <;> rcases canonical'.sign with right | right <;>
      rw [left, right] <;> rfl
  have unit : x.s * y.s = 1 ∨ x.s * y.s = -1 := by
    rcases canonical.sign with left | left <;> rcases canonical'.sign with right | right <;>
      rw [left, right] <;> decide
  unfold times
  rw [sign]
  dsimp only
  by_cases none : x.IsZero ∨ y.IsZero
  · rw [if_pos none, zero_value]
    refine ⟨zero_canonical unit, ?_⟩
    rcases none with none | none
    · rw [canonical.isZero_iff.1 none, zero_mul]
    · rw [canonical'.isZero_iff.1 none, mul_zero]
  rw [if_neg none]
  obtain ⟨some, some'⟩ := not_or.1 none
  have large := canonical.pow_le some
  have large' := canonical'.pow_le some'
  have ne := List.length_pos_iff.2 canonical.c_ne_nil
  have ne' := List.length_pos_iff.2 canonical'.c_ne_nil
  obtain ⟨xc, yc, swap, below, below', filled, lengths, numbers⟩ : ∃ xc yc,
      (if x.c.length < y.c.length then (y.c, x.c) else (x.c, y.c)) = (xc, yc) ∧ Below 10 xc ∧ Below 10 yc ∧
        0 < yc.length ∧ xc.length + yc.length = x.c.length + y.c.length ∧
        number 10 xc * number 10 yc = number 10 x.c * number 10 y.c := by
    by_cases less : x.c.length < y.c.length
    · exact ⟨_, _, if_pos less, canonical'.below, canonical.below, ne, Nat.add_comm _ _, Nat.mul_comm _ _⟩
    · exact ⟨_, _, if_neg less, canonical.below, canonical'.below, ne', rfl, rfl⟩
  rw [swap]
  obtain ⟨c, b, is, len, small, value, first⟩ := rows_spec below below' yc.length le_rfl
    (t := List.replicate xc.length 0) (by simp) (.zeros (by decide) _) (by simp) 0 (.inl filled)
  rw [List.replicate_append_replicate, Nat.add_comm yc.length] at is
  dsimp only
  rw [is]
  have product : reading 10 c (x.e + y.e + 1) = reading 10 x.c x.e * reading 10 y.c y.e := by
    have equal : (number 10 c : ℚ) = number 10 x.c * number 10 y.c := by exact_mod_cast value.trans numbers
    have place : x.e + y.e + 1 + 1 - (c.length : ℤ) = (x.e + 1 - x.c.length) + (y.e + 1 - y.c.length) := by
      rw [len, lengths]
      push_cast
      ring
    rw [Radix.reading_eq (by decide), Radix.reading_eq (by decide) x.c, Radix.reading_eq (by decide) y.c, place,
      zpow_add₀ (by norm_num), equal]
    ring
  have total : x.value * y.value = ((x.s * y.s : ℤ) : ℚ) * reading 10 c (x.e + y.e + 1) := by
    rw [product, BigJs.value, BigJs.value]
    push_cast
    ring
  obtain ⟨d, m, rfl⟩ : ∃ d m, c = d :: m := List.exists_cons_of_length_pos (by omega)
  rw [List.getD_cons_zero] at first ⊢
  subst first
  dsimp only
  rw [total]
  by_cases carry : b ≠ 0
  · rw [if_pos carry, if_neg carry]
    exact ⟨canonical_trim unit small carry, value_trim _ _ _⟩
  · obtain rfl : b = 0 := not_not.1 carry
    rw [if_neg carry, if_pos rfl, List.tail_cons]
    have same : reading 10 (0 :: m) (x.e + y.e + 1) = reading 10 m (x.e + y.e) := by
      rw [Radix.reading_cons, Nat.cast_zero, zero_mul, zero_add, add_sub_cancel_right]
    rw [same] at product ⊢
    obtain ⟨d, q, shape, first⟩ := Radix.first_of_pow_le (b := 10) (e := x.e + y.e) (by decide) small.tail (by
      rw [product, Nat.cast_ofNat, zpow_add₀ (by norm_num)]
      exact mul_le_mul large large' (by positivity) (Radix.reading_nonneg _ _ _))
    exact ⟨shape ▸ canonical_trim unit (shape ▸ small.tail) first, value_trim _ _ _⟩

/-- **Products are exact**, and neither order nor length of the factors changes a
digit. -/
theorem products_exact (canonical : x.Canonical) (canonical' : y.Canonical) :
    (times x y).Canonical ∧ (times x y).value = x.value * y.value ∧
      (times x y).c = (times y x).c ∧ (times x y).e = (times y x).e := by
  obtain ⟨product, value⟩ := times_spec canonical canonical'
  obtain ⟨product', value'⟩ := times_spec canonical' canonical
  have same := product.unique product' (by rw [value, value', mul_comm])
  exact ⟨product, value, same.1, same.2.1⟩

/-- `99 * -0.101`. -/
theorem products_exact_carry :
    let x : BigJs := ⟨1, 1, [9, 9]⟩
    let y : BigJs := ⟨-1, -1, [1, 0, 1]⟩
    times x y = ⟨-1, 0, [9, 9, 9, 9]⟩ ∧ (times x y).value = x.value * y.value := by
  have canonical : (⟨1, 1, [9, 9]⟩ : BigJs).Canonical :=
    ⟨.inl rfl, .cons (by decide) (.cons (by decide) .nil), .inr ⟨⟨9, [9], rfl, by decide⟩, ⟨[9], 9, rfl, by decide⟩⟩⟩
  have canonical' : (⟨-1, -1, [1, 0, 1]⟩ : BigJs).Canonical :=
    ⟨.inr rfl, .cons (by decide) (.cons (by decide) (.cons (by decide) .nil)),
      .inr ⟨⟨1, [0, 1], rfl, by decide⟩, ⟨[1, 0], 1, rfl, by decide⟩⟩⟩
  exact ⟨by decide +kernel, (products_exact canonical canonical').2.1⟩

end Value

end ColabEdit.Browser.BigJs
