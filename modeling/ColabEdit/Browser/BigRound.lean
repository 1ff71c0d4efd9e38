/-
# ColabEdit.Browser.BigRound -- `rnd` and `round` on digit arrays

`rnd` (`app/static/js/big.js`, lines 243 to 304) cuts the digits behind a decimal
place, decides from the digits behind it and from `more` whether to round up, and
lets a carry run to the left.  `more` is set by `div` when its digits are not all
of the quotient.

`rnd_spec`: in each of the four modes the result is the rounding of the exact
number, digits and what `more` stands for together.  `round_spec` is the method
`round`, where nothing stands behind the digits.
-/
import ColabEdit.Browser.BigJs
import ColabEdit.Theory.RoundingModes

namespace ColabEdit.Browser.BigJs

open ColabEdit.Theory
open Radix (Below Trimmed number reading)

set_option autoImplicit false

def MAX_DP : ℕ := 1000000

/-- `xc[i]`; `none` is `undefined`, also for a negative index. -/
def at' (xc : List ℕ) (i : ℤ) : Option ℕ := if 0 ≤ i then xc[i.toNat]? else none

/-- The new value of `more`; `none` where `rm` is no rounding mode. -/
def roundsUp (xc : List ℕ) (i : ℤ) (rm : ℕ) (more : Bool) : Option Bool :=
  match rm with
  | 0 => some false
  | 1 => some (decide (5 ≤ (at' xc i).getD 0))
  | 2 => some (decide (5 < (at' xc i).getD 0) || at' xc i == some 5 &&
      (more || decide (i < 0) || (at' xc (i + 1)).isSome || (at' xc (i - 1)).getD 0 % 2 == 1))
  | 3 => some (more || (at' xc i).isSome || decide (i < 0))
  | _ => none

/-- `for (; ++xc[i] > 9;)`.  Past the first digit `xc[-1]` is `undefined`, which is
not above 9. -/
def roundUp : ℕ → List ℕ → ℤ → List ℕ × ℤ
  | 0, xc, e =>
      if xc.getD 0 0 + 1 > 9 then (1 :: xc.set 0 0, e + 1) else (xc.set 0 (xc.getD 0 0 + 1), e)
  | i + 1, xc, e =>
      if xc.getD (i + 1) 0 + 1 > 9 then roundUp i (xc.set (i + 1) 0) e
      else (xc.set (i + 1) (xc.getD (i + 1) 0 + 1), e)

/-- The digits from the place `i` on removed, and one unit added to the rest if
`more` says so. -/
def cut (x : BigJs) (i : ℤ) (dp : ℕ) (more : Bool) : BigJs :=
  if i < 1 ∨ x.IsZero then
    if more then ⟨x.s, -dp, [1]⟩ else zero x.s
  else
    let xc := x.c.take i.toNat
    let (xc, e) := if more then roundUp (i.toNat - 1) xc x.e else (xc, x.e)
    ⟨x.s, e, xc.rdropWhile (· = 0)⟩

/-- The message of the `BigError` it throws is the error. -/
def rnd (x : BigJs) (dp rm : ℕ) (more : Bool) : Except String BigJs :=
  match roundsUp x.c (x.e + dp + 1) rm more with
  | none => .error "!Big.RM!"
  | some more => .ok (x.cut (x.e + dp + 1) dp more)

/-- `more` is `undefined` here. -/
def round (x : BigJs) (dp rm : ℕ) : Except String BigJs :=
  if dp > MAX_DP then .error "!round!" else rnd x dp rm false

/-- `Big.RM`: the numbers of the rounding modes. -/
def mode : ℕ → Option Mode
  | 0 => some .down
  | 1 => some .halfUp
  | 2 => some .halfEven
  | 3 => some .up
  | _ => none

/-! ## The carry -/

/-- One unit more at the last digit in front of the zeros. -/
theorem roundUp_spec (i : ℕ) {p : List ℕ} (length : p.length = i + 1) (below : Below 10 p)
    (first : ∀ d ∈ p.head?, d ≠ 0) (k : ℕ) (e : ℤ) :
    ∃ d m e', roundUp i (p ++ List.replicate k 0) e = (d :: m, e') ∧ d ≠ 0 ∧ Below 10 (d :: m) ∧
      reading 10 (d :: m) e' = reading 10 p e + 10 ^ (e - i) := by
  induction i generalizing p k with
  | zero =>
      obtain ⟨d, rfl⟩ := List.length_eq_one_iff.1 length
      have digit := below.head
      rw [roundUp, List.singleton_append, List.getD_cons_zero, List.set_cons_zero, List.set_cons_zero]
      by_cases nine : d + 1 > 9
      · obtain rfl : d = 9 := by omega
        refine ⟨1, 0 :: List.replicate k 0, e + 1, if_pos nine, by decide,
          .cons (by decide) (.cons (by decide) (.zeros (by decide) k)), ?_⟩
        simp only [Radix.reading_cons, Radix.reading_zeros, Radix.reading_nil]
        rw [zpow_add₀ (by norm_num)]
        push_cast
        rw [sub_zero]
        ring
      · refine ⟨d + 1, List.replicate k 0, e, if_neg nine, by omega, .cons (by omega) (.zeros (by decide) k), ?_⟩
        simp only [Radix.reading_cons, Radix.reading_zeros, Radix.reading_nil]
        push_cast
        rw [sub_zero]
        ring
  | succ i ih =>
      obtain ⟨r, d, rfl, inner⟩ := Radix.exists_concat length
      have digit := below.right.head
      obtain ⟨x, q, rfl⟩ : ∃ x q, r = x :: q := List.exists_cons_of_length_pos (by omega)
      have some : x ≠ 0 := first x rfl
      have place : e - ((i + 1 : ℕ) : ℤ) = e - (x :: q).length := by rw [inner]
      rw [roundUp, List.append_assoc, List.singleton_append, ← inner, Radix.getD_place, Radix.set_place,
        Radix.set_place, Radix.reading_append, inner]
      by_cases nine : d + 1 > 9
      · obtain rfl : d = 9 := by omega
        rw [if_pos nine, ← List.replicate_succ]
        obtain ⟨d, m, e', is, ne, small, value⟩ := ih inner below.left (by rintro y ⟨⟩; exact some) (k + 1)
        refine ⟨d, m, e', is, ne, small, ?_⟩
        have power : (10 : ℚ) ^ (e - i) = 10 * 10 ^ (e - (i + 1 : ℕ)) := by
          rw [← zpow_one_add₀ (by norm_num)]
          congr 1
          push_cast
          ring
        rw [value, power, Radix.reading_singleton]
        push_cast
        ring
      · rw [if_neg nine]
        refine ⟨x, q ++ (d + 1) :: List.replicate k 0, e, rfl, some, ?_, ?_⟩
        · exact (below.left).append (.cons (by omega) (.zeros (by decide) k))
        · rw [← List.cons_append, Radix.reading_append, inner]
          simp only [Radix.reading_cons, Radix.reading_zeros, Radix.reading_nil]
          push_cast
          ring

/-! ## The decision -/

section Decision

variable {xc : List ℕ} {i : ℤ} {rm : ℕ} {m : Mode} {more : Bool} {t : ℚ}

/-- What the digits and `more` say of an exact number: `t` stands behind the last
digit, in units of the place before the point. -/
structure Exact (xc : List ℕ) (i : ℤ) (more : Bool) (t : ℚ) : Prop where
  below : Below 10 xc
  nonneg : 0 ≤ t
  small : t < (10 : ℚ) ^ (i - xc.length)
  more_iff : more = true ↔ t ≠ 0
  /-- One digit behind the cut is known. -/
  enough : more = true → i < xc.length
  /-- Without more the last digit is not zero. -/
  last : more = false → ∀ p d, xc = p ++ [d] → d ≠ 0
  started : xc ≠ []

theorem Exact.more_eq_false (exact : Exact xc i more t) (zero : t = 0) : more = false := by
  by_contra some
  exact exact.more_iff.1 (by simpa using some) zero

theorem Exact.number_ne_zero (exact : Exact xc i more t) (none : more = false) {p q : List ℕ}
    (split : xc = p ++ q) (some : q ≠ []) : number 10 q ≠ 0 := by
  obtain ⟨r, d, rfl⟩ := q.eq_nil_or_concat.resolve_left some
  have ne := exact.last none (p ++ r) d (by rw [split, List.concat_eq_append, List.append_assoc])
  rw [List.concat_eq_append, Radix.number_concat]
  omega

theorem Exact.pos (exact : Exact xc i more t) : 0 < reading 10 xc (i - 1) + t := by
  have nonneg := Radix.reading_nonneg 10 xc (i - 1)
  cases known : more with
  | true => exact add_pos_of_nonneg_of_pos nonneg (lt_of_le_of_ne exact.nonneg (exact.more_iff.1 known).symm)
  | false =>
      have ne := exact.number_ne_zero known (List.nil_append xc).symm exact.started
      exact add_pos_of_pos_of_nonneg (Radix.reading_pos (by decide) ne _) exact.nonneg

theorem mode_cases (known : mode rm = some m) :
    rm = 0 ∧ m = .down ∨ rm = 1 ∧ m = .halfUp ∨ rm = 2 ∧ m = .halfEven ∨ rm = 3 ∧ m = .up := by
  unfold mode at known
  split at known <;> cases known <;> simp

/-- A place behind the first digits: everything is a fraction below a tenth. -/
theorem roundsUp_before (exact : Exact xc i more t) (known : mode rm = some m) (before : i < 0) :
    ∃ up, roundsUp xc i rm more = some up ∧ ⌊reading 10 xc (i - 1) + t⌋ = 0 ∧
      (up = true ↔ m.Up 0 (Int.fract (reading 10 xc (i - 1) + t))) := by
  have positive := exact.pos
  have tenth : reading 10 xc (i - 1) + t < 1 / 10 := by
    have whole : (number 10 xc : ℚ) + 1 ≤ (10 : ℚ) ^ (xc.length : ℤ) := by
      rw [zpow_natCast]
      exact_mod_cast Radix.number_lt (by decide) exact.below
    have power : (0 : ℚ) < (10 : ℚ) ^ (i - xc.length) := by positivity
    have small := exact.small
    have unit : (10 : ℚ) ^ (xc.length : ℤ) * (10 : ℚ) ^ (i - xc.length) = 10 ^ i := by
      rw [← zpow_add₀ (by norm_num)]
      congr 1
      ring
    have low : (10 : ℚ) ^ i ≤ 10 ^ (-1 : ℤ) := zpow_le_zpow_right₀ (by norm_num) (by omega)
    rw [Radix.reading_eq (by decide), sub_add_cancel]
    push_cast
    norm_num at low
    nlinarith
  have floor : ⌊reading 10 xc (i - 1) + t⌋ = 0 := by
    rw [Int.floor_eq_iff]
    push_cast
    constructor <;> linarith
  have fract : Int.fract (reading 10 xc (i - 1) + t) = reading 10 xc (i - 1) + t := by
    rw [Int.fract, floor, Int.cast_zero, sub_zero]
  have none : at' xc i = none := if_neg (not_le.2 before)
  rw [fract, floor]
  rcases mode_cases known with ⟨rfl, rfl⟩ | ⟨rfl, rfl⟩ | ⟨rfl, rfl⟩ | ⟨rfl, rfl⟩
  · exact ⟨false, rfl, rfl, by simp [Mode.Up]⟩
  · refine ⟨false, by rw [roundsUp, none]; rfl, rfl, ?_⟩
    rw [Mode.Up]
    constructor
    · intro off
      cases off
    · intro half
      linarith
  · refine ⟨false, by rw [roundsUp, none]; rfl, rfl, ?_⟩
    rw [Mode.Up]
    constructor
    · intro off
      cases off
    · rintro (above | ⟨half, -⟩) <;> linarith
  · refine ⟨true, by rw [roundsUp, none, decide_eq_true before]; simp, rfl, ?_⟩
    rw [Mode.Up]
    exact ⟨fun _ => positive.ne', fun _ => rfl⟩

/-- No digit at the place and no more. -/
theorem roundsUp_behind (known : mode rm = some m) (outside : at' xc i = none) (nonneg : 0 ≤ i) :
    roundsUp xc i rm false = some false := by
  rcases mode_cases known with ⟨rfl, rfl⟩ | ⟨rfl, rfl⟩ | ⟨rfl, rfl⟩ | ⟨rfl, rfl⟩
  · rfl
  · rw [roundsUp, outside]
    rfl
  · rw [roundsUp, outside]
    rfl
  · rw [roundsUp, outside, decide_eq_false (not_lt.2 nonneg)]
    rfl

/-- A place among the digits: the digits behind it decide. -/
theorem roundsUp_inside (exact : Exact xc i more t) (known : mode rm = some m) {n : ℕ} (place : i = n)
    (inside : n ≤ xc.length) :
    ∃ up, roundsUp xc i rm more = some up ∧ ⌊reading 10 xc (i - 1) + t⌋ = number 10 (xc.take n) ∧
      (up = true ↔ m.Up (number 10 (xc.take n)) (Int.fract (reading 10 xc (i - 1) + t))) := by
  subst place
  have small := exact.small
  obtain ⟨floor, fract⟩ := Radix.cut_floor (b := 10) (by decide) exact.below inside exact.nonneg
    (by exact_mod_cast exact.small)
  have here : at' xc n = xc[n]? := by rw [at', if_pos (Int.natCast_nonneg n), Int.toNat_natCast]
  have next : at' xc (n + 1) = xc[n + 1]? := by
    rw [at', if_pos (by omega)]
    rfl
  have before : ¬ (n : ℤ) < 0 := by omega
  rw [fract, floor]
  cases tail : xc.drop n with
  | nil =>
      -- nothing behind the cut, and no more
      have length : xc.length ≤ n := List.drop_eq_nil_iff.1 tail
      have none : more = false := by
        by_contra some
        have := exact.enough (by simpa using some)
        omega
      have zero : t = 0 := by
        by_contra some
        rw [exact.more_iff.2 some] at none
        cases none
      have outside : at' xc n = Option.none := by rw [here, List.getElem?_eq_none length]
      rw [Radix.reading_nil, zero, add_zero, none]
      exact ⟨false, roundsUp_behind known outside (Int.natCast_nonneg n), rfl, fun off => absurd off Bool.false_ne_true,
        fun up => absurd up (Mode.not_up_zero m _)⟩
  | cons d rest =>
      have split : xc = xc.take n ++ d :: rest := by rw [← tail, List.take_append_drop]
      have digit : at' xc n = some d := by
        rw [here, ← List.head?_drop, tail]
        rfl
      have behind : at' xc (n + 1) = rest.head? := by
        rw [next, ← List.head?_drop, ← List.tail_drop, tail]
        rfl
      have below : Below 10 (d :: rest) := tail ▸ exact.below.sublist (List.drop_sublist n xc)
      have length : ((d :: rest).length : ℤ) = xc.length - n := by
        rw [← tail, List.length_drop]
        omega
      have less : t < (10 : ℚ) ^ (-(d :: rest).length : ℤ) := by
        rw [length, neg_sub]
        exact small
      have half := Radix.half_le_iff below exact.nonneg less
      have equal := Radix.eq_half_iff below exact.nonneg less
      rcases mode_cases known with ⟨rfl, rfl⟩ | ⟨rfl, rfl⟩ | ⟨rfl, rfl⟩ | ⟨rfl, rfl⟩
      · exact ⟨false, rfl, rfl, by simp [Mode.Up]⟩
      · refine ⟨decide (5 ≤ d), by rw [roundsUp, digit]; rfl, rfl, ?_⟩
        rw [Mode.Up, half, decide_eq_true_iff]
      · have parity : ¬ Even (number 10 (xc.take n) : ℤ) ↔ (at' xc (n - 1)).getD 0 % 2 = 1 := by
          rw [Int.even_coe_nat, Nat.not_even_iff]
          cases n with
          | zero => simp [at']
          | succ k =>
              have back : at' xc ((k + 1 : ℕ) - 1) = xc[k]? := by
                rw [at', if_pos (by omega)]
                congr 1
                omega
              rw [back, Radix.take_succ (by omega), Radix.number_concat, List.getD_eq_getElem?_getD]
              omega
        refine ⟨_, by rw [roundsUp, digit, behind], rfl, ?_⟩
        rw [Mode.Up, parity]
        simp only [Option.getD_some, Bool.or_eq_true, Bool.and_eq_true, decide_eq_true_eq, beq_iff_eq,
          Option.some.injEq, decide_eq_false before, Bool.false_eq_true, or_false]
        -- above a half unless the digit is 5 and nothing follows
        have above : 1 / 2 < reading 10 (d :: rest) (-1) + t ↔
            5 ≤ d ∧ ¬ (d = 5 ∧ number 10 rest = 0 ∧ t = 0) := by
          rw [← half, ← equal, lt_iff_le_and_ne, ne_comm]
        have nothing : (more = true ∨ rest.head?.isSome = true) ↔ ¬ (number 10 rest = 0 ∧ t = 0) := by
          rw [exact.more_iff]
          constructor
          · rintro (some | some) ⟨empty, zero⟩
            · exact some zero
            · refine exact.number_ne_zero (p := xc.take n ++ [d]) (exact.more_eq_false zero) (split.trans (by simp)) ?_ empty
              rintro rfl
              cases some
          · intro some
            by_cases zero : t = 0
            · right
              cases rest with
              | nil => exact absurd ⟨rfl, zero⟩ some
              | cons => rfl
            · exact .inl zero
        rw [above, equal, nothing]
        constructor
        · rintro (six | ⟨five, follows | odd⟩)
          · exact .inl ⟨by omega, fun both => absurd both.1 (by omega)⟩
          · exact .inl ⟨by omega, fun both => follows both.2⟩
          · by_cases follows : number 10 rest = 0 ∧ t = 0
            · exact .inr ⟨⟨five, follows⟩, odd⟩
            · exact .inl ⟨by omega, fun both => follows both.2⟩
        · rintro (⟨five, more'⟩ | ⟨⟨five, -⟩, odd⟩)
          · by_cases six : 5 < d
            · exact .inl six
            · exact .inr ⟨by omega, .inl fun empty => more' ⟨by omega, empty⟩⟩
          · exact .inr ⟨five, .inr odd⟩
      · refine ⟨true, by rw [roundsUp, digit]; simp, rfl, ?_⟩
        rw [Mode.Up]
        refine ⟨fun _ empty => ?_, fun _ => rfl⟩
        have nonneg := Radix.reading_nonneg 10 (d :: rest) (-1)
        have zero : t = 0 := by linarith [exact.nonneg]
        have positive := Radix.reading_pos (b := 10) (by decide)
          (exact.number_ne_zero (exact.more_eq_false zero) split (List.cons_ne_nil d rest)) (-1)
        linarith [exact.nonneg]

end Decision

/-! ## Rounding -/

section Rounding

variable {x : BigJs} {dp rm : ℕ} {m : Mode} {more : Bool} {t : ℚ}

/-- One unit at the last decimal place. -/
theorem unit_spec {s : ℤ} (sign : s = 1 ∨ s = -1) (dp : ℕ) :
    (⟨s, -dp, [1]⟩ : BigJs).Canonical ∧ (⟨s, -dp, [1]⟩ : BigJs).value = s * (1 / (10 ^ dp : ℕ)) := by
  refine ⟨⟨sign, .cons (by decide) .nil, .inr ⟨⟨1, [], rfl, by decide⟩, [], 1, rfl, by decide⟩⟩, ?_⟩
  rw [value, Radix.reading_singleton, zpow_neg, zpow_natCast]
  push_cast
  ring

/-- What is left of the digits, in units of the last decimal place. -/
theorem cut_spec (sign : x.s = 1 ∨ x.s = -1) (below : Below 10 x.c) {n : ℕ} (place : x.e + dp + 1 = n + 1)
    (some : ¬ x.IsZero) (inside : n + 1 ≤ x.c.length) (up : Bool) :
    (x.cut (x.e + dp + 1) dp up).Canonical ∧ (x.cut (x.e + dp + 1) dp up).value =
      x.s * ((number 10 (x.c.take (n + 1)) + if up then 1 else 0) / (10 ^ dp : ℕ)) := by
  obtain ⟨d, q, shape, head⟩ : ∃ d q, x.c.take (n + 1) = d :: q ∧ d ≠ 0 := by
    obtain ⟨d, q, shape⟩ := List.exists_cons_of_length_pos (show 0 < x.c.length by omega)
    exact ⟨d, q.take n, by rw [shape, List.take_succ_cons], fun zero => some (by rw [IsZero, shape]; exact zero)⟩
  have small : Below 10 (d :: q) := shape ▸ below.sublist (List.take_sublist _ _)
  have length : (d :: q).length = n + 1 := by rw [← shape, List.length_take_of_le inside]
  have front : reading 10 (d :: q) x.e = number 10 (d :: q) / (10 ^ dp : ℕ) := by
    rw [Radix.reading_eq (by decide), length, show x.e + 1 - ((n + 1 : ℕ) : ℤ) = -dp by push_cast; omega,
      zpow_neg, zpow_natCast, div_eq_mul_inv]
    push_cast
    rfl
  rw [place, cut, if_neg (not_or.2 ⟨by omega, some⟩), show ((n : ℤ) + 1).toNat = n + 1 by omega,
    Nat.add_sub_cancel]
  dsimp only
  rw [shape]
  cases up with
  | true =>
      obtain ⟨d', q', e', is, head', small', value⟩ :=
        roundUp_spec n length small (by rintro y ⟨⟩; exact head) 0 x.e
      rw [List.replicate_zero, List.append_nil] at is
      rw [if_pos rfl, is]
      refine ⟨canonical_trim sign small' head', ?_⟩
      rw [value_trim, value, front, show x.e - n = -dp by omega, zpow_neg, zpow_natCast, if_pos rfl]
      push_cast
      ring
  | false =>
      rw [if_neg (by decide)]
      refine ⟨canonical_trim sign small head, ?_⟩
      rw [value_trim, front, if_neg (by decide), add_zero]

/-- Nothing to remove. -/
theorem cut_behind (sign : x.s = 1 ∨ x.s = -1) (below : Below 10 x.c) {n : ℕ} (place : x.e + dp + 1 = n + 1)
    (some : ¬ x.IsZero) (started : x.c ≠ []) (behind : x.c.length ≤ n + 1) :
    (x.cut (x.e + dp + 1) dp false).Canonical ∧ (x.cut (x.e + dp + 1) dp false).value = x.value := by
  obtain ⟨d, q, shape⟩ := List.exists_cons_of_ne_nil started
  have head : d ≠ 0 := fun zero => some (by rw [IsZero, shape]; exact zero)
  rw [place, cut, if_neg (not_or.2 ⟨by omega, some⟩), show ((n : ℤ) + 1).toNat = n + 1 by omega,
    List.take_of_length_le behind]
  dsimp only
  rw [if_neg (by decide), value_trim, shape]
  exact ⟨canonical_trim sign (shape ▸ below) head, by rw [value, shape]⟩

/-- **`rnd` rounds the exact number.** -/
theorem rnd_spec (sign : x.s = 1 ∨ x.s = -1) (exact : Exact x.c (x.e + dp + 1) more t) (known : mode rm = some m)
    (first : 0 < x.e + dp + 1 → ¬ x.IsZero) :
    ∃ z, rnd x dp rm more = .ok z ∧ z.Canonical ∧
      z.value = x.s * m.magnitude (10 ^ dp) (reading 10 x.c x.e + t / 10 ^ dp) := by
  have scaled : (reading 10 x.c x.e + t / 10 ^ dp) * (10 ^ dp : ℕ) = reading 10 x.c (x.e + dp + 1 - 1) + t := by
    rw [add_sub_cancel_right, Radix.reading_scale (by decide), zpow_natCast]
    push_cast
    field_simp
  have rounded : ∀ {up : Bool} {n : ℕ}, ⌊reading 10 x.c (x.e + dp + 1 - 1) + t⌋ = n →
      (up = true ↔ m.Up n (Int.fract (reading 10 x.c (x.e + dp + 1 - 1) + t))) →
      m.magnitude (10 ^ dp) (reading 10 x.c x.e + t / 10 ^ dp) = (n + if up then 1 else 0) / (10 ^ dp : ℕ) := by
    intro up n floor iff
    rw [Mode.magnitude, scaled, floor, Int.cast_natCast]
    simp only [← iff]
  by_cases before : x.e + dp + 1 < 1
  · -- nothing is left in front of the place
    obtain ⟨up, is, floor, iff⟩ : ∃ up, roundsUp x.c (x.e + dp + 1) rm more = some up ∧
        ⌊reading 10 x.c (x.e + dp + 1 - 1) + t⌋ = ((0 : ℕ) : ℤ) ∧
        (up = true ↔ m.Up ((0 : ℕ) : ℤ) (Int.fract (reading 10 x.c (x.e + dp + 1 - 1) + t))) := by
      by_cases negative : x.e + dp + 1 < 0
      · exact roundsUp_before exact known negative
      · exact roundsUp_inside exact known (n := 0) (by omega) (Nat.zero_le _)
    rw [rnd, is, rounded floor iff]
    refine ⟨_, rfl, ?_⟩
    rw [cut, if_pos (.inl before)]
    cases up with
    | true =>
        obtain ⟨canonical, value⟩ := unit_spec sign dp
        exact ⟨canonical, by rw [if_pos rfl, if_pos rfl, value]; norm_num⟩
    | false => exact ⟨zero_canonical sign, by simp⟩
  obtain ⟨n, place⟩ : ∃ n : ℕ, x.e + dp + 1 = n + 1 := ⟨(x.e + dp).toNat, by omega⟩
  have some := first (by omega)
  by_cases inside : n + 1 ≤ x.c.length
  · obtain ⟨up, is, floor, iff⟩ := roundsUp_inside exact known (n := n + 1) (by omega) inside
    rw [rnd, is, rounded floor iff]
    exact ⟨_, rfl, cut_spec sign exact.below place some inside up⟩
  · -- the digits end in front of the place
    have ended : more = false := by
      by_contra more'
      have := exact.enough (by simpa using more')
      omega
    have zero : t = 0 := by
      by_contra some
      rw [exact.more_iff.2 some] at ended
      cases ended
    have outside : at' x.c (x.e + dp + 1) = none := by
      rw [at', if_pos (by omega), List.getElem?_eq_none (by omega)]
    have grid : OnGrid (10 ^ dp) (reading 10 x.c x.e) := Radix.reading_onGrid (by decide) (by omega)
    rw [rnd, ended, roundsUp_behind known outside (by omega), zero, zero_div, add_zero,
      Mode.magnitude_of_onGrid (by positivity) grid]
    exact ⟨_, rfl, cut_behind sign exact.below place some exact.started (by omega)⟩

/-- **`round`, in every mode.** -/
theorem round_spec (canonical : x.Canonical) (places : dp ≤ MAX_DP) (known : mode rm = some m) :
    ∃ z, round x dp rm = .ok z ∧ z.Canonical ∧ z.value = m.round (10 ^ dp) x.value := by
  rw [round, if_neg (not_lt.2 places)]
  by_cases none : x.IsZero
  · obtain ⟨digits, exponent⟩ := canonical.of_isZero none
    have outside : at' x.c (x.e + dp + 1) = Option.none := by
      rw [at', if_pos (by omega), digits, exponent, List.getElem?_eq_none]
      rw [List.length_singleton]
      omega
    rw [rnd, roundsUp_behind known outside (by omega)]
    refine ⟨_, rfl, ?_⟩
    rw [cut, if_pos (.inr none), if_neg (by decide), canonical.isZero_iff.1 none, Mode.round, if_pos le_rfl,
      Mode.magnitude_zero (by positivity)]
    exact ⟨zero_canonical canonical.sign, zero_value _⟩
  · have exact : Exact x.c (x.e + dp + 1) false 0 :=
      { below := canonical.below
        nonneg := le_rfl
        small := by positivity
        more_iff := by simp
        enough := nofun
        last := fun _ p d shape zero => by
          obtain ⟨q, d', shape', ne⟩ := (canonical.trimmed none).last
          have same := List.append_inj_right' (shape.symm.trans shape') rfl
          exact ne (List.singleton_inj.1 same ▸ zero)
        started := canonical.c_ne_nil }
    obtain ⟨z, is, canonical', value⟩ := rnd_spec canonical.sign exact known fun _ => none
    refine ⟨z, is, canonical', ?_⟩
    rw [value, zero_div, add_zero, BigJs.value,
      Mode.round_signed (by positivity) canonical.sign (Radix.reading_nonneg _ _ _)]

/-- `0.25` to one place, half to even. -/
theorem round_spec_even : ∃ z, round ⟨1, -1, [2, 5]⟩ 1 2 = .ok z ∧ z.Canonical ∧
    z.value = Mode.halfEven.round (10 ^ 1) (⟨1, -1, [2, 5]⟩ : BigJs).value := by
  have canonical : (⟨1, -1, [2, 5]⟩ : BigJs).Canonical :=
    ⟨.inl rfl, .cons (by decide) (.cons (by decide) .nil), .inr ⟨⟨2, [5], rfl, by decide⟩, ⟨[2], 5, rfl, by decide⟩⟩⟩
  exact round_spec canonical (by decide) rfl

end Rounding

end ColabEdit.Browser.BigJs
