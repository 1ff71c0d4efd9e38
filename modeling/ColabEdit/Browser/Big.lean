/-
# ColabEdit.Browser.Big -- the numbers of `big.js` and their strings

A `Big` is a finite decimal.  `plus`, `minus` and `times` are exact, `div` rounds
half up to `Big.DP` places; `PPS.insert` sets `Big.DP` to 20000.

A tag is a string: `x + ''` writes a `Big` (`toString`, `app/static/js/big.js`,
lines 994 to 1033) and `Big(tag)` reads it back (`parse`, lines 168 to 231).
`parse_toString`: what is written reads back as the same number.  From `10 ^ -6`
on the string is in plain notation, and there the order of strings is the order
of the numbers (`toString_lt`); a number below is written with an exponent and
sorts behind `'1'` (`one_lt_exponential`).
-/
import ColabEdit.Browser.Pps
import ColabEdit.Theory.Digits
import ColabEdit.Theory.Rounding
import Mathlib.Data.String.Basic

namespace ColabEdit.Browser

open ColabEdit.Theory
open Digits (fraction)

set_option autoImplicit false

/-- `Big.DP`. -/
def DP : ℕ := 20000

/-- `Big.E_NEG` -/
def E_NEG : ℤ := -7

/-- `Big.E_POS` -/
def E_POS : ℤ := 21

structure Big where
  value : ℚ
  decimal : ∃ k : ℕ, OnGrid (10 ^ k) value

namespace Big

theorem value_injective : Function.Injective value := by
  rintro ⟨x, dx⟩ ⟨y, dy⟩ same
  cases same
  rfl

/-- `cmp` -/
instance : LinearOrder Big := LinearOrder.lift' value value_injective

theorem lt_iff {x y : Big} : x < y ↔ x.value < y.value := Iff.rfl

/-- A number with `k` decimals has `k + j` decimals. -/
theorem more_places {q : ℚ} {k : ℕ} (grid : OnGrid (10 ^ k) q) (j : ℕ) : OnGrid (10 ^ (k + j)) q := by
  obtain ⟨m, rfl⟩ := grid
  refine ⟨m * 10 ^ j, ?_⟩
  push_cast
  rw [pow_add]
  field_simp

theorem common_places (x y : Big) : ∃ k, OnGrid (10 ^ k) x.value ∧ OnGrid (10 ^ k) y.value := by
  obtain ⟨j, gx⟩ := x.decimal
  obtain ⟨k, gy⟩ := y.decimal
  exact ⟨j + k, more_places gx k, Nat.add_comm k j ▸ more_places gy j⟩

/-- `Big(n)` of an integer. -/
def ofInt (n : ℤ) : Big := ⟨n, 0, n, by simp⟩

def add (x y : Big) : Big where
  value := x.value + y.value
  decimal := by
    obtain ⟨k, gx, gy⟩ := common_places x y
    exact ⟨k, gx.add gy⟩

def minus (x y : Big) : Big where
  value := x.value - y.value
  decimal := by
    obtain ⟨k, gx, gy⟩ := common_places x y
    exact ⟨k, gx.sub gy⟩

def times (x y : Big) : Big where
  value := x.value * y.value
  decimal := by
    obtain ⟨k, ⟨m, gx⟩, ⟨n, gy⟩⟩ := common_places x y
    refine ⟨k + k, m * n, ?_⟩
    rw [gx, gy]
    push_cast
    rw [pow_add]
    field_simp

/-- A zero divisor throws in the source; `insert` divides by the number of
clients and by 2. -/
def div (x y : Big) : Big where
  value := halfUp (10 ^ DP) (x.value / y.value)
  decimal := ⟨DP, halfUp_onGrid _ _⟩

instance : BigNum Big where
  ofInt := ofInt
  add := add
  minus := minus
  times := times
  div := div

/-! ## Writing -/

/-- Places enough for every decimal of `x`. -/
def places (x : Big) : ℕ := Nat.log2 x.value.den

/-- The digits of `x` without sign and point. -/
def digits (x : Big) : List Char :=
  Nat.toDigits 10 (x.value.num.natAbs * 10 ^ x.places / x.value.den)

/-- `x.c`: the digits without the zeros at the end. -/
def c (x : Big) : List Char := if x.value = 0 then ['0'] else x.digits.rdropWhile (· = '0')

/-- `x.e`: the exponent of the first digit. -/
def e (x : Big) : ℤ := if x.value = 0 then 0 else x.digits.length - 1 - x.places

def intChars : ℤ → List Char
  | .ofNat n => Nat.toDigits 10 n
  | .negSucc n => '-' :: Nat.toDigits 10 (n + 1)

/-- `toString` without the sign. -/
def unsigned (x : Big) : List Char :=
  let str := x.c
  if x.e ≤ E_NEG ∨ E_POS ≤ x.e then
    str.take 1 ++ (if 1 < str.length then '.' :: str.drop 1 else []) ++
      (if x.e < 0 then ['e'] else ['e', '+']) ++ intChars x.e
  else if x.e < 0 then '0' :: '.' :: (List.replicate (-x.e - 1).toNat '0' ++ str)
  else if 0 < x.e then
    if str.length < x.e + 1 then str ++ List.replicate (x.e + 1 - str.length).toNat '0'
    else if x.e + 1 < str.length then
      str.take (x.e + 1).toNat ++ '.' :: str.drop (x.e + 1).toNat
    else str
  else if 1 < str.length then str.take 1 ++ '.' :: str.drop 1
  else str

def toString (x : Big) : String := .ofList (if x.value < 0 then '-' :: x.unsigned else x.unsigned)

/-! ## Reading -/

/-- `m * 10 ^ e`. -/
def scaled (m : ℤ) : ℤ → Big
  | .ofNat k => ⟨m * 10 ^ k, 0, m * 10 ^ k, by simp⟩
  | .negSucc k => ⟨m / 10 ^ (k + 1), k + 1, m, by push_cast; rfl⟩

def readDigits (l : List Char) : Option ℕ :=
  if l ≠ [] ∧ l.all Char.isDigit then some (Nat.ofDigitChars 10 l 0) else none

/-- `(e[+-]?\d+)?` -/
def readExponent : List Char → Option ℤ
  | [] => some 0
  | c :: rest =>
      if c = 'e' ∨ c = 'E' then
        match rest with
        | '-' :: digits => (readDigits digits).map fun (n : ℕ) => -(n : ℤ)
        | '+' :: digits => (readDigits digits).map fun (n : ℕ) => (n : ℤ)
        | digits => (readDigits digits).map fun (n : ℕ) => (n : ℤ)
      else none

/-- `\d+(\.\d*)?|\.\d+` and the exponent. -/
def readUnsigned (negative : Bool) (l : List Char) : Option Big :=
  let (whole, rest) := l.span Char.isDigit
  let (behind, rest) :=
    match rest with
    | '.' :: rest => rest.span Char.isDigit
    | rest => ([], rest)
  if whole = [] ∧ behind = [] then none
  else
    (readExponent rest).map fun e =>
      let m : ℤ := Nat.ofDigitChars 10 (whole ++ behind) 0
      scaled (if negative then -m else m) (e - behind.length)

/-- `none` is a string that `isValid` does not match, for which `Big` throws. -/
def parse (s : String) : Option Big :=
  match s.toList with
  | '-' :: rest => readUnsigned true rest
  | l => readUnsigned false l

/-! ## What the digits say -/

theorem dvd_places (x : Big) : x.value.den ∣ 10 ^ x.places := by
  obtain ⟨k, m, is⟩ := x.decimal
  refine Digits.dvd_ten_pow_log2 (k := k) ?_
  have dvd := Rat.den_dvd m ((10 ^ k : ℕ) : ℤ)
  rw [Rat.divInt_eq_div, Int.cast_natCast, ← is] at dvd
  exact_mod_cast dvd

/-- The digits are those of the number, moved to the left of the point. -/
theorem ofDigits_digits (x : Big) :
    (Nat.ofDigitChars 10 x.digits 0 : ℚ) = |x.value| * 10 ^ x.places := by
  obtain ⟨n, is⟩ := x.dvd_places
  have ne : (x.value.den : ℚ) ≠ 0 := by exact_mod_cast x.value.den_nz
  have abs_eq : |x.value| = x.value.num.natAbs / x.value.den := by
    conv_lhs => rw [← Rat.num_div_den x.value]
    rw [abs_div, Nat.abs_cast, Nat.cast_natAbs, Int.cast_abs]
  have power : (10 : ℚ) ^ x.places = x.value.den * n := by exact_mod_cast is
  rw [digits, Nat.ofDigitChars_ten_toDigits, is, Nat.mul_left_comm, Nat.mul_div_cancel_left _ x.value.den_pos,
    abs_eq, power]
  push_cast
  field_simp

theorem digits_all (x : Big) : Digits.All x.digits := .toDigits _

/-- The value from its digits and exponent. -/
theorem abs_value (x : Big) : |x.value| = fraction x.c * 10 ^ (x.e + 1) := by
  by_cases zero : x.value = 0
  · have nothing : x.c = ['0'] := if_pos zero
    rw [zero, nothing, abs_zero]
    simp [fraction, Digits.digit]
  · have digits : x.c = x.digits.rdropWhile (· = '0') := if_neg zero
    have exponent : x.e + 1 = x.digits.length - x.places := by
      rw [e, if_neg zero]
      omega
    rw [digits, exponent, Digits.fraction_rdropWhile, Digits.fraction_eq, ofDigits_digits,
      zpow_sub₀ (by norm_num), zpow_natCast, zpow_natCast]
    field_simp

theorem c_all (x : Big) : Digits.All x.c := by
  unfold c
  split
  · exact fun d member => by simp_all
  · exact x.digits_all.sublist (List.rdropWhile_prefix _ _).sublist

theorem c_ne_nil (x : Big) : x.c ≠ [] := by
  by_cases zero : x.value = 0
  · rw [show x.c = ['0'] from if_pos zero]
    exact List.cons_ne_nil _ _
  · intro empty
    have value := x.abs_value
    rw [empty, fraction, zero_mul] at value
    exact zero (abs_eq_zero.1 value)

/-- The exponent is that of the number. -/
theorem e_bounds {x : Big} (ne : x.value ≠ 0) : 10 ^ x.e ≤ |x.value| ∧ |x.value| < 10 ^ (x.e + 1) := by
  have number := x.ofDigits_digits
  have exponent : x.e = x.digits.length - 1 - x.places := if_neg ne
  have power : (0 : ℚ) < 10 ^ x.places := by positivity
  unfold digits at number exponent
  rw [Nat.ofDigitChars_ten_toDigits] at number
  generalize x.value.num.natAbs * 10 ^ x.places / x.value.den = n at number exponent
  have positive : n ≠ 0 := by
    rintro rfl
    rw [Nat.cast_zero] at number
    exact (mul_ne_zero (abs_ne_zero.2 ne) power.ne') number.symm
  have abs_eq : |x.value| = n / 10 ^ x.places := by
    rw [number, mul_div_cancel_right₀ _ power.ne']
  obtain ⟨len, length⟩ : ∃ len, (Nat.toDigits 10 n).length = len + 1 :=
    ⟨_, (Nat.succ_pred_eq_of_pos Nat.length_toDigits_pos).symm⟩
  have above : n < 10 ^ (len + 1) :=
    (Nat.length_toDigits_le_iff (by decide) (Nat.succ_pos _)).1 length.le
  have below : 10 ^ len ≤ n := by
    cases len with
    | zero => omega
    | succ len =>
        by_contra less
        have short := (Nat.length_toDigits_le_iff (b := 10) (by decide) (Nat.succ_pos len)).2 (not_le.1 less)
        omega
  have first : x.e = (len : ℤ) - x.places := by omega
  have next : x.e + 1 = ((len + 1 : ℕ) : ℤ) - x.places := by omega
  rw [next, first, abs_eq, zpow_sub₀ (by norm_num), zpow_sub₀ (by norm_num), zpow_natCast, zpow_natCast,
    zpow_natCast]
  constructor
  · exact div_le_div_of_nonneg_right (by exact_mod_cast below) power.le
  · exact div_lt_div_of_pos_right (by exact_mod_cast above) power

/-! ## What is written reads back -/

theorem scaled_value (m e : ℤ) : (scaled m e).value = m * 10 ^ e := by
  cases e with
  | ofNat k => rfl
  | negSucc k =>
      rw [zpow_negSucc]
      rfl

theorem readDigits_toDigits (n : ℕ) : readDigits (Nat.toDigits 10 n) = some n := by
  have all : (Nat.toDigits 10 n).all Char.isDigit = true := List.all_eq_true.2 (Digits.All.toDigits n)
  rw [readDigits, if_pos ⟨Nat.toDigits_ne_nil, all⟩, Nat.ofDigitChars_ten_toDigits]

/-- Digits with a point in front of the last ones, if there are any. -/
def pointed (whole behind : List Char) : List Char :=
  if behind = [] then whole else whole ++ '.' :: behind

/-- An unsigned string of a number, with or without a point and an exponent. -/
inductive Written (q : ℚ) : List Char → Prop
  | intro (whole behind suffix : List Char) (exponent : ℤ) (started : whole ≠ [])
      (digits : Digits.All (whole ++ behind)) (read : readExponent suffix = some exponent)
      (value : fraction (whole ++ behind) * 10 ^ (whole.length + exponent) = q) :
      Written q (pointed whole behind ++ suffix)

/-- An exponent starts with a letter. -/
theorem readExponent_head {suffix : List Char} {exponent : ℤ} (read : readExponent suffix = some exponent) :
    ∀ c ∈ suffix.head?, c = 'e' ∨ c = 'E' := by
  cases suffix with
  | nil => nofun
  | cons d rest =>
      rintro c ⟨⟩
      by_contra other
      simp only [readExponent, if_neg other] at read
      cases read

theorem Written.read {q : ℚ} {l : List Char} (written : Written q l) (negative : Bool) :
    ∃ x, readUnsigned negative l = some x ∧ x.value = if negative then -q else q := by
  obtain ⟨whole, behind, suffix, exponent, started, digits, read, value⟩ := written
  have letter := readExponent_head read
  have stop : ∀ c ∈ suffix.head?, ¬ c.isDigit := fun c head => by
    rcases letter c head with rfl | rfl <;> decide
  have all : Digits.All whole := fun c member => digits c (List.mem_append_left _ member)
  have all' : Digits.All behind := fun c member => digits c (List.mem_append_right _ member)
  refine ⟨scaled (if negative then -(Nat.ofDigitChars 10 (whole ++ behind) 0 : ℤ)
    else Nat.ofDigitChars 10 (whole ++ behind) 0) (exponent - behind.length), ?_, ?_⟩
  · unfold readUnsigned pointed
    by_cases none : behind = []
    · subst none
      rw [if_pos rfl, Digits.span_append all stop]
      cases suffix with
      | nil => simp [started, read]
      | cons c rest =>
          have point : c ≠ '.' := by rcases letter c rfl with rfl | rfl <;> decide
          simp [started, read, point]
    · rw [if_neg none, List.append_assoc, Digits.span_append all (by simp)]
      simp only [List.cons_append, Digits.span_append all' stop]
      simp [started, read]
  · have power : (10 : ℚ) ≠ 0 := by norm_num
    have number : (Nat.ofDigitChars 10 (whole ++ behind) 0 : ℚ) * 10 ^ (exponent - behind.length) = q := by
      rw [← value, Digits.fraction_eq, List.length_append, zpow_sub₀ power, zpow_add₀ power, zpow_natCast,
        zpow_natCast, pow_add]
      field_simp
    rw [scaled_value, ← number]
    cases negative <;> simp

theorem readExponent_intChars {n : ℤ} {sign : List Char} (signed : sign = if n < 0 then [] else ['+']) :
    readExponent ('e' :: (sign ++ intChars n)) = some n := by
  subst signed
  cases n with
  | ofNat n =>
      simp only [readExponent, intChars, Int.ofNat_eq_natCast, Int.not_lt.2 (Int.natCast_nonneg n), if_false]
      simp [readDigits_toDigits]
  | negSucc n =>
      simp only [readExponent, intChars, Int.negSucc_lt_zero, if_true]
      simp [readDigits_toDigits, Int.negSucc_eq]

/-- The point after the first `n` digits. -/
theorem pointed_take {str : List Char} {n : ℕ} (less : n < str.length) :
    pointed (str.take n) (str.drop n) = str.take n ++ '.' :: str.drop n := by
  rw [pointed, if_neg fun none => absurd (List.drop_eq_nil_iff.1 none) (not_le.2 less)]

theorem unsigned_written (x : Big) : Written |x.value| x.unsigned := by
  have value := x.abs_value
  have all := x.c_all
  have nonempty := List.length_pos_iff.2 x.c_ne_nil
  unfold unsigned
  generalize x.c = str at value all nonempty
  generalize x.e = e at value
  dsimp only
  -- the digits with the point after the first one
  have split : ∀ n : ℕ, Digits.All (str.take n ++ str.drop n) := fun n => by
    rwa [List.take_append_drop]
  have first : pointed (str.take 1) (str.drop 1) =
      str.take 1 ++ if 1 < str.length then '.' :: str.drop 1 else [] := by
    by_cases more : 1 < str.length
    · rw [if_pos more, pointed_take more]
    · rw [if_neg more, List.drop_eq_nil_iff.2 (not_lt.1 more), pointed, if_pos rfl, List.append_nil]
  have started : ∀ n, 0 < n → str.take n ≠ [] := fun n positive none => by
    have := congrArg List.length none
    rw [List.length_take, List.length_nil] at this
    omega
  by_cases exponential : e ≤ E_NEG ∨ E_POS ≤ e
  · have suffix : (if e < 0 then ['e'] else ['e', '+']) ++ intChars e =
        'e' :: ((if e < 0 then [] else ['+']) ++ intChars e) := by split <;> rfl
    rw [if_pos exponential, ← first, List.append_assoc, suffix]
    refine .intro _ _ _ e (started 1 one_pos) (split 1) (readExponent_intChars rfl) ?_
    rw [List.take_append_drop, value, List.length_take, min_eq_left nonempty, add_comm e]
    rfl
  rw [if_neg exponential]
  have plain : ∀ whole behind : List Char, whole ≠ [] → Digits.All (whole ++ behind) →
      fraction (whole ++ behind) * 10 ^ whole.length = |x.value| → Written |x.value| (pointed whole behind) := by
    intro whole behind ne digits is
    rw [← List.append_nil (pointed whole behind)]
    exact .intro _ _ [] 0 ne digits rfl (by rw [add_zero, zpow_natCast, is])
  by_cases small : e < 0
  · rw [if_pos small]
    obtain ⟨k, is⟩ : ∃ k : ℕ, e = -(k + 1 : ℕ) := ⟨(-e - 1).toNat, by omega⟩
    have zeros : (-e - 1).toNat = k := by omega
    rw [zeros]
    have ne : List.replicate k '0' ++ str ≠ [] := fun none => by
      rw [(List.append_eq_nil_iff.1 none).2] at nonempty
      cases nonempty
    have written := plain ['0'] (List.replicate k '0' ++ str) (List.cons_ne_nil _ _)
      ((Digits.All.zeros 1).append ((Digits.All.zeros k).append all)) ?_
    · rwa [pointed, if_neg ne] at written
    · have shape : ['0'] ++ (List.replicate k '0' ++ str) = List.replicate (k + 1) '0' ++ str := rfl
      rw [shape, Digits.fraction_zeros_append, value, is, zpow_add₀ (by norm_num), zpow_neg, zpow_natCast]
      simp only [List.length_singleton, pow_one, zpow_one]
      ring
  rw [if_neg small]
  obtain ⟨n, is⟩ : ∃ n : ℕ, e + 1 = n := ⟨(e + 1).toNat, by omega⟩
  rw [is, zpow_natCast] at value
  have inside : n < str.length → Written |x.value| (str.take n ++ '.' :: str.drop n) := fun less => by
    rw [← pointed_take less]
    refine plain _ _ (started n (by omega)) (split n) ?_
    rw [List.take_append_drop, List.length_take_of_le less.le, value]
  have outside : ∀ k, str.length + k = n → Written |x.value| (str ++ List.replicate k '0') := fun k length => by
    refine plain (str ++ List.replicate k '0') [] (fun none => ?_) ?_ ?_
    · rw [(List.append_eq_nil_iff.1 none).1] at nonempty
      cases nonempty
    · rw [List.append_nil]
      exact all.append (.zeros k)
    · rw [List.append_nil, Digits.fraction_append_zeros, List.length_append, List.length_replicate, length, value]
  have whole : str.length = n → Written |x.value| str := fun length => by
    have written := outside 0 length
    rwa [List.replicate_zero, List.append_nil] at written
  by_cases large : 0 < e
  · rw [if_pos large, is, Int.toNat_natCast]
    split
    · exact outside _ (by omega)
    · split
      · exact inside (by omega)
      · exact whole (by omega)
  · obtain rfl : n = 1 := by omega
    rw [if_neg large]
    split
    · exact inside (by omega)
    · exact whole (by omega)

theorem Written.head {q : ℚ} {l : List Char} (written : Written q l) : ∀ rest, l ≠ '-' :: rest := by
  obtain ⟨whole, behind, suffix, exponent, started, digits, -, -⟩ := written
  rintro rest same
  cases whole with
  | nil => exact started rfl
  | cons c whole =>
      have minus : c = '-' := by
        unfold pointed at same
        split at same <;> exact (List.cons.inj same).1
      have isDigit := digits c (by simp)
      rw [minus] at isDigit
      cases isDigit

/-- **What is written reads back.** -/
theorem parse_toString (x : Big) : parse x.toString = some x := by
  obtain ⟨y, read, value⟩ := x.unsigned_written.read (decide (x.value < 0))
  have same : y = x := value_injective (by
    rw [value]
    by_cases negative : x.value < 0
    · rw [decide_eq_true negative, if_pos rfl, abs_of_neg negative, neg_neg]
    · rw [decide_eq_false negative, if_neg (by decide), abs_of_nonneg (not_lt.1 negative)])
  subst same
  unfold parse toString
  rw [String.toList_ofList]
  by_cases negative : y.value < 0
  · rw [if_pos negative]
    rw [decide_eq_true negative] at read
    exact read
  · rw [if_neg negative]
    rw [decide_eq_false negative] at read
    split
    · rename_i rest minus
      exact absurd minus (y.unsigned_written.head rest)
    · exact read

/-! ## The order of the strings -/

/-- The exponent leaves plain notation below `10 ^ -6`. -/
theorem e_le_iff {x : Big} (ne : x.value ≠ 0) : x.e ≤ E_NEG ↔ |x.value| < 1 / 10 ^ 6 := by
  obtain ⟨low, high⟩ := e_bounds ne
  have bound : (1 : ℚ) / 10 ^ 6 = 10 ^ (-6 : ℤ) := by norm_num
  rw [bound]
  constructor
  · intro le
    refine high.trans_le (zpow_le_zpow_right₀ (by norm_num) ?_)
    unfold E_NEG at le
    omega
  · intro less
    by_contra gt
    have exponents : (-6 : ℤ) ≤ x.e := by
      unfold E_NEG at gt
      omega
    exact absurd (low.trans_lt less) (not_lt.2 (zpow_le_zpow_right₀ (by norm_num) exponents))

theorem e_neg {x : Big} (ne : x.value ≠ 0) (less : |x.value| < 1) : x.e < 0 := by
  by_contra nonneg
  have one : (1 : ℚ) ≤ 10 ^ x.e := one_le_zpow₀ (by norm_num) (not_lt.1 nonneg)
  exact absurd (one.trans (e_bounds ne).1) (not_le.2 less)

/-- The first digit is not zero. -/
theorem c_head {x : Big} (ne : x.value ≠ 0) {d : Char} {rest : List Char} (shape : x.c = d :: rest) :
    '1' ≤ d := by
  have all := x.c_all
  have value := x.abs_value
  have low := (e_bounds ne).1
  have power : (0 : ℚ) < 10 ^ x.e := zpow_pos (by norm_num) _
  rw [shape] at all value
  have isDigit := Char.isDigit_iff_toNat.1 all.head
  by_contra less
  have zero : Digits.digit d = 0 := by
    have : d.toNat < '1'.toNat := not_le.1 less
    unfold Digits.digit
    simp only [show '1'.toNat = 49 from rfl, show '0'.toNat = 48 from rfl] at this ⊢
    omega
  have small := Digits.fraction_lt_one all.tail
  rw [value, fraction, zero, zpow_add₀ (by norm_num), zpow_one] at low
  simp only [Nat.cast_zero, zero_add] at low
  nlinarith

/-- A number in plain notation, from 0 to 1. -/
structure Plain (x : Big) : Prop where
  nonneg : 0 ≤ x.value
  le_one : x.value ≤ 1
  plain : x.value = 0 ∨ 1 / 10 ^ 6 ≤ x.value

theorem toString_inside {x : Big} (low : 1 / 10 ^ 6 ≤ x.value) (less : x.value < 1) :
    ∃ behind, x.toString.toList = '0' :: '.' :: behind ∧ Digits.All behind ∧ fraction behind = x.value := by
  have positive : 0 < x.value := lt_of_lt_of_le (by norm_num) low
  have abs_eq := abs_of_pos positive
  have small : x.e < 0 := e_neg positive.ne' (by rwa [abs_eq])
  have plain : ¬ (x.e ≤ E_NEG ∨ E_POS ≤ x.e) := by
    rintro (tiny | huge)
    · rw [e_le_iff positive.ne', abs_eq] at tiny
      exact absurd tiny (not_lt.2 low)
    · unfold E_POS at huge
      omega
  refine ⟨List.replicate (-x.e - 1).toNat '0' ++ x.c, ?_, (Digits.All.zeros _).append x.c_all, ?_⟩
  · unfold toString unsigned
    rw [String.toList_ofList, if_neg (not_lt.2 positive.le)]
    dsimp only
    rw [if_neg plain, if_pos small]
  · rw [Digits.fraction_zeros_append, ← abs_eq, abs_value, div_eq_mul_inv, ← zpow_natCast, ← zpow_neg]
    congr 2
    omega

theorem toString_zero {x : Big} (zero : x.value = 0) : x.toString = "0" := by
  have same : x = ofInt 0 := value_injective (by rw [zero]; rfl)
  rw [same]
  decide +kernel

theorem toString_one {x : Big} (one : x.value = 1) : x.toString = "1" := by
  have same : x = ofInt 1 := value_injective (by rw [one]; rfl)
  rw [same]
  decide +kernel

/-- **In plain notation the order of the strings is the order of the numbers.** -/
theorem toString_lt {x y : Big} (plain : x.Plain) (plain' : y.Plain) (less : x < y) :
    x.toString < y.toString := by
  rw [lt_iff] at less
  have inside : ∀ {z : Big}, z.Plain → z.value ≠ 0 → 1 / 10 ^ 6 ≤ z.value := fun p ne => p.plain.resolve_left ne
  rw [String.lt_iff_toList_lt]
  by_cases one : y.value = 1
  · rw [toString_one one]
    by_cases zero : x.value = 0
    · rw [toString_zero zero]
      decide
    · obtain ⟨behind, shape, -, -⟩ := toString_inside (inside plain zero) (one ▸ less)
      rw [shape]
      exact .rel (by decide)
  · have positive : y.value ≠ 0 := (plain.nonneg.trans_lt less).ne'
    obtain ⟨behind', shape', all', value'⟩ :=
      toString_inside (inside plain' positive) (lt_of_le_of_ne plain'.le_one one)
    rw [shape']
    by_cases zero : x.value = 0
    · rw [toString_zero zero]
      exact .cons .nil
    · obtain ⟨behind, shape, all, value⟩ :=
        toString_inside (inside plain zero) (less.trans_le plain'.le_one)
      rw [shape]
      refine .cons (.cons ?_)
      rcases lt_trichotomy behind behind' with before | same | after
      · exact before
      · rw [← value, ← value', same] at less
        exact absurd less (lt_irrefl _)
      · have le := Digits.fraction_mono all' after
        rw [value, value'] at le
        exact absurd less (not_lt.2 le)

/-- A number in exponential notation sorts behind `'1'`. -/
theorem one_lt_exponential {x : Big} (positive : 0 < x.value) (tiny : x.value < 1 / 10 ^ 6) :
    "1" < x.toString := by
  have abs_eq := abs_of_pos positive
  have exponent : x.e ≤ E_NEG := (e_le_iff positive.ne').2 (by rwa [abs_eq])
  obtain ⟨d, rest, shape⟩ := List.exists_cons_of_ne_nil x.c_ne_nil
  have first := c_head positive.ne' shape
  obtain ⟨c, more, tail⟩ : ∃ c more, x.toString.toList = d :: c :: more := by
    unfold toString unsigned
    rw [String.toList_ofList, if_neg (not_lt.2 positive.le)]
    dsimp only
    rw [if_pos (Or.inl exponent), shape]
    split <;> split <;> exact ⟨_, _, rfl⟩
  rw [String.lt_iff_toList_lt, tail]
  rcases first.lt_or_eq with above | rfl
  · exact .rel above
  · exact .cons .nil

end Big

/-- String tags under the string order.  `Big` of a string that is no number throws;
`insert` and `add` pass it the strings of numbers only. -/
instance : BigTag String Big where
  tag0 := "0"
  tag1 := "1"
  tag0_lt_tag1 := by decide
  big := fun tag => (Big.parse tag).getD (.ofInt 0)
  str := Big.toString

end ColabEdit.Browser
