/-
# ColabEdit.Theory.Digits -- digit strings behind a decimal point

`fraction` is the value of a string of digits read behind a decimal point.  It is
the number of the digits over a power of ten (`fraction_eq`), leading zeros divide
it and trailing zeros do nothing.

`fraction_mono`: the dictionary order of digit strings is the order of their
values, at any lengths.
-/
import Mathlib.Data.Char
import Mathlib.Data.List.DropRight
import Mathlib.Data.List.Lex
import Mathlib.Data.Nat.Prime.Basic
import Mathlib.Data.Rat.Cast.Order
import Mathlib.Tactic.FieldSimp
import Mathlib.Tactic.Linarith
import Mathlib.Tactic.Positivity
import Mathlib.Tactic.Ring

namespace ColabEdit.Theory.Digits

set_option autoImplicit false

def digit (c : Char) : ℕ := c.toNat - '0'.toNat

def fraction : List Char → ℚ
  | [] => 0
  | c :: rest => (digit c + fraction rest) / 10

/-- Every character is a decimal digit. -/
def All (l : List Char) : Prop := ∀ c ∈ l, c.isDigit

namespace All

variable {c : Char} {l l' : List Char}

theorem head (digits : All (c :: l)) : c.isDigit := digits c (by simp)

theorem tail (digits : All (c :: l)) : All l := fun d member => digits d (by simp [member])

theorem append (digits : All l) (digits' : All l') : All (l ++ l') := fun c member =>
  (List.mem_append.1 member).elim (digits c) (digits' c)

theorem sublist (digits : All l) (sub : l'.Sublist l) : All l' := fun c member =>
  digits c (sub.subset member)

theorem zeros (n : ℕ) : All (List.replicate n '0') := fun c member => by
  rw [List.eq_of_mem_replicate member]
  rfl

theorem toDigits (n : ℕ) : All (Nat.toDigits 10 n) := fun _ member =>
  Nat.isDigit_of_mem_toDigits (by decide) (by decide) member

end All

theorem digit_le {c : Char} (isDigit : c.isDigit) : digit c ≤ 9 := by
  have bounds := Char.isDigit_iff_toNat.1 isDigit
  unfold digit
  simp only [show '0'.toNat = 48 from rfl, show '9'.toNat = 57 from rfl] at bounds ⊢
  omega

theorem digit_lt_of_lt {c d : Char} (isDigit : c.isDigit) (lt : c < d) : digit c < digit d := by
  have bounds := Char.isDigit_iff_toNat.1 isDigit
  have less : c.toNat < d.toNat := lt
  unfold digit
  simp only [show '0'.toNat = 48 from rfl, show '9'.toNat = 57 from rfl] at bounds ⊢
  omega

theorem fraction_nonneg (l : List Char) : 0 ≤ fraction l := by
  induction l with
  | nil => exact le_rfl
  | cons c rest ih =>
      unfold fraction
      positivity

theorem fraction_lt_one {l : List Char} (digits : All l) : fraction l < 1 := by
  induction l with
  | nil => exact zero_lt_one
  | cons c rest ih =>
      have small : (digit c : ℚ) ≤ 9 := by exact_mod_cast digit_le digits.head
      have less := ih digits.tail
      unfold fraction
      linarith

/-- **Dictionary order is numeric order.** -/
theorem fraction_mono {l l' : List Char} (digits : All l) (less : List.Lex (· < ·) l l') :
    fraction l ≤ fraction l' := by
  induction less with
  | nil => exact fraction_nonneg _
  | @cons c rest rest' _ ih =>
      have tails := ih digits.tail
      unfold fraction
      linarith
  | @rel c rest d rest' first =>
      -- a whole digit outweighs everything behind it
      have whole : (digit c : ℚ) + 1 ≤ digit d := by exact_mod_cast digit_lt_of_lt digits.head first
      have bound := fraction_lt_one digits.tail
      have nonneg := fraction_nonneg rest'
      unfold fraction
      linarith

theorem fraction_append (l l' : List Char) :
    fraction (l ++ l') = fraction l + fraction l' / 10 ^ l.length := by
  induction l with
  | nil => simp [fraction]
  | cons c rest ih =>
      rw [List.cons_append, fraction, ih, fraction, List.length_cons, pow_succ]
      field_simp
      ring

theorem fraction_replicate_zero (n : ℕ) : fraction (List.replicate n '0') = 0 := by
  induction n with
  | zero => rfl
  | succ n ih =>
      rw [List.replicate_succ, fraction, ih]
      simp [digit]

theorem fraction_zeros_append (n : ℕ) (l : List Char) :
    fraction (List.replicate n '0' ++ l) = fraction l / 10 ^ n := by
  rw [fraction_append, fraction_replicate_zero, List.length_replicate, zero_add]

theorem fraction_append_zeros (l : List Char) (n : ℕ) :
    fraction (l ++ List.replicate n '0') = fraction l := by
  rw [fraction_append, fraction_replicate_zero, zero_div, add_zero]

/-- Trailing zeros are the only thing `rdropWhile` takes away. -/
theorem exists_zeros (l : List Char) :
    ∃ n, l = l.rdropWhile (· = '0') ++ List.replicate n '0' := by
  induction l using List.reverseRecOn with
  | nil => exact ⟨0, rfl⟩
  | append_singleton rest c ih =>
      by_cases zero : c = '0'
      · obtain ⟨n, shape⟩ := ih
        subst zero
        rw [List.rdropWhile_concat_pos _ _ _ (by simp)]
        refine ⟨n + 1, ?_⟩
        rw [List.replicate_succ', ← List.append_assoc, ← shape]
      · rw [List.rdropWhile_concat_neg _ _ _ (by simpa using zero)]
        exact ⟨0, (List.append_nil _).symm⟩

theorem fraction_rdropWhile (l : List Char) : fraction (l.rdropWhile (· = '0')) = fraction l := by
  obtain ⟨n, shape⟩ := exists_zeros l
  conv_rhs => rw [shape]
  exact (fraction_append_zeros _ n).symm

theorem fraction_eq (l : List Char) : fraction l = Nat.ofDigitChars 10 l 0 / 10 ^ l.length := by
  induction l with
  | nil => simp [fraction]
  | cons c rest ih =>
      have split : Nat.ofDigitChars 10 (c :: rest) 0 =
          10 ^ rest.length * digit c + Nat.ofDigitChars 10 rest 0 := by
        rw [Nat.ofDigitChars_cons, Nat.mul_zero, Nat.zero_add]
        exact Nat.ofDigitChars_eq_ofDigitChars_zero
      rw [fraction, ih, split, List.length_cons, pow_succ]
      push_cast
      field_simp

/-- A divisor of a power of ten divides a power that is not larger than itself. -/
theorem dvd_ten_pow_log2 {d k : ℕ} (dvd : d ∣ 10 ^ k) : d ∣ 10 ^ Nat.log2 d := by
  have split : ∀ n : ℕ, 10 ^ n = 2 ^ n * 5 ^ n := fun n => by
    rw [← Nat.mul_pow]
  rw [split] at dvd ⊢
  obtain ⟨y, z, dvd_two, dvd_five, rfl⟩ := Nat.dvd_mul.1 dvd
  obtain ⟨a, -, rfl⟩ := (Nat.dvd_prime_pow Nat.prime_two).1 dvd_two
  obtain ⟨b, -, rfl⟩ := (Nat.dvd_prime_pow Nat.prime_five).1 dvd_five
  have pos_two : 0 < 2 ^ a := by positivity
  have pos_five : 0 < 5 ^ b := by positivity
  have ne : 2 ^ a * 5 ^ b ≠ 0 := by positivity
  have le_a : a ≤ Nat.log2 (2 ^ a * 5 ^ b) := (Nat.le_log2 ne).2 (Nat.le_mul_of_pos_right _ pos_five)
  have le_b : b ≤ Nat.log2 (2 ^ a * 5 ^ b) :=
    (Nat.le_log2 ne).2 ((Nat.pow_le_pow_left (by decide) b).trans (Nat.le_mul_of_pos_left _ pos_two))
  exact mul_dvd_mul (pow_dvd_pow 2 le_a) (pow_dvd_pow 5 le_b)

/-- The digits in front of something else are what `span` takes. -/
theorem span_append {l rest : List Char} (digits : All l) (stop : ∀ c ∈ rest.head?, ¬ c.isDigit) :
    (l ++ rest).span Char.isDigit = (l, rest) := by
  rw [List.span_eq_takeWhile_dropWhile, List.takeWhile_append_of_pos digits,
    List.dropWhile_append_of_pos digits]
  cases rest with
  | nil => simp
  | cons c rest =>
      have stops := stop c rfl
      rw [List.takeWhile_cons_of_neg stops, List.dropWhile_cons_of_neg stops, List.append_nil]

end ColabEdit.Theory.Digits
