/-
# ColabEdit.Theory.Radix -- digit lists, first digit first

`number b l` is the natural number that the digits `l` write in base `b`, and
`reading b l e` the rational number they write when the first one stands at the
place `b ^ e`.

A reading whose first digit is not zero lies between `b ^ e` and `b ^ (e + 1)`.
So readings are compared by the exponent, then by the first digit that differs,
then by the length (`reading_lt_of_exponent`, `reading_lt_of_digit`,
`reading_lt_of_length`), and a reading without zeros at its two ends has one digit
list and one exponent (`reading_unique`).
-/
import Mathlib.Algebra.Order.Field.Power
import Mathlib.Algebra.Order.Ring.Rat
import Mathlib.Data.List.DropRight
import Mathlib.Data.List.GetD
import Mathlib.Data.Nat.Digits.Defs
import Mathlib.Tactic.FieldSimp
import Mathlib.Tactic.Linarith
import Mathlib.Tactic.Positivity
import Mathlib.Tactic.Ring

namespace ColabEdit.Theory.Radix

set_option autoImplicit false

/-- Every entry is a digit of base `b`. -/
def Below (b : ℕ) (l : List ℕ) : Prop := ∀ d ∈ l, d < b

def number (b : ℕ) (l : List ℕ) : ℕ := Nat.ofDigits b l.reverse

def reading (b : ℕ) : List ℕ → ℤ → ℚ
  | [], _ => 0
  | d :: l, e => d * (b : ℚ) ^ e + reading b l (e - 1)

namespace Below

variable {b d : ℕ} {l l' : List ℕ}

theorem nil : Below b [] := nofun

theorem cons (small : d < b) (rest : Below b l) : Below b (d :: l) := by
  rintro x (_ | ⟨_, member⟩)
  · exact small
  · exact rest x member

theorem head (below : Below b (d :: l)) : d < b := below d (by simp)

theorem tail (below : Below b (d :: l)) : Below b l := fun x member => below x (by simp [member])

theorem append (below : Below b l) (below' : Below b l') : Below b (l ++ l') := fun x member =>
  (List.mem_append.1 member).elim (below x) (below' x)

theorem left (below : Below b (l ++ l')) : Below b l := fun x member => below x (by simp [member])

theorem right (below : Below b (l ++ l')) : Below b l' := fun x member => below x (by simp [member])

theorem zeros (positive : 0 < b) (n : ℕ) : Below b (List.replicate n 0) := fun x member => by
  rw [List.eq_of_mem_replicate member]
  exact positive

theorem sublist (below : Below b l) (sub : l'.Sublist l) : Below b l' := fun x member =>
  below x (sub.subset member)

theorem getD (below : Below b l) (positive : 0 < b) (i : ℕ) : l.getD i 0 < b := by
  rcases lt_or_ge i l.length with inside | outside
  · rw [List.getD_eq_getElem _ _ inside]
    exact below _ (List.getElem_mem inside)
  · rw [List.getD_eq_default _ _ outside]
    exact positive

end Below

section Number

variable {b d : ℕ} {l l' : List ℕ}

@[simp] theorem number_nil (b : ℕ) : number b [] = 0 := rfl

@[simp] theorem number_singleton (b d : ℕ) : number b [d] = d := Nat.ofDigits_singleton

theorem number_append (b : ℕ) (l l' : List ℕ) :
    number b (l ++ l') = number b l * b ^ l'.length + number b l' := by
  unfold number
  rw [List.reverse_append, Nat.ofDigits_append, List.length_reverse]
  ring

theorem number_cons (b d : ℕ) (l : List ℕ) : number b (d :: l) = d * b ^ l.length + number b l := by
  rw [← List.singleton_append, number_append, number_singleton]

theorem number_concat (b : ℕ) (l : List ℕ) (d : ℕ) : number b (l ++ [d]) = number b l * b + d := by
  rw [number_append, number_singleton, List.length_singleton, pow_one]

@[simp] theorem number_zeros (b n : ℕ) : number b (List.replicate n 0) = 0 := by
  unfold number
  rw [List.reverse_replicate, Nat.ofDigits_replicate_zero]

/-- Zeros in front do nothing. -/
@[simp] theorem number_zeros_append (b n : ℕ) (l : List ℕ) : number b (List.replicate n 0 ++ l) = number b l := by
  rw [number_append, number_zeros, Nat.zero_mul, Nat.zero_add]

@[simp] theorem number_zero_cons (b : ℕ) (l : List ℕ) : number b (0 :: l) = number b l :=
  number_zeros_append b 1 l

theorem number_lt (base : 1 < b) (below : Below b l) : number b l < b ^ l.length := by
  rw [← List.length_reverse]
  exact Nat.ofDigits_lt_base_pow_length base fun d member => below d (List.mem_reverse.1 member)

/-- A digit that is not zero in front. -/
theorem pow_le_number (first : d ≠ 0) : b ^ l.length ≤ number b (d :: l) := by
  rw [number_cons]
  exact (Nat.le_mul_of_pos_left _ (Nat.pos_of_ne_zero first)).trans (Nat.le_add_right _ _)

/-- In lists of one length the first digit that differs decides. -/
theorem number_lt_of_digit (base : 1 < b) {p m m' : List ℕ} {d' : ℕ} (below : Below b (d :: m))
    (length : m.length = m'.length) (less : d < d') : number b (p ++ d :: m) < number b (p ++ d' :: m') := by
  have small := number_lt base below.tail
  have whole : d * b ^ m.length + b ^ m.length ≤ d' * b ^ m.length := by
    rw [← Nat.succ_mul]
    exact Nat.mul_le_mul_right _ less
  rw [number_append, number_append, number_cons, number_cons, List.length_cons, List.length_cons, ← length]
  omega

/-- Zeros in front taken away. -/
theorem dropWhile_spec (l : List ℕ) :
    number b (l.dropWhile (· = 0)) = number b l ∧ ∀ d ∈ (l.dropWhile (· = 0)).head?, d ≠ 0 := by
  induction l with
  | nil => exact ⟨rfl, nofun⟩
  | cons d l ih =>
      by_cases zero : d = 0
      · subst zero
        rw [List.dropWhile_cons_of_pos (by simp), number_zero_cons]
        exact ih
      · rw [List.dropWhile_cons_of_neg (by simpa using zero)]
        exact ⟨rfl, by rintro x ⟨⟩; exact zero⟩

/-- The first digits are what division leaves. -/
theorem number_take (base : 1 < b) (below : Below b l) (n : ℕ) :
    number b (l.take n) = number b l / b ^ (l.length - n) := by
  have split := number_append b (l.take n) (l.drop n)
  have small := number_lt base (below.sublist (List.drop_sublist n l))
  rw [List.take_append_drop] at split
  rw [← List.length_drop, split, Nat.add_comm, Nat.add_mul_div_right _ _ (by positivity),
    Nat.div_eq_of_lt small, Nat.zero_add]

end Number

section Reading

variable {b d d' : ℕ} {l l' p : List ℕ} {e e' : ℤ}

@[simp] theorem reading_nil (b : ℕ) (e : ℤ) : reading b [] e = 0 := rfl

theorem reading_cons (b d : ℕ) (l : List ℕ) (e : ℤ) :
    reading b (d :: l) e = d * (b : ℚ) ^ e + reading b l (e - 1) := rfl

@[simp] theorem reading_singleton (b d : ℕ) (e : ℤ) : reading b [d] e = d * (b : ℚ) ^ e := by
  rw [reading_cons, reading_nil, add_zero]

theorem reading_append (b : ℕ) (l l' : List ℕ) (e : ℤ) :
    reading b (l ++ l') e = reading b l e + reading b l' (e - l.length) := by
  induction l generalizing e with
  | nil => simp
  | cons d l ih =>
      have place : e - 1 - (l.length : ℤ) = e - (l.length + 1 : ℕ) := by
        push_cast
        ring
      rw [List.cons_append, reading_cons, ih, reading_cons, List.length_cons, place]
      ring

@[simp] theorem reading_zeros (b n : ℕ) (e : ℤ) : reading b (List.replicate n 0) e = 0 := by
  induction n generalizing e with
  | zero => rfl
  | succ n ih => rw [List.replicate_succ, reading_cons, ih, Nat.cast_zero, zero_mul, add_zero]

/-- Zeros behind do nothing. -/
@[simp] theorem reading_append_zeros (b n : ℕ) (l : List ℕ) (e : ℤ) :
    reading b (l ++ List.replicate n 0) e = reading b l e := by
  rw [reading_append, reading_zeros, add_zero]

/-- Zeros in front push the digits down. -/
theorem reading_zeros_append (b n : ℕ) (l : List ℕ) (e : ℤ) :
    reading b (List.replicate n 0 ++ l) e = reading b l (e - n) := by
  rw [reading_append, reading_zeros, zero_add, List.length_replicate]

theorem reading_eq (positive : 0 < b) (l : List ℕ) (e : ℤ) :
    reading b l e = number b l * (b : ℚ) ^ (e + 1 - l.length) := by
  have ne : (b : ℚ) ≠ 0 := by positivity
  induction l generalizing e with
  | nil => simp
  | cons d l ih =>
      have place : e - 1 + 1 - (l.length : ℤ) = e + 1 - (l.length + 1 : ℕ) := by
        push_cast
        ring
      have first : (b : ℚ) ^ e = (b : ℚ) ^ l.length * (b : ℚ) ^ (e + 1 - (l.length + 1 : ℕ)) := by
        rw [← zpow_natCast, ← zpow_add₀ ne]
        congr 1
        push_cast
        ring
      rw [reading_cons, ih, place, number_cons, List.length_cons, first]
      push_cast
      ring

/-- The point moved. -/
theorem reading_scale (positive : 0 < b) (l : List ℕ) (e k : ℤ) :
    reading b l (e + k) = reading b l e * (b : ℚ) ^ k := by
  have ne : (b : ℚ) ≠ 0 := by positivity
  rw [reading_eq positive, reading_eq positive, mul_assoc, ← zpow_add₀ ne]
  congr 2
  ring

theorem reading_nonneg (b : ℕ) (l : List ℕ) (e : ℤ) : 0 ≤ reading b l e := by
  induction l generalizing e with
  | nil => exact le_rfl
  | cons d l ih => exact add_nonneg (by positivity) (ih _)

theorem reading_pos (positive : 0 < b) (more : number b l ≠ 0) (e : ℤ) : 0 < reading b l e := by
  have some : (0 : ℚ) < number b l := by exact_mod_cast Nat.pos_of_ne_zero more
  rw [reading_eq positive]
  positivity

theorem reading_lt (base : 1 < b) (below : Below b l) (e : ℤ) : reading b l e < (b : ℚ) ^ (e + 1) := by
  have positive : 0 < b := by omega
  have small : (number b l : ℚ) < (b : ℚ) ^ (l.length : ℤ) := by
    rw [zpow_natCast]
    exact_mod_cast number_lt base below
  have ne : (b : ℚ) ≠ 0 := by positivity
  have power : (0 : ℚ) < (b : ℚ) ^ (e + 1 - l.length) := by positivity
  calc reading b l e = number b l * (b : ℚ) ^ (e + 1 - l.length) := reading_eq positive l e
    _ < (b : ℚ) ^ (l.length : ℤ) * (b : ℚ) ^ (e + 1 - l.length) := mul_lt_mul_of_pos_right small power
    _ = (b : ℚ) ^ (e + 1) := by rw [← zpow_add₀ ne]; congr 1; ring

theorem pow_le_reading (first : d ≠ 0) : (b : ℚ) ^ e ≤ reading b (d :: l) e := by
  have one : (1 : ℚ) ≤ d := by exact_mod_cast Nat.pos_of_ne_zero first
  have power : (0 : ℚ) ≤ (b : ℚ) ^ e := by positivity
  have rest := reading_nonneg b l (e - 1)
  rw [reading_cons]
  nlinarith

/-- What reaches the place of the first digit starts with a digit other than zero. -/
theorem first_of_pow_le (base : 1 < b) (below : Below b l) (large : (b : ℚ) ^ e ≤ reading b l e) :
    ∃ d m, l = d :: m ∧ d ≠ 0 := by
  have power : (0 : ℚ) < (b : ℚ) ^ e := by positivity
  cases l with
  | nil => exact absurd large (not_le.2 power)
  | cons d m =>
      refine ⟨d, m, rfl, fun zero => ?_⟩
      subst zero
      have small := reading_lt base below.tail (e - 1)
      rw [sub_add_cancel] at small
      rw [reading_cons, Nat.cast_zero, zero_mul, zero_add] at large
      exact absurd large (not_le.2 small)

/-! ## The order -/

/-- The exponents decide. -/
theorem reading_lt_of_exponent (base : 1 < b) (below : Below b l) (first : d ≠ 0) (less : e < e') :
    reading b l e < reading b (d :: l') e' :=
  calc reading b l e < (b : ℚ) ^ (e + 1) := reading_lt base below e
    _ ≤ (b : ℚ) ^ e' := zpow_le_zpow_right₀ (by exact_mod_cast base.le) (by omega)
    _ ≤ reading b (d :: l') e' := pow_le_reading first

/-- The first digit that differs decides. -/
theorem reading_lt_of_digit (base : 1 < b) (below : Below b (p ++ d :: l)) (less : d < d') :
    reading b (p ++ d :: l) e < reading b (p ++ d' :: l') e := by
  have whole : (d : ℚ) + 1 ≤ d' := by exact_mod_cast less
  have place : (0 : ℚ) < (b : ℚ) ^ (e - p.length) := by positivity
  have behind := reading_lt base below.right.tail (e - p.length - 1)
  have behind' := reading_nonneg b l' (e - p.length - 1)
  rw [sub_add_cancel] at behind
  rw [reading_append, reading_append, reading_cons, reading_cons]
  nlinarith

/-- A longer list with the same first digits has more behind them. -/
theorem reading_lt_of_length (positive : 0 < b) (more : number b l ≠ 0) :
    reading b p e < reading b (p ++ l) e := by
  rw [reading_append]
  linarith [reading_pos positive more (e - p.length)]

/-- Two lists are equal, one goes on behind the other, or a first digit differs. -/
theorem first_difference (l l' : List ℕ) :
    (∃ m, l' = l ++ m) ∨ (∃ d m, l = l' ++ d :: m) ∨
      ∃ p d m d' m', l = p ++ d :: m ∧ l' = p ++ d' :: m' ∧ d ≠ d' := by
  induction l generalizing l' with
  | nil => exact .inl ⟨l', rfl⟩
  | cons d l ih =>
      cases l' with
      | nil => exact .inr (.inl ⟨d, l, rfl⟩)
      | cons d' l' =>
          by_cases same : d = d'
          · subst same
            rcases ih l' with ⟨m, rfl⟩ | ⟨x, m, rfl⟩ | ⟨p, x, m, x', m', rfl, rfl, differ⟩
            · exact .inl ⟨m, rfl⟩
            · exact .inr (.inl ⟨x, m, rfl⟩)
            · exact .inr (.inr ⟨d :: p, x, m, x', m', rfl, rfl, differ⟩)
          · exact .inr (.inr ⟨[], d, l, d', l', rfl, rfl, same⟩)

/-- No zero at either end. -/
structure Trimmed (l : List ℕ) : Prop where
  first : ∃ d m, l = d :: m ∧ d ≠ 0
  last : ∃ m d, l = m ++ [d] ∧ d ≠ 0

/-- What stands at the end of a trimmed list is not zero. -/
theorem Trimmed.number_right (trimmed : Trimmed (p ++ l)) (some : l ≠ []) :
    number b l ≠ 0 := by
  obtain ⟨m, x, shape, last⟩ := trimmed.last
  obtain ⟨m', x', rfl⟩ := l.eq_nil_or_concat.resolve_left some
  rw [List.concat_eq_append, ← List.append_assoc] at shape
  have same := (List.append_inj' shape rfl).2
  rw [List.concat_eq_append, number_concat]
  have : x' = x := by simpa using same
  omega

/-- **One digit list and one exponent for each number.** -/
theorem reading_unique (base : 1 < b) (below : Below b l) (below' : Below b l') (trimmed : Trimmed l)
    (trimmed' : Trimmed l') (same : reading b l e = reading b l' e') : l = l' ∧ e = e' := by
  have positive : 0 < b := by omega
  obtain ⟨d, m, shape, first⟩ := trimmed.first
  obtain ⟨d', m', shape', first'⟩ := trimmed'.first
  have exponents : e = e' := by
    rcases lt_trichotomy e e' with less | equal | greater
    · have : reading b l e < reading b (d' :: m') e' := reading_lt_of_exponent base below first' less
      rw [← shape', same] at this
      exact absurd this (lt_irrefl _)
    · exact equal
    · have : reading b l' e' < reading b (d :: m) e := reading_lt_of_exponent base below' first greater
      rw [← shape, same] at this
      exact absurd this (lt_irrefl _)
  subst exponents
  refine ⟨?_, rfl⟩
  rcases first_difference l l' with ⟨q, rfl⟩ | ⟨x, q, rfl⟩ | ⟨p, x, q, x', q', rfl, rfl, differ⟩
  · by_contra more
    have some : q ≠ [] := fun none => more (by rw [none, List.append_nil])
    have less := reading_lt_of_length (e := e) (p := l) positive (trimmed'.number_right some)
    rw [same] at less
    exact lt_irrefl _ less
  · have less := reading_lt_of_length (e := e) (p := l') positive
      (trimmed.number_right (List.cons_ne_nil x q))
    rw [same] at less
    exact absurd less (lt_irrefl _)
  · rcases lt_or_gt_of_ne differ with less | greater
    · have : reading b (p ++ x :: q) e < reading b (p ++ x' :: q') e := reading_lt_of_digit base below less
      rw [same] at this
      exact absurd this (lt_irrefl _)
    · have : reading b (p ++ x' :: q') e < reading b (p ++ x :: q) e := reading_lt_of_digit base below' greater
      rw [same] at this
      exact absurd this (lt_irrefl _)

end Reading

/-! ## Places -/

theorem getD_place (p : List ℕ) (d : ℕ) (m : List ℕ) : (p ++ d :: m).getD p.length 0 = d := by
  rw [List.getD_append_right _ _ _ _ le_rfl, Nat.sub_self, List.getD_cons_zero]

theorem set_place (p : List ℕ) (d x : ℕ) (m : List ℕ) : (p ++ d :: m).set p.length x = p ++ x :: m := by
  rw [List.set_append_right _ _ le_rfl, Nat.sub_self, List.set_cons_zero]

/-- The last digit of a list that is not empty. -/
theorem exists_concat {l : List ℕ} {n : ℕ} (length : l.length = n + 1) : ∃ p d, l = p ++ [d] ∧ p.length = n := by
  have some : l ≠ [] := fun none => by
    rw [none] at length
    cases length
  refine ⟨l.dropLast, l.getLast some, (List.dropLast_append_getLast some).symm, ?_⟩
  rw [List.length_dropLast, length, Nat.add_sub_cancel]

/-- The first `n + 1` digits are the first `n` and one more. -/
theorem take_succ {l : List ℕ} {n : ℕ} (inside : n < l.length) : l.take (n + 1) = l.take n ++ [l.getD n 0] := by
  rw [List.take_succ_eq_append_getElem inside, List.getD_eq_getElem _ _ inside]

/-! ## Zeros at the end -/

section Trim

variable {b : ℕ} {l : List ℕ}

/-- `rdropWhile` takes away zeros only. -/
theorem exists_zeros (l : List ℕ) : ∃ n, l = l.rdropWhile (· = 0) ++ List.replicate n 0 := by
  induction l using List.reverseRecOn with
  | nil => exact ⟨0, rfl⟩
  | append_singleton m d ih =>
      by_cases zero : d = 0
      · obtain ⟨n, shape⟩ := ih
        subst zero
        rw [List.rdropWhile_concat_pos _ _ _ (by simp)]
        refine ⟨n + 1, ?_⟩
        rw [List.replicate_succ', ← List.append_assoc, ← shape]
      · rw [List.rdropWhile_concat_neg _ _ _ (by simpa using zero)]
        exact ⟨0, (List.append_nil _).symm⟩

theorem reading_rdropWhile (b : ℕ) (l : List ℕ) (e : ℤ) :
    reading b (l.rdropWhile (· = 0)) e = reading b l e := by
  obtain ⟨n, shape⟩ := exists_zeros l
  conv_rhs => rw [shape]
  exact (reading_append_zeros _ _ _ _).symm

/-- A list that starts with a digit other than zero is trimmed by taking away the
zeros at its end. -/
theorem trimmed_rdropWhile {d : ℕ} {m : List ℕ} (first : d ≠ 0) : Trimmed ((d :: m).rdropWhile (· = 0)) := by
  obtain ⟨n, shape⟩ := exists_zeros (d :: m)
  have some : (d :: m).rdropWhile (· = 0) ≠ [] := by
    intro none
    rw [none, List.nil_append] at shape
    have : d ∈ List.replicate n 0 := shape ▸ List.mem_cons_self
    exact first (List.eq_of_mem_replicate this)
  constructor
  · obtain ⟨x, q, is⟩ := List.exists_cons_of_ne_nil some
    rw [is, List.cons_append] at shape
    exact ⟨x, q, is, fun zero => first ((List.cons.inj shape).1.trans zero)⟩
  · have last := List.rdropWhile_last_not (· = 0) (d :: m) some
    refine ⟨_, _, (List.dropLast_append_getLast some).symm, by simpa using last⟩

end Trim

end ColabEdit.Theory.Radix
