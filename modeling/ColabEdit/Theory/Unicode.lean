/-
# ColabEdit.Theory.Unicode -- a code as bytes and as units

UTF-8 and UTF-16 of a code below `0x110000`.  Nothing is checked: half of a
surrogate pair is encoded like every other code of its size.

`unitsOf` reads bytes of UTF-8 as UTF-16 units.  `unitsOf_utf8`: the bytes of a code
read as its units, whatever stands behind them.
-/
import Mathlib.Data.List.Basic

namespace ColabEdit.Theory.Unicode

set_option autoImplicit false

/-- The bytes of a code in UTF-8. -/
def utf8 (n : Nat) : List Nat :=
  if n < 0x80 then [n]
  else if n < 0x800 then [0xC0 + n / 0x40, 0x80 + n % 0x40]
  else if n < 0x10000 then [0xE0 + n / 0x1000, 0x80 + n / 0x40 % 0x40, 0x80 + n % 0x40]
  else [0xF0 + n / 0x40000, 0x80 + n / 0x1000 % 0x40, 0x80 + n / 0x40 % 0x40, 0x80 + n % 0x40]

/-- The units of a code in UTF-16. -/
def utf16 (n : Nat) : List UInt16 :=
  if n < 0x10000 then [.ofNat n]
  else [.ofNat (0xD800 + (n - 0x10000) / 0x400), .ofNat (0xDC00 + (n - 0x10000) % 0x400)]

/-- A string of UTF-8 bytes in UTF-16; a code that is cut off ends it. -/
def unitsOf : List Nat → List UInt16
  | [] => []
  | a :: rest =>
      if a < 0x80 then utf16 a ++ unitsOf rest
      else if a < 0xE0 then
        match rest with
        | b :: rest => utf16 (a % 0x20 * 0x40 + b % 0x40) ++ unitsOf rest
        | _ => []
      else if a < 0xF0 then
        match rest with
        | b :: c :: rest => utf16 (a % 0x10 * 0x1000 + b % 0x40 * 0x40 + c % 0x40) ++ unitsOf rest
        | _ => []
      else
        match rest with
        | b :: c :: d :: rest =>
            utf16 (a % 8 * 0x40000 + b % 0x40 * 0x1000 + c % 0x40 * 0x40 + d % 0x40) ++ unitsOf rest
        | _ => []

theorem utf8_lt {n : Nat} (bound : n < 0x110000) : ∀ b ∈ utf8 n, b < 0x100 := by
  unfold utf8
  split_ifs <;> simp <;> omega

/-- **The bytes of a code read as its units.** -/
theorem unitsOf_utf8 {n : Nat} (bound : n < 0x110000) (rest : List Nat) :
    unitsOf (utf8 n ++ rest) = utf16 n ++ unitsOf rest := by
  by_cases one : n < 0x80
  · rw [utf8, if_pos one, List.singleton_append]
    conv_lhs => unfold unitsOf
    rw [if_pos one]
  by_cases two : n < 0x800
  · have same : (0xC0 + n / 0x40) % 0x20 * 0x40 + (0x80 + n % 0x40) % 0x40 = n := by omega
    rw [utf8, if_neg one, if_pos two, List.cons_append]
    conv_lhs => unfold unitsOf
    rw [if_neg (by omega), if_pos (by omega)]
    exact congrArg (utf16 · ++ unitsOf rest) same
  by_cases three : n < 0x10000
  · have same : (0xE0 + n / 0x1000) % 0x10 * 0x1000 + (0x80 + n / 0x40 % 0x40) % 0x40 * 0x40 +
        (0x80 + n % 0x40) % 0x40 = n := by omega
    rw [utf8, if_neg one, if_neg two, if_pos three, List.cons_append]
    conv_lhs => unfold unitsOf
    rw [if_neg (by omega), if_neg (by omega), if_pos (by omega)]
    exact congrArg (utf16 · ++ unitsOf rest) same
  · have same : (0xF0 + n / 0x40000) % 8 * 0x40000 + (0x80 + n / 0x1000 % 0x40) % 0x40 * 0x1000 +
        (0x80 + n / 0x40 % 0x40) % 0x40 * 0x40 + (0x80 + n % 0x40) % 0x40 = n := by omega
    rw [utf8, if_neg one, if_neg two, if_neg three, List.cons_append]
    conv_lhs => unfold unitsOf
    rw [if_neg (by omega), if_neg (by omega), if_neg (by omega)]
    exact congrArg (utf16 · ++ unitsOf rest) same

theorem utf16_of_lt {n : Nat} (narrow : n < 0x10000) : utf16 n = [.ofNat n] := if_pos narrow

/-- The unit is a half of a pair. -/
def surrogate (u : UInt16) : Bool := 0xD800 ≤ u && u ≤ 0xDFFF

/-- Beyond one unit a code is a pair of surrogates. -/
theorem utf16_of_ge {n : Nat} (wide : 0x10000 ≤ n) (bound : n < 0x110000) :
    ∃ high low, utf16 n = [high, low] ∧ surrogate high = true ∧ surrogate low = true := by
  have within : ∀ m, 0xD800 ≤ m → m ≤ 0xDFFF → surrogate (.ofNat m) = true := by
    intro m low high
    simp only [surrogate, Bool.and_eq_true, decide_eq_true_eq, UInt16.le_iff_toNat_le]
    rw [UInt16.toNat_ofNat_of_lt' (by show m < 65536; omega)]
    exact ⟨low, high⟩
  exact ⟨_, _, if_neg (by omega), within _ (by omega) (by omega), within _ (by omega) (by omega)⟩

/-- And only there. -/
theorem utf16_pair {n : Nat} (bound : n < 0x110000) {high low : UInt16} (pair : utf16 n = [high, low]) :
    0x10000 ≤ n ∧ surrogate low = true := by
  have wide : 0x10000 ≤ n := by
    by_contra narrow
    rw [utf16_of_lt (Nat.lt_of_not_le narrow)] at pair
    cases pair
  obtain ⟨high', low', is, -, second⟩ := utf16_of_ge wide bound
  rw [is] at pair
  cases pair
  exact ⟨wide, second⟩

end ColabEdit.Theory.Unicode
