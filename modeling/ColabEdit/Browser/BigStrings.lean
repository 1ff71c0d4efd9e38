/-
# ColabEdit.Browser.BigStrings -- digit arrays from strings and back

`parse` (`app/static/js/big.js`, lines 168 to 231) checks a string against
`isValid`, takes sign, point and exponent out of it and strips the zeros at both
ends.  `toString` (lines 994 to 1033) writes the digits with a point or an
exponent.  An exponent is read and written as an integer here, which it is below
`2 ^ 53`.

`rewritten`: every valid string gives the number that `ColabEdit.Browser.Big` reads,
written as `Big` writes it, and the others throw.  `reads_back`: what is written is
read back digit for digit.
-/
import ColabEdit.Browser.Big
import ColabEdit.Browser.BigProduct
import ColabEdit.Browser.BigQuotient
import Mathlib.Tactic.IntervalCases

namespace ColabEdit.Browser

open ColabEdit.Theory
open Digits (fraction digit)
open Radix (Below Trimmed number reading)

set_option autoImplicit false

namespace BigJs

/-! ## Reading -/

/-- `/^-?(\d+(\.\d*)?|\.\d+)(e[+-]?\d+)?$/i` without the sign. -/
def validUnsigned (n : List Char) : Bool :=
  let (whole, rest) := n.span Char.isDigit
  let (behind, rest) :=
    match rest with
    | '.' :: rest => rest.span Char.isDigit
    | rest => ([], rest)
  !(whole.isEmpty && behind.isEmpty) && (Big.readExponent rest).isSome

/-- `n.charAt(0) == '-'` -/
def minusSign (n : List Char) : Bool := n.head? == some '-'

def isValid (n : List Char) : Bool := validUnsigned (if minusSign n then n.tail else n)

/-- `+n`, for the digits of an exponent and their sign. -/
def exponent : List Char → ℤ
  | '-' :: n => -(Nat.ofDigitChars 10 n 0 : ℤ)
  | '+' :: n => Nat.ofDigitChars 10 n 0
  | n => Nat.ofDigitChars 10 n 0

/-- `indexOf` and `search`: -1 where nothing is found. -/
def indexWhere (p : Char → Bool) (n : List Char) : ℤ :=
  match n.findIdx? p with
  | some i => i
  | none => -1

/-- Leading and trailing zeros, with the point behind the first `e` digits. -/
def strip (s e : ℤ) (n : List Char) : BigJs :=
  let i := (n.takeWhile (· = '0')).length
  if i = n.length then zero s
  else ⟨s, e - i - 1, ((n.drop i).rdropWhile (· = '0')).map digit⟩

/-- The rest of `parse`, from the decimal point on. -/
def parseUnsigned (s : ℤ) (n : List Char) : BigJs :=
  let e := indexWhere (· = '.') n
  let n := if e > -1 then n.erase '.' else n
  let i := indexWhere (fun c => c = 'e' ∨ c = 'E') n
  let (e, n) :=
    if i > 0 then ((if e < 0 then i else e) + exponent (n.drop (i + 1).toNat), n.take i.toNat)
    else (if e < 0 then n.length else e, n)
  strip s e n

/-- The error is the message `throwErr(NaN)` makes. -/
def parse (n : String) : Except String BigJs :=
  let n := n.toList
  if isValid n then
    if minusSign n then .ok (parseUnsigned (-1) n.tail) else .ok (parseUnsigned 1 n)
  else .error "NaN"

/-! ## Writing -/

/-- `toString` without the sign, from `c.join('')`. -/
def unsigned (str : List Char) (e : ℤ) : List Char :=
  if e ≤ E_NEG ∨ E_POS ≤ e then
    str.take 1 ++ (if 1 < str.length then '.' :: str.drop 1 else []) ++
      (if e < 0 then ['e'] else ['e', '+']) ++ Big.intChars e
  else if e < 0 then '0' :: '.' :: (List.replicate (-e - 1).toNat '0' ++ str)
  else if 0 < e then
    if str.length < e + 1 then str ++ List.replicate (e + 1 - str.length).toNat '0'
    else if e + 1 < str.length then str.take (e + 1).toNat ++ '.' :: str.drop (e + 1).toNat
    else str
  else if 1 < str.length then str.take 1 ++ '.' :: str.drop 1
  else str

def toString (x : BigJs) : String :=
  let str := unsigned (x.c.map Nat.digitChar) x.e
  .ofList (if x.s < 0 ∧ ¬ x.IsZero then '-' :: str else str)

/-! ## Strings and readings -/

section Strings

variable {l whole behind suffix n : List Char} {k : ℤ}

theorem reading_map_digit (l : List Char) (e : ℤ) : reading 10 (l.map digit) e = fraction l * 10 ^ (e + 1) := by
  induction l generalizing e with
  | nil => simp [fraction]
  | cons c l ih =>
      rw [List.map_cons, Radix.reading_cons, ih, fraction, sub_add_cancel, zpow_add_one₀ (by norm_num)]
      push_cast
      ring

theorem below_map_digit (digits : Digits.All l) : Below 10 (l.map digit) := by
  rintro d member
  obtain ⟨c, inside, rfl⟩ := List.mem_map.1 member
  have := Digits.digit_le (digits c inside)
  omega

theorem digit_eq_zero_iff {c : Char} (isDigit : c.isDigit) : digit c = 0 ↔ c = '0' := by
  have bounds := Char.isDigit_iff_toNat.1 isDigit
  unfold digit
  constructor
  · intro zero
    refine Char.toNat_inj.1 ?_
    simp only [show '0'.toNat = 48 from rfl, show '9'.toNat = 57 from rfl] at bounds zero ⊢
    omega
  · rintro rfl
    rfl

theorem digitChar_digit {c : Char} (isDigit : c.isDigit) : Nat.digitChar (digit c) = c := by
  have bounds := Char.isDigit_iff_toNat.1 isDigit
  have small := Digits.digit_le isDigit
  have same : c = Char.ofNat (digit c + 48) := by
    unfold digit
    simp only [show '0'.toNat = 48 from rfl, show '9'.toNat = 57 from rfl] at bounds ⊢
    rw [Nat.sub_add_cancel bounds.1, Char.ofNat_toNat]
  conv_rhs => rw [same]
  generalize digit c = d at small
  interval_cases d <;> rfl

/-- The pieces of a valid string without its sign. -/
structure Pieces (n whole behind suffix : List Char) (k : ℤ) : Prop where
  shape : n = whole ++ behind ++ suffix ∧ behind = [] ∨ n = whole ++ '.' :: behind ++ suffix
  digits : Digits.All (whole ++ behind)
  some : whole ++ behind ≠ []
  read : Big.readExponent suffix = Option.some k

theorem span_eq (l : List Char) :
    ∃ front rest, l.span Char.isDigit = (front, rest) ∧ l = front ++ rest ∧ Digits.All front :=
  ⟨_, _, List.span_eq_takeWhile_dropWhile _ l, List.takeWhile_append_dropWhile.symm, fun _ member =>
    List.mem_takeWhile_imp member⟩

/-- A valid string has pieces, and is read from them; any other is not read. -/
theorem pieces_of_valid (n : List Char) :
    validUnsigned n = false ∧ (∀ negative, Big.readUnsigned negative n = none) ∨
      validUnsigned n = true ∧ ∃ whole behind suffix k, Pieces n whole behind suffix k ∧
        ∀ negative, ∃ x, Big.readUnsigned negative n = some x ∧ x.value =
          ((if negative then -1 else 1 : ℤ) : ℚ) * (Nat.ofDigitChars 10 (whole ++ behind) 0 * 10 ^ (k - behind.length)) := by
  obtain ⟨whole, rest, first, shape, all⟩ := span_eq n
  obtain ⟨behind, suffix, second, point, all'⟩ : ∃ behind suffix,
      (match rest with
        | '.' :: rest => rest.span Char.isDigit
        | rest => ([], rest)) = (behind, suffix) ∧
      (rest = behind ++ suffix ∧ behind = [] ∨ rest = '.' :: behind ++ suffix) ∧ Digits.All behind := by
    split
    · rename_i rest
      obtain ⟨behind, suffix, is, shape, all⟩ := span_eq rest
      exact ⟨behind, suffix, is, .inr (by rw [shape]; rfl), all⟩
    · exact ⟨[], _, rfl, .inl ⟨rfl, rfl⟩, nofun⟩
  have pieces : n = whole ++ behind ++ suffix ∧ behind = [] ∨ n = whole ++ '.' :: behind ++ suffix := by
    rcases point with ⟨rfl, none⟩ | rfl
    · exact .inl ⟨by rw [shape, List.append_assoc], none⟩
    · exact .inr (by rw [shape]; simp)
  have valid : validUnsigned n = (!(whole.isEmpty && behind.isEmpty) && (Big.readExponent suffix).isSome) := by
    unfold validUnsigned
    rw [first]
    dsimp only
    rw [second]
  have read : ∀ negative, Big.readUnsigned negative n = if whole = [] ∧ behind = [] then none else
      (Big.readExponent suffix).map fun e =>
        Big.scaled (if negative then -(Nat.ofDigitChars 10 (whole ++ behind) 0 : ℤ)
          else Nat.ofDigitChars 10 (whole ++ behind) 0) (e - behind.length) := fun negative => by
    unfold Big.readUnsigned
    rw [first]
    dsimp only
    split
    · rw [show List.span Char.isDigit _ = (behind, suffix) from second]
    · split at second
      · rename_i other
        exact (other _ rfl).elim
      · obtain ⟨rfl, rfl⟩ := Prod.mk.inj second
        rfl
  by_cases none : whole = [] ∧ behind = []
  · refine .inl ⟨by rw [valid, none.1, none.2]; rfl, fun negative => by rw [read, if_pos none]⟩
  cases ends : Big.readExponent suffix with
  | none => exact .inl ⟨by rw [valid, ends, Option.isSome_none, Bool.and_false], fun negative => by
      rw [read, if_neg none, ends]; rfl⟩
  | some k =>
      refine .inr ⟨?_, whole, behind, suffix, k, ⟨pieces, all.append all', ?_, ends⟩, fun negative => ?_⟩
      · rw [valid, ends]
        simpa [imp_iff_not_or] using none
      · rwa [Ne, List.append_eq_nil_iff]
      · refine ⟨_, by rw [read, if_neg none, ends]; rfl, ?_⟩
        rw [Big.scaled_value]
        cases negative <;> simp

theorem indexWhere_append {p : Char → Bool} {l rest : List Char} (none : ∀ c ∈ l, ¬ p c) :
    indexWhere p (l ++ rest) = if indexWhere p rest < 0 then -1 else l.length + indexWhere p rest := by
  have outside : l.findIdx? p = Option.none := List.findIdx?_eq_none_iff.2 fun c member => by simpa using none c member
  unfold indexWhere
  rw [List.findIdx?_append, outside]
  cases found : rest.findIdx? p with
  | none => rfl
  | some i =>
      rw [Option.none_or, Option.map_some]
      dsimp only
      rw [if_neg (by omega)]
      push_cast
      ring

theorem indexWhere_cons {p : Char → Bool} {c : Char} {l : List Char} (found : p c) : indexWhere p (c :: l) = 0 := by
  unfold indexWhere
  rw [List.findIdx?_cons, if_pos found]
  rfl

/-- The characters of an exponent: a letter, a sign, digits. -/
theorem suffix_spec (read : Big.readExponent suffix = Option.some k) :
    (suffix = [] ∧ k = 0) ∨ ∃ c rest, suffix = c :: rest ∧ (c = 'e' ∨ c = 'E') ∧ exponent rest = k ∧ '.' ∉ suffix := by
  cases suffix with
  | nil => exact .inl ⟨rfl, (Option.some.inj read).symm⟩
  | cons c rest =>
      have letter := Big.readExponent_head read c rfl
      have point : ∀ digits : List Char, digits.all Char.isDigit = true → '.' ∉ digits := fun digits all member => by
        have := List.all_eq_true.1 all _ member
        exact absurd this (by decide)
      have digits : ∀ (digits : List Char) (m : ℕ), Big.readDigits digits = Option.some m →
          Nat.ofDigitChars 10 digits 0 = m ∧ '.' ∉ digits := fun digits m read => by
        unfold Big.readDigits at read
        split at read
        · rename_i all
          exact ⟨Option.some.inj read, point digits all.2⟩
        · cases read
      have head : '.' ≠ c := by rcases letter with rfl | rfl <;> decide
      simp only [Big.readExponent, if_pos letter] at read
      refine .inr ⟨c, rest, rfl, letter, ?_⟩
      split at read
      · obtain ⟨m, is, rfl⟩ := Option.map_eq_some_iff.1 read
        obtain ⟨value, none⟩ := digits _ m is
        exact ⟨by rw [← value]; rfl, by simp [head, none]⟩
      · obtain ⟨m, is, rfl⟩ := Option.map_eq_some_iff.1 read
        obtain ⟨value, none⟩ := digits _ m is
        exact ⟨by rw [← value]; rfl, by simp [head, none]⟩
      · rename_i minus plus
        obtain ⟨m, is, rfl⟩ := Option.map_eq_some_iff.1 read
        obtain ⟨value, none⟩ := digits _ m is
        refine ⟨?_, by simp [head, none]⟩
        unfold exponent
        split
        · exact (minus _ rfl).elim
        · exact (plus _ rfl).elim
        · rw [value]

theorem indexWhere_none {p : Char → Bool} {l : List Char} (none : ∀ c ∈ l, ¬ p c) : indexWhere p l = -1 := by
  unfold indexWhere
  rw [List.findIdx?_eq_none_iff.2 fun c member => by simpa using none c member]

/-- Point, exponent and digits are found where they stand. -/
theorem Pieces.parseUnsigned_eq (pieces : Pieces n whole behind suffix k) (s : ℤ) :
    parseUnsigned s n = strip s (whole.length + k) (whole ++ behind) := by
  have digits := pieces.digits
  have noPoint : ∀ c ∈ whole ++ behind, ¬ decide (c = '.') = true := fun c member equal => by
    have := digits c member
    rw [of_decide_eq_true equal] at this
    exact absurd this (by decide)
  have noLetter : ∀ c ∈ whole ++ behind, ¬ decide (c = 'e' ∨ c = 'E') = true := fun c member equal => by
    have := digits c member
    rcases of_decide_eq_true equal with rfl | rfl <;> exact absurd this (by decide)
  have filled : 0 < (whole ++ behind).length := List.length_pos_iff.2 pieces.some
  have front : ∀ c ∈ whole, ¬ decide (c = '.') = true := fun c member => noPoint c (List.mem_append_left _ member)
  -- where the point is, and the string without it
  obtain ⟨e, index, removed, place⟩ : ∃ e, indexWhere (· = '.') n = e ∧
      (if e > -1 then n.erase '.' else n) = whole ++ behind ++ suffix ∧
      (e = whole.length ∨ e = -1 ∧ behind = []) := by
    rcases pieces.shape with ⟨shape, none⟩ | shape
    · have outside : ∀ c ∈ suffix, ¬ decide (c = '.') = true := fun c member equal => by
        rcases suffix_spec pieces.read with ⟨rfl, -⟩ | ⟨-, -, -, -, -, none⟩
        · cases member
        · exact none (of_decide_eq_true equal ▸ member)
      refine ⟨-1, ?_, by rw [if_neg (by decide), shape], .inr ⟨rfl, none⟩⟩
      rw [shape, indexWhere_none fun c member => (List.mem_append.1 member).elim (noPoint c) (outside c)]
    · have missing : '.' ∉ whole := fun member => front _ member (by decide)
      refine ⟨whole.length, ?_, ?_, .inl rfl⟩
      · rw [shape, List.append_assoc, indexWhere_append front, List.cons_append, indexWhere_cons (by decide),
          if_neg (by decide), add_zero]
      · rw [if_pos (by omega), shape, List.append_assoc, List.erase_append_right _ missing, List.cons_append,
          List.erase_cons_head, List.append_assoc]
  unfold parseUnsigned
  dsimp only
  rw [index, removed]
  rcases suffix_spec pieces.read with ⟨rfl, rfl⟩ | ⟨c, rest, rfl, letter, value, -⟩
  · have search : indexWhere (fun c => c = 'e' ∨ c = 'E') (whole ++ behind ++ []) = -1 :=
      indexWhere_none (by rwa [List.append_nil])
    rw [search, if_neg (show ¬ (-1 : ℤ) > 0 by decide), List.append_nil, add_zero]
    rcases place with rfl | ⟨rfl, rfl⟩
    · rw [if_neg (by omega)]
    · rw [if_pos (by decide), List.append_nil]
  · have search : indexWhere (fun c => c = 'e' ∨ c = 'E') (whole ++ behind ++ c :: rest) =
        (whole ++ behind).length := by
      rw [indexWhere_append noLetter, indexWhere_cons (decide_eq_true letter), if_neg (by decide), add_zero]
    have index' : (((whole ++ behind).length : ℤ) + 1).toNat = (whole ++ behind).length + 1 := by omega
    rw [search, if_pos (show ((whole ++ behind).length : ℤ) > 0 by exact_mod_cast filled), index', Int.toNat_natCast,
      List.take_left, ← List.drop_drop, List.drop_left, List.drop_succ_cons, List.drop_zero, value]
    rcases place with rfl | ⟨rfl, rfl⟩
    · rw [if_neg (by omega)]
    · rw [if_pos (by decide), List.append_nil]

theorem map_rdropWhile (digits : Digits.All l) :
    (l.rdropWhile (· = '0')).map digit = (l.map digit).rdropWhile (· = 0) := by
  induction l using List.reverseRecOn with
  | nil => rfl
  | append_singleton l c ih =>
      have isDigit : c.isDigit := digits c (by simp)
      rw [List.map_append, List.map_singleton]
      by_cases zero : c = '0'
      · rw [List.rdropWhile_concat_pos _ _ _ (by simpa using zero),
          List.rdropWhile_concat_pos _ _ _ (by simpa using (digit_eq_zero_iff isDigit).2 zero),
          ih (digits.sublist (List.sublist_append_left l [c]))]
      · rw [List.rdropWhile_concat_neg _ _ _ (by simpa using zero), List.rdropWhile_concat_neg _ _ _
          (by simpa using fun none => zero ((digit_eq_zero_iff isDigit).1 none)), List.map_append, List.map_singleton]

theorem strip_value {s : ℤ} (sign : s = 1 ∨ s = -1) (e : ℤ) (digits : Digits.All n) :
    (strip s e n).Canonical ∧ (strip s e n).value = s * (Nat.ofDigitChars 10 n 0 * 10 ^ (e - n.length)) := by
  obtain ⟨z, rest, split, front, first⟩ : ∃ z rest, n = List.replicate z '0' ++ rest ∧
      (n.takeWhile (· = '0')).length = z ∧ ∀ c ∈ rest.head?, c ≠ '0' := by
    refine ⟨_, n.dropWhile (· = '0'), ?_, rfl, fun c head => ?_⟩
    · conv_lhs => rw [← List.takeWhile_append_dropWhile (p := (· = '0')) (l := n)]
      congr 1
      exact List.eq_replicate_iff.2 ⟨rfl, fun c member => by simpa using List.mem_takeWhile_imp member⟩
    · have := List.head?_dropWhile_not (· = '0') n
      rw [head] at this
      simpa using this
  have number : (Nat.ofDigitChars 10 n 0 : ℚ) = fraction n * 10 ^ n.length := by
    rw [Digits.fraction_eq, div_mul_cancel₀ _ (by positivity)]
  have value : (Nat.ofDigitChars 10 n 0 : ℚ) * 10 ^ (e - n.length) = fraction rest * 10 ^ (e - z) := by
    rw [number, split, Digits.fraction_zeros_append, ← split, zpow_sub₀ (by norm_num), zpow_sub₀ (by norm_num),
      zpow_natCast, zpow_natCast]
    field_simp
  have behind : n.drop z = rest := by rw [split, List.drop_left' List.length_replicate]
  rw [value]
  unfold strip
  rw [front]
  dsimp only
  rw [behind]
  cases rest with
  | nil =>
      rw [if_pos (by rw [split]; simp), fraction, zero_mul, mul_zero]
      exact ⟨zero_canonical sign, zero_value s⟩
  | cons c m =>
      have all : Digits.All (c :: m) := digits.sublist (split ▸ List.sublist_append_right _ _)
      have some : digit c ≠ 0 := fun none => first c rfl ((digit_eq_zero_iff all.head).1 none)
      rw [if_neg (by rw [split]; simp), map_rdropWhile all, value_trim, reading_map_digit, sub_add_cancel]
      exact ⟨canonical_trim sign (below_map_digit all) some, rfl⟩

end Strings

/-! ## The numbers they stand for -/

/-- A digit array and the decimal it stands for. -/
structure Stands (x : BigJs) (X : Big) : Prop where
  canonical : x.Canonical
  value : x.value = X.value

section Stands

variable {x y : BigJs} {X Y : Big}

/-- **A valid string gives the number it writes, any other throws.** -/
theorem parse_spec (n : String) :
    (∃ x X, parse n = .ok x ∧ Big.parse n = some X ∧ Stands x X) ∨ parse n = .error "NaN" ∧ Big.parse n = none := by
  have unsigned : ∀ {s : ℤ} (negative : Bool) (l : List Char), (s = if negative then -1 else 1) →
      validUnsigned l = false ∧ Big.readUnsigned negative l = none ∨ validUnsigned l = true ∧
        ∃ X, Big.readUnsigned negative l = some X ∧ Stands (parseUnsigned s l) X := by
    intro s negative l signed
    have sign : s = 1 ∨ s = -1 := by cases negative <;> simp [signed]
    rcases pieces_of_valid l with ⟨invalid, unread⟩ | ⟨valid, whole, behind, suffix, k, pieces, read⟩
    · exact .inl ⟨invalid, unread negative⟩
    · obtain ⟨X, is, value⟩ := read negative
      obtain ⟨canonical, value'⟩ := strip_value sign (whole.length + k) pieces.digits
      refine .inr ⟨valid, X, is, ?_⟩
      rw [pieces.parseUnsigned_eq]
      refine ⟨canonical, ?_⟩
      rw [value, value', signed, List.length_append]
      congr 3
      push_cast
      ring
  have read : Big.parse n = if minusSign n.toList then Big.readUnsigned true n.toList.tail
      else Big.readUnsigned false n.toList := by
    unfold Big.parse minusSign
    split
    · rename_i rest shape
      rw [shape]
      rfl
    · rename_i other
      rw [if_neg]
      intro minus
      obtain ⟨rest, shape⟩ := List.head?_eq_some_iff.1 (by simpa using minus)
      exact other rest shape
  rw [read]
  unfold parse isValid
  dsimp only
  by_cases minus : minusSign n.toList = true
  · rw [if_pos minus, if_pos minus, if_pos minus]
    rcases unsigned (s := -1) true n.toList.tail rfl with ⟨invalid, unread⟩ | ⟨valid, X, read, stands⟩
    · exact .inr ⟨if_neg (by rw [invalid]; decide), unread⟩
    · exact .inl ⟨_, X, if_pos valid, read, stands⟩
  · rw [if_neg minus, if_neg minus, if_neg minus]
    rcases unsigned (s := 1) false n.toList rfl with ⟨invalid, unread⟩ | ⟨valid, X, read, stands⟩
    · exact .inr ⟨if_neg (by rw [invalid]; decide), unread⟩
    · exact .inl ⟨_, X, if_pos valid, read, stands⟩

/-- The digits and the exponent of the decimal. -/
theorem Stands.digits (stands : Stands x X) : x.c = X.c.map digit ∧ x.e = X.e := by
  have all := X.c_all
  by_cases zero : X.value = 0
  · have shape := stands.canonical.of_isZero (stands.canonical.isZero_iff.2 (stands.value.trans zero))
    have digits : X.c = ['0'] := if_pos zero
    have place : X.e = 0 := if_pos zero
    rw [shape.1, shape.2, digits, place]
    exact ⟨rfl, rfl⟩
  · have some : x.value ≠ 0 := stands.value ▸ zero
    have digits : X.c = X.digits.rdropWhile (· = '0') := if_neg zero
    obtain ⟨d, m, shape⟩ := List.exists_cons_of_ne_nil X.c_ne_nil
    have first : digit d ≠ 0 := fun none => by
      have := Big.c_head zero shape
      rw [(digit_eq_zero_iff (shape ▸ all : Digits.All (d :: m)).head).1 none] at this
      exact absurd this (by decide)
    have trimmed : Trimmed (X.c.map digit) := by
      obtain ⟨rest, whole⟩ := List.rdropWhile_prefix (· = '0') X.digits
      rw [← digits, shape] at whole
      rw [digits, map_rdropWhile X.digits_all, ← whole]
      exact Radix.trimmed_rdropWhile first
    refine Radix.reading_unique (b := 10) (by decide) stands.canonical.below (below_map_digit all)
      (stands.canonical.trimmed fun none => some (stands.canonical.isZero_iff.1 none)) trimmed ?_
    rw [← stands.canonical.abs_value, stands.value, X.abs_value, reading_map_digit]

/-- **What is written is what the decimal is written as.** -/
theorem Stands.toString_eq (stands : Stands x X) : x.toString = X.toString := by
  obtain ⟨digits, place⟩ := stands.digits
  have back : x.c.map Nat.digitChar = X.c := by
    rw [digits, List.map_map]
    conv_rhs => rw [← List.map_id X.c]
    exact List.map_congr_left fun c member => digitChar_digit (X.c_all c member)
  have written : unsigned (x.c.map Nat.digitChar) x.e = X.unsigned := by rw [back, place]; rfl
  have sign : x.s < 0 ∧ ¬ x.IsZero ↔ X.value < 0 := by
    rw [stands.canonical.isZero_iff, stands.value]
    have signs := stands.canonical.sign
    constructor
    · rintro ⟨minus, some⟩
      rw [← stands.value] at some ⊢
      exact (stands.canonical.neg_iff some).1 (by omega)
    · intro less
      have some : x.value ≠ 0 := stands.value ▸ less.ne
      have minus := (stands.canonical.neg_iff some).2 (stands.value ▸ less)
      exact ⟨by omega, less.ne⟩
  unfold toString Big.toString
  rw [written]
  exact congrArg String.ofList (if_congr sign rfl rfl)

/-- Every canonical number stands for a decimal. -/
theorem Canonical.stands (canonical : x.Canonical) : ∃ X, Stands x X := by
  have grid : OnGrid (10 ^ (x.c.length + x.e.natAbs)) x.value := by
    obtain ⟨m, is⟩ := Radix.reading_onGrid (b := 10) (l := x.c) (e := x.e) (k := x.c.length + x.e.natAbs) (by decide)
      (by omega)
    exact ⟨x.s * m, by rw [value, is]; push_cast; ring⟩
  exact ⟨⟨x.value, _, grid⟩, canonical, rfl⟩

/-- **Every string**, read and written again. -/
theorem rewritten (n : String) :
    (parse n).map toString = (Big.parse n).elim (.error "NaN") fun X => .ok X.toString := by
  rcases parse_spec n with ⟨x, X, is, read, stands⟩ | ⟨is, unread⟩
  · rw [is, read, Option.elim_some, ← stands.toString_eq]
    rfl
  · rw [is, unread]
    rfl

/-- **What is written reads back, but for the sign of zero.** -/
theorem reads_back (canonical : x.Canonical) :
    parse x.toString = .ok { x with s := if x.IsZero then 1 else x.s } := by
  obtain ⟨X, stands⟩ := canonical.stands
  rw [stands.toString_eq]
  by_cases none : x.IsZero
  · obtain ⟨digits, place⟩ := canonical.of_isZero none
    have zero : X.value = 0 := stands.value ▸ canonical.isZero_iff.1 none
    rw [Big.toString_zero zero, if_pos none, digits, place]
    decide +kernel
  · rcases parse_spec X.toString with ⟨y, Y, is, read, stands'⟩ | ⟨-, unread⟩
    · rw [Big.parse_toString] at read
      obtain rfl := Option.some.inj read
      obtain ⟨digits, place, sign⟩ := stands'.canonical.unique canonical (stands'.value.trans stands.value.symm)
      have some : y.value ≠ 0 := fun zero =>
        none (canonical.isZero_iff.2 (stands.value.trans (stands'.value.symm.trans zero)))
      rw [is, if_neg none]
      obtain ⟨s, e, c⟩ := y
      dsimp only at digits place sign
      rw [digits, place, sign some]
    · rw [Big.parse_toString] at unread
      cases unread

/-- `-1.25e-7`, which is written with an exponent. -/
theorem reads_back_small : parse (⟨-1, -7, [1, 2, 5]⟩ : BigJs).toString = .ok ⟨-1, -7, [1, 2, 5]⟩ := by
  have canonical : (⟨-1, -7, [1, 2, 5]⟩ : BigJs).Canonical :=
    ⟨.inr rfl, .cons (by decide) (.cons (by decide) (.cons (by decide) .nil)),
      .inr ⟨⟨1, [2, 5], rfl, by decide⟩, ⟨[1, 2], 5, rfl, by decide⟩⟩⟩
  exact reads_back canonical

end Stands

end BigJs

end ColabEdit.Browser
