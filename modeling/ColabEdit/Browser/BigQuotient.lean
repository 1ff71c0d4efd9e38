/-
# ColabEdit.Browser.BigQuotient -- `div` on digit arrays

Long division (`app/static/js/big.js`, lines 388 to 496): the remainder starts as
the first digits of the dividend; a digit of the quotient is the number of times
the divisor can be taken from it; then the next digit of the dividend is brought
down, or a zero behind the last one.  It stops when nothing is left, or with one
digit behind the decimal places asked for, and `rnd` rounds.

`goesInto_spec` is one digit, `Division` what every round of the loop keeps, and
`quotients` what `div` gives in each rounding mode, with its exceptions.  `div_times`:
it undoes `times`.  `Big.RM` is 1, half up.
-/
import ColabEdit.Browser.BigProduct
import ColabEdit.Browser.BigRound
import ColabEdit.Browser.BigSum

namespace ColabEdit.Browser.BigJs

open ColabEdit.Theory
open Radix (Below Trimmed number reading)

set_option autoImplicit false

/-- `Big.RM` -/
def RM : ℕ := 1

/-- `for (remI = -1, cmp = 0; ++remI < dvsL;)` -/
def cmpFrom : List ℕ → List ℕ → ℤ
  | d :: dvs, r :: rem => if d ≠ r then if d > r then 1 else -1 else cmpFrom dvs rem
  | _, _ => 0

/-- Compare divisor and remainder. -/
def cmpRem (dvs rem : List ℕ) : ℤ :=
  if dvs.length ≠ rem.length then if dvs.length > rem.length then 1 else -1 else cmpFrom dvs rem

/-- Subtract divisor from remainder: equal lengths with a zero in front of the
divisor, the borrow of `minus`, and `for (; !rem[0]; rem.shift())`. -/
def takeAway (dvs rem : List ℕ) : List ℕ :=
  let dvsT := if rem.length = dvs.length then dvs else 0 :: dvs
  (subtractFrom dvsT 0 rem.length rem).dropWhile (· = 0)

/-- The variables `next`, `cmp`, `remL` and `rem`. -/
structure Round where
  next : ℕ
  cmp : ℤ
  remL : ℕ
  rem : List ℕ

/-- `for (next = 0; next < 10; next++)` with `n` values of `next` left.  The
subtraction counts `remL` down to 0. -/
def goesInto (dvs : List ℕ) : ℕ → Round → Round
  | 0, round => { round with next := 10 }
  | n + 1, round =>
      let cmp := cmpRem dvs round.rem
      if cmp < 0 then goesInto dvs n ⟨10 - n, cmp, 0, takeAway dvs round.rem⟩
      else ⟨10 - (n + 1), cmp, round.rem.length, round.rem⟩

/-- `rem[remL] = d` -/
def put (rem : List ℕ) (remL d : ℕ) : List ℕ := if remL < rem.length then rem.set remL d else rem ++ [d]

/-- One round of the `do` loop: the next digit of `qc` and the new `rem`.  The empty
list stands for `[undefined]`. -/
def nextDigit (dvd dvs : List ℕ) (dvdI : ℕ) (rem : List ℕ) : ℕ × List ℕ :=
  let round := goesInto dvs 10 ⟨0, 0, 0, rem⟩
  (if round.cmp ≠ 0 then round.next else round.next + 1,
    if round.rem.getD 0 0 ≠ 0 ∧ round.cmp ≠ 0 then put round.rem round.remL (dvd.getD dvdI 0)
    else dvd[dvdI]?.toList)

/-- `while ((dvdI++ < dvdL || rem[0] !== u) && s--)` -/
def digitsFrom (dvd dvs : List ℕ) : ℕ → ℕ → List ℕ → List ℕ → List ℕ × List ℕ
  | 0, dvdI, rem, qc =>
      let (next, rem) := nextDigit dvd dvs dvdI rem
      (qc ++ [next], rem)
  | s + 1, dvdI, rem, qc =>
      let (next, rem) := nextDigit dvd dvs dvdI rem
      if dvdI < dvd.length ∨ rem ≠ [] then digitsFrom dvd dvs s (dvdI + 1) rem (qc ++ [next])
      else (qc ++ [next], rem)

/-- Leading zero? Round?  `qi` is the number of digits with the leading zero. -/
def settle (q : BigJs) (dp rm : ℕ) (more : Bool) : Except String BigJs :=
  let qi := q.c.length
  let digits : ℤ := dp + q.e + 1
  let q := if q.c.getD 0 0 = 0 ∧ qi ≠ 1 then { q with c := q.c.tail, e := q.e - 1 } else q
  if qi > digits then rnd q dp rm more else .ok q

/-- `dp` and `rm` are `Big.DP` and `Big.RM`. -/
def div (dp rm : ℕ) (x y : BigJs) : Except String BigJs :=
  let s := if x.s = y.s then 1 else -1
  if dp > MAX_DP then .error "!Big.DP!"
  else if x.IsZero ∨ y.IsZero then
    if x.IsZero ∧ y.IsZero then .error "NaN"
    else if y.IsZero then .error (if s = 1 then "Infinity" else "-Infinity")
    else .ok (zero s)
  else
    let dvd := x.c
    let dvs := y.c
    let rem := dvd.take dvs.length ++ List.replicate (dvs.length - dvd.length) 0
    let e := x.e - y.e
    let digits : ℤ := dp + e + 1
    let (qc, rem) := digitsFrom dvd dvs digits.toNat dvs.length rem []
    settle ⟨s, e, qc⟩ dp rm (rem ≠ [])

/-! ## One digit -/

section Digit

variable {dvs rem : List ℕ}

/-- A remainder: one digit, or a first digit that is not zero. -/
def Led (rem : List ℕ) : Prop := rem.length = 1 ∨ ∃ d m, rem = d :: m ∧ d ≠ 0

theorem Led.ne_nil (led : Led rem) : rem ≠ [] := by
  rintro rfl
  rcases led with one | ⟨d, m, shape, -⟩
  · cases one
  · cases shape

/-- A divisor. -/
structure Divisor (dvs : List ℕ) : Prop where
  below : Below 10 dvs
  first : ∃ d m, dvs = d :: m ∧ d ≠ 0

theorem Divisor.pow_le (divisor : Divisor dvs) : 10 ^ (dvs.length - 1) ≤ number 10 dvs := by
  obtain ⟨d, m, rfl, first⟩ := divisor.first
  rw [List.length_cons, Nat.add_sub_cancel]
  exact Radix.pow_le_number first

theorem Divisor.length_pos (divisor : Divisor dvs) : 0 < dvs.length := by
  obtain ⟨d, m, rfl, -⟩ := divisor.first
  exact Nat.succ_pos _

theorem Divisor.pos (divisor : Divisor dvs) : 0 < number 10 dvs := (Nat.pow_pos (by decide)).trans_le divisor.pow_le

theorem cmpFrom_append (p dvs rem : List ℕ) : cmpFrom (p ++ dvs) (p ++ rem) = cmpFrom dvs rem := by
  induction p with
  | nil => rfl
  | cons d p ih => rw [List.cons_append, List.cons_append, cmpFrom, if_neg (not_not.2 rfl), ih]

/-- The comparison is that of the numbers. -/
theorem cmpRem_spec (divisor : Divisor dvs) (below : Below 10 rem) (led : Led rem) :
    cmpRem dvs rem = -1 ∧ number 10 dvs < number 10 rem ∨ cmpRem dvs rem = 0 ∧ rem = dvs ∨
      cmpRem dvs rem = 1 ∧ number 10 rem < number 10 dvs := by
  have filled := divisor.length_pos
  have large := divisor.pow_le
  unfold cmpRem
  by_cases lengths : dvs.length ≠ rem.length
  · rw [if_pos lengths]
    by_cases longer : dvs.length > rem.length
    · refine .inr (.inr ⟨if_pos longer, (Radix.number_lt (by decide) below).trans_le ?_⟩)
      exact (Nat.pow_le_pow_right (by decide) (by omega)).trans large
    · refine .inl ⟨if_neg longer, (Radix.number_lt (by decide) divisor.below).trans_le ?_⟩
      obtain ⟨d, m, rfl, first⟩ := led.resolve_left (by omega)
      refine le_trans (Nat.pow_le_pow_right (by decide) ?_) (Radix.pow_le_number first)
      rw [List.length_cons] at lengths longer
      omega
  · have equal : dvs.length = rem.length := not_not.1 lengths
    rw [if_neg lengths]
    rcases Radix.first_difference dvs rem with ⟨m, rfl⟩ | ⟨d, m, rfl⟩ | ⟨p, d, m, d', m', rfl, rfl, differ⟩
    · obtain rfl : m = [] := List.length_eq_zero_iff.1 (by rw [List.length_append] at equal; omega)
      have is := cmpFrom_append dvs [] []
      rw [List.append_nil] at is
      exact .inr (.inl ⟨by rw [List.append_nil, is]; rfl, List.append_nil _⟩)
    · rw [List.length_append, List.length_cons] at equal
      omega
    · have inner : m.length = m'.length := by
        simp only [List.length_append, List.length_cons] at equal
        omega
      rw [cmpFrom_append, cmpFrom, if_pos differ]
      by_cases greater : d > d'
      · exact .inr (.inr ⟨if_pos greater, Radix.number_lt_of_digit (by decide) below.right inner.symm greater⟩)
      · exact .inl ⟨if_neg greater, Radix.number_lt_of_digit (by decide) divisor.below.right inner
          (lt_of_le_of_ne (not_lt.1 greater) differ)⟩

/-- Something is left when the divisor is smaller. -/
theorem takeAway_spec (divisor : Divisor dvs) (below : Below 10 rem) (less : number 10 dvs < number 10 rem)
    (bound : number 10 rem < 10 * number 10 dvs) (led : Led rem) :
    Below 10 (takeAway dvs rem) ∧ (∃ d m, takeAway dvs rem = d :: m ∧ d ≠ 0) ∧
      number 10 (takeAway dvs rem) + number 10 dvs = number 10 rem := by
  have filled := divisor.length_pos
  have top := Radix.number_lt (by decide) divisor.below
  -- the remainder is at most one digit longer
  obtain ⟨dvsT, is, length, small, same⟩ : ∃ dvsT, (if rem.length = dvs.length then dvs else 0 :: dvs) = dvsT ∧
      dvsT.length = rem.length ∧ Below 10 dvsT ∧ number 10 dvsT = number 10 dvs := by
    by_cases equal : rem.length = dvs.length
    · exact ⟨dvs, if_pos equal, equal.symm, divisor.below, rfl⟩
    · refine ⟨0 :: dvs, if_neg equal, ?_, .cons (by decide) divisor.below, Radix.number_zero_cons _ _⟩
      have low : dvs.length ≤ rem.length := by
        by_contra shorter
        have := (Radix.number_lt (by decide) below).trans_le ((Nat.pow_le_pow_right (by decide)
          (show rem.length ≤ dvs.length - 1 by omega)).trans divisor.pow_le)
        omega
      have high : rem.length ≤ dvs.length + 1 := by
        obtain ⟨d, m, rfl, first⟩ := led.resolve_left (by omega)
        have := Radix.pow_le_number (b := 10) (l := m) first
        by_contra longer
        rw [List.length_cons] at longer
        have power : 10 ^ (dvs.length + 1) ≤ 10 ^ m.length := Nat.pow_le_pow_right (by decide) (by omega)
        rw [pow_succ] at power
        omega
      rw [List.length_cons]
      omega
  obtain ⟨out, sub, len, digits, sum⟩ := subtractFrom_spec (p := rem) (a := 0) small rfl rem.length
    below rfl length.ge [] (by rw [← length, List.take_length, same]; exact less.le)
  rw [← length, List.take_length, same] at sum
  rw [List.append_nil, List.append_nil] at sub
  obtain ⟨kept, first⟩ := Radix.dropWhile_spec (b := 10) out
  have taken : takeAway dvs rem = out.dropWhile (· = 0) := by
    unfold takeAway
    rw [is]
    dsimp only
    rw [sub]
  rw [taken, kept]
  refine ⟨digits.sublist (List.dropWhile_suffix _).sublist, ?_, sum⟩
  cases shape : out.dropWhile (· = 0) with
  | nil =>
      rw [shape, Radix.number_nil] at kept
      omega
  | cons d m => exact ⟨d, m, rfl, first d (by rw [shape]; rfl)⟩

/-- **One digit: how often the divisor goes into the remainder.** -/
theorem goesInto_spec (divisor : Divisor dvs) (n : ℕ) (rounds : n ≤ 10) (round : Round) (below : Below 10 round.rem)
    (led : Led round.rem) (bound : number 10 round.rem < n * number 10 dvs) :
    let result := goesInto dvs n round
    result.cmp = 0 ∧ number 10 round.rem = (result.next + n - 9) * number 10 dvs ∧ 10 - n ≤ result.next ∨
      result.cmp = 1 ∧ result.remL = result.rem.length ∧ Below 10 result.rem ∧ Led result.rem ∧
        number 10 result.rem < number 10 dvs ∧ 10 - n ≤ result.next ∧
        number 10 round.rem = (result.next + n - 10) * number 10 dvs + number 10 result.rem := by
  induction n generalizing round with
  | zero => omega
  | succ n ih =>
      rw [goesInto]
      rcases cmpRem_spec divisor below led with ⟨is, less⟩ | ⟨is, same⟩ | ⟨is, greater⟩
      · -- the divisor goes in once more
        have tenfold : (n + 1) * number 10 dvs ≤ 10 * number 10 dvs := Nat.mul_le_mul_right _ rounds
        obtain ⟨digits, first, sum⟩ := takeAway_spec divisor below less (by omega) led
        rw [Nat.succ_mul] at bound
        have step := ih (by omega) ⟨10 - n, -1, 0, takeAway dvs round.rem⟩ digits (.inr first)
          (by dsimp only; omega)
        rw [is, if_pos (by decide)]
        generalize goesInto dvs n ⟨10 - n, -1, 0, takeAway dvs round.rem⟩ = result at *
        rcases step with ⟨cmp, value, low⟩ | ⟨cmp, remL, small, led', less', low, value⟩
        · refine .inl ⟨cmp, ?_, by omega⟩
          rw [← sum, value, show result.next + (n + 1) - 9 = result.next + n - 9 + 1 by omega, Nat.succ_mul]
        · refine .inr ⟨cmp, remL, small, led', less', by omega, ?_⟩
          rw [← sum, value, show result.next + (n + 1) - 10 = result.next + n - 10 + 1 by omega, Nat.succ_mul]
          omega
      · rw [is, if_neg (by decide), same]
        refine .inl ⟨rfl, ?_, le_rfl⟩
        rw [show 10 - (n + 1) + (n + 1) - 9 = 1 by omega, Nat.one_mul]
      · rw [is, if_neg (by decide)]
        refine .inr ⟨rfl, rfl, below, led, greater, le_rfl, ?_⟩
        rw [show 10 - (n + 1) + (n + 1) - 10 = 0 by omega, Nat.zero_mul, Nat.zero_add]

end Digit

/-! ## The loop -/

section Loop

variable {dvd dvs : List ℕ}

/-- The first `i` digits of the dividend, with zeros behind the last one. -/
def brought (dvd : List ℕ) (i : ℕ) : ℕ := number 10 (dvd.take i ++ List.replicate (i - dvd.length) 0)

theorem brought_succ (dvd : List ℕ) (i : ℕ) : brought dvd (i + 1) = brought dvd i * 10 + dvd.getD i 0 := by
  unfold brought
  by_cases inside : i < dvd.length
  · rw [Nat.sub_eq_zero_of_le inside, Nat.sub_eq_zero_of_le inside.le, List.replicate_zero, List.append_nil,
      List.append_nil, Radix.take_succ inside, Radix.number_concat]
  · rw [List.take_of_length_le (by omega), List.take_of_length_le (by omega), List.getD_eq_default _ _ (by omega),
      Nat.succ_sub (by omega), List.replicate_succ', ← List.append_assoc, Radix.number_concat]

/-- What every round starts with: `dvdI` digits are brought down, and divided but
for the remainder. -/
structure Division (dvd dvs : List ℕ) (dvdI : ℕ) (rem qc : List ℕ) : Prop where
  below : Below 10 rem
  digits : Below 10 qc
  led : Led rem
  bound : number 10 rem < 10 * number 10 dvs
  value : number 10 qc * (10 * number 10 dvs) + number 10 rem = brought dvd dvdI
  /-- A remainder of zero has a digit of the dividend behind it. -/
  more : number 10 rem = 0 → dvdI < dvd.length

/-- What a round ends with. -/
structure Divided (dvd dvs : List ℕ) (dvdI : ℕ) (rem qc : List ℕ) (r : ℕ) : Prop where
  digits : Below 10 qc
  less : r < number 10 dvs
  value : number 10 qc * number 10 dvs + r = brought dvd dvdI
  below : Below 10 rem
  next : number 10 rem = 10 * r + dvd.getD dvdI 0
  led : rem ≠ [] → Led rem
  within : rem ≠ [] → r = 0 → dvdI < dvd.length
  /-- Nothing left: the last digit of the quotient is not zero. -/
  exact : rem = [] → r = 0 ∧ dvd.length ≤ dvdI ∧ ∀ p d, qc = p ++ [d] → d ≠ 0

theorem nextDigit_spec (divisor : Divisor dvs) (below : Below 10 dvd) {dvdI : ℕ} {rem qc : List ℕ}
    (division : Division dvd dvs dvdI rem qc) :
    ∃ r, Divided dvd dvs dvdI (nextDigit dvd dvs dvdI rem).2 (qc ++ [(nextDigit dvd dvs dvdI rem).1]) r := by
  have positive := divisor.pos
  have digit := below.getD (by decide) dvdI
  have spec := goesInto_spec divisor 10 le_rfl ⟨0, 0, 0, rem⟩ division.below division.led division.bound
  have value := division.value
  have bound := division.bound
  have first := division.more
  unfold nextDigit
  dsimp only at spec ⊢
  generalize goesInto dvs 10 ⟨0, 0, 0, rem⟩ = round at *
  -- a digit of the dividend, if there is one
  have fresh : Below 10 dvd[dvdI]?.toList ∧ number 10 dvd[dvdI]?.toList = dvd.getD dvdI 0 ∧
      (dvd[dvdI]?.toList ≠ [] → Led dvd[dvdI]?.toList ∧ dvdI < dvd.length) ∧
      (dvd[dvdI]?.toList = [] → dvd.length ≤ dvdI) := by
    rw [List.getD_eq_getElem?_getD] at digit ⊢
    cases get : dvd[dvdI]? with
    | none => exact ⟨.nil, rfl, fun ne => absurd rfl ne, fun _ => List.getElem?_eq_none_iff.1 get⟩
    | some d =>
        rw [get] at digit
        exact ⟨.cons digit .nil, Radix.number_singleton _ _,
          fun _ => ⟨.inl rfl, (List.getElem?_eq_some_iff.1 get).1⟩, nofun⟩
  obtain ⟨freshBelow, freshNumber, freshLed, ended⟩ := fresh
  rcases spec with ⟨cmp, goes, -⟩ | ⟨cmp, remL, small, led, less, -, goes⟩
  · -- the divisor goes in without a remainder
    rw [show round.next + 10 - 9 = round.next + 1 by omega] at goes
    have next : round.next + 1 < 10 := by
      by_contra large
      have : 10 * number 10 dvs ≤ (round.next + 1) * number 10 dvs := Nat.mul_le_mul_right _ (by omega)
      omega
    rw [cmp, if_neg (show ¬ (0 : ℤ) ≠ 0 by decide), if_neg fun both => both.2 rfl]
    refine ⟨0, division.digits.append (.cons next .nil), positive, ?_, freshBelow, by omega,
      fun ne => (freshLed ne).1, fun ne _ => (freshLed ne).2, fun none => ⟨rfl, ended none, ?_⟩⟩
    · rw [Radix.number_concat, ← value, goes]
      ring
    · intro p d shape
      have := List.append_inj_right' shape rfl
      have : round.next + 1 = d := List.singleton_inj.1 this
      omega
  · rw [show round.next + 10 - 10 = round.next by omega] at goes
    have next : round.next < 10 := by
      by_contra large
      have : 10 * number 10 dvs ≤ round.next * number 10 dvs := Nat.mul_le_mul_right _ (by omega)
      omega
    have quotient : number 10 (qc ++ [round.next]) * number 10 dvs + number 10 round.rem = brought dvd dvdI := by
      rw [Radix.number_concat, ← value, goes]
      ring
    rw [cmp, if_pos (show (1 : ℤ) ≠ 0 by decide)]
    by_cases some : round.rem.getD 0 0 ≠ 0
    · -- the next digit goes behind the remainder
      have shape : put round.rem round.remL (dvd.getD dvdI 0) = round.rem ++ [dvd.getD dvdI 0] := by
        rw [put, if_neg (by omega)]
      have leads : ∃ d m, round.rem = d :: m ∧ d ≠ 0 := by
        obtain ⟨d, m, is⟩ := List.exists_cons_of_ne_nil led.ne_nil
        exact ⟨d, m, is, fun zero => some (by rw [is]; exact zero)⟩
      rw [if_pos ⟨some, by decide⟩, shape]
      refine ⟨_, division.digits.append (.cons next .nil), less, quotient, small.append (.cons digit .nil), ?_,
        fun _ => ?_, fun _ zero => absurd zero ?_, fun none => absurd none (by simp)⟩
      · rw [Radix.number_concat]
        ring
      · obtain ⟨d, m, is, ne⟩ := leads
        exact .inr ⟨d, m ++ [dvd.getD dvdI 0], by rw [is]; rfl, ne⟩
      · obtain ⟨d, m, is, ne⟩ := leads
        rw [is]
        exact ((Nat.pow_pos (by decide)).trans_le (Radix.pow_le_number ne)).ne'
    · have zero : number 10 round.rem = 0 := by
        rcases led with one | ⟨d, m, is, ne⟩
        · obtain ⟨d, is⟩ := List.length_eq_one_iff.1 one
          rw [is] at some ⊢
          exact not_not.1 some
        · exact absurd (by rw [is]; exact ne) some
      rw [if_neg fun both => some both.1]
      refine ⟨0, division.digits.append (.cons next .nil), positive, by omega, freshBelow, by omega,
        fun ne => (freshLed ne).1, fun ne _ => (freshLed ne).2, fun none => ⟨rfl, ended none, ?_⟩⟩
      intro p d shape
      have := List.append_inj_right' shape rfl
      have : round.next = d := List.singleton_inj.1 this
      rintro rfl
      -- a zero digit of a zero remainder has a digit of the dividend behind it
      have : number 10 rem = 0 := by
        rw [goes, this, zero]
        ring
      have := first this
      have := ended none
      omega

/-- The round that follows. -/
theorem Divided.again (below : Below 10 dvd) (last : ∀ p d, dvd = p ++ [d] → d ≠ 0) {dvdI : ℕ} {rem qc : List ℕ}
    {r : ℕ} (divided : Divided dvd dvs dvdI rem qc r) (left : rem ≠ []) :
    Division dvd dvs (dvdI + 1) rem qc where
  below := divided.below
  digits := divided.digits
  led := divided.led left
  bound := by
    have := divided.less
    have := below.getD (by decide) dvdI
    rw [divided.next]
    omega
  value := by
    rw [brought_succ, ← divided.value, divided.next]
    ring
  more := by
    intro zero
    have next := divided.next
    have inside := divided.within left (by omega)
    by_contra outside
    have shape : dvd = dvd.take dvdI ++ [dvd.getD dvdI 0] := by
      rw [← Radix.take_succ inside, List.take_of_length_le (by omega)]
    exact last _ _ shape (by omega)

/-- What the loop ends with: all digits asked for, or nothing left. -/
theorem digitsFrom_spec (divisor : Divisor dvs) (below : Below 10 dvd) (last : ∀ p d, dvd = p ++ [d] → d ≠ 0)
    (s : ℕ) {dvdI : ℕ} {rem qc : List ℕ} (division : Division dvd dvs dvdI rem qc) :
    ∃ k r, (digitsFrom dvd dvs s dvdI rem qc).1.length = qc.length + k + 1 ∧ k ≤ s ∧
      Divided dvd dvs (dvdI + k) (digitsFrom dvd dvs s dvdI rem qc).2 (digitsFrom dvd dvs s dvdI rem qc).1 r ∧
      (k < s → (digitsFrom dvd dvs s dvdI rem qc).2 = []) := by
  induction s generalizing dvdI rem qc with
  | zero =>
      obtain ⟨r, divided⟩ := nextDigit_spec divisor below division
      exact ⟨0, r, by simp [digitsFrom], le_rfl, divided, nofun⟩
  | succ s ih =>
      obtain ⟨r, divided⟩ := nextDigit_spec divisor below division
      rw [digitsFrom]
      dsimp only
      by_cases more : dvdI < dvd.length ∨ (nextDigit dvd dvs dvdI rem).2 ≠ []
      · have left : (nextDigit dvd dvs dvdI rem).2 ≠ [] := more.elim
          (fun inside none => absurd (divided.exact none).2.1 (not_le.2 inside)) id
        obtain ⟨k, r', length, within, final, ended⟩ := ih (divided.again below last left)
        rw [if_pos more]
        refine ⟨k + 1, r', ?_, by omega, ?_, fun less => ended (by omega)⟩
        · rw [length, List.length_append, List.length_singleton]
          omega
        · rwa [Nat.add_assoc, Nat.add_comm 1 k] at final
      · rw [if_neg more]
        obtain ⟨outside, none⟩ := not_or.1 more
        exact ⟨0, r, by simp, Nat.zero_le _, divided, fun _ => not_not.1 none⟩

/-- The dividend with the point behind the digits brought down. -/
theorem brought_reading (dvd : List ℕ) (i : ℕ) :
    reading 10 dvd (i - 1) = brought dvd i + reading 10 (dvd.drop i) (-1) := by
  have length : (dvd.take i ++ List.replicate (i - dvd.length) 0).length = i := by
    rw [List.length_append, List.length_take, List.length_replicate]
    omega
  have split : reading 10 dvd (i - 1) =
      reading 10 ((dvd.take i ++ List.replicate (i - dvd.length) 0) ++ dvd.drop i) (i - 1) := by
    by_cases inside : i ≤ dvd.length
    · rw [Nat.sub_eq_zero_of_le inside, List.replicate_zero, List.append_nil, List.take_append_drop]
    · rw [List.take_of_length_le (by omega), List.drop_of_length_le (by omega), List.append_nil,
        Radix.reading_append_zeros]
  rw [split, Radix.reading_append, Radix.reading_eq (by decide), length, sub_add_cancel, sub_self, zpow_zero,
    mul_one, brought, show (i : ℤ) - 1 - i = -1 by ring]

/-- What the digits of the quotient leave out, in units of the last of them. -/
def rest (dvd dvs : List ℕ) (i r : ℕ) : ℚ := (r + reading 10 (dvd.drop i) (-1)) / number 10 dvs

section Rest

variable {rem qc : List ℕ} {i k r : ℕ}

theorem rest_nonneg (dvd dvs : List ℕ) (i r : ℕ) : 0 ≤ rest dvd dvs i r :=
  div_nonneg (add_nonneg (Nat.cast_nonneg r) (Radix.reading_nonneg _ _ _)) (Nat.cast_nonneg _)

theorem Divided.rest_lt_one (below : Below 10 dvd) (divided : Divided dvd dvs i rem qc r) :
    rest dvd dvs i r < 1 := by
  have behind := Radix.behind_lt_one (b := 10) (t := 0) (by decide) (below.sublist (List.drop_sublist i dvd))
    (by positivity)
  have whole : (r : ℚ) + 1 ≤ number 10 dvs := by exact_mod_cast divided.less
  have positive : (0 : ℚ) < number 10 dvs := by exact_mod_cast (Nat.zero_le r).trans_lt divided.less
  rw [rest, div_lt_one positive]
  linarith

/-- `rem[0] !== u` -/
theorem Divided.rest_ne_zero_iff (last : ∀ p d, dvd = p ++ [d] → d ≠ 0) (divided : Divided dvd dvs i rem qc r) :
    rem ≠ [] ↔ rest dvd dvs i r ≠ 0 := by
  have positive : (number 10 dvs : ℚ) ≠ 0 := by
    exact_mod_cast ((Nat.zero_le r).trans_lt divided.less).ne'
  have nonneg := Radix.reading_nonneg 10 (dvd.drop i) (-1)
  constructor
  · intro left zero
    rw [rest, div_eq_zero_iff, or_iff_left positive] at zero
    have none : r = 0 := by
      have : (r : ℚ) = 0 := by linarith [(Nat.cast_nonneg r : (0 : ℚ) ≤ r)]
      exact_mod_cast this
    have inside := divided.within left none
    obtain ⟨q, d, shape⟩ : ∃ q d, dvd.drop i = q ++ [d] := by
      have some : dvd.drop i ≠ [] := fun empty => by
        rw [List.drop_eq_nil_iff] at empty
        omega
      exact ⟨_, _, (List.dropLast_append_getLast some).symm⟩
    have ne : d ≠ 0 := last (dvd.take i ++ q) d (by
      rw [List.append_assoc, ← shape, List.take_append_drop])
    have some : number 10 (dvd.drop i) ≠ 0 := by
      rw [shape, Radix.number_concat]
      omega
    have := Radix.reading_pos (b := 10) (by decide) some (-1)
    rw [none, Nat.cast_zero, zero_add] at zero
    exact absurd zero this.ne'
  · intro some none
    obtain ⟨zero, outside, -⟩ := divided.exact none
    rw [rest, zero, List.drop_of_length_le outside, Radix.reading_nil] at some
    norm_num at some

/-- **The digits and the rest are the quotient.** -/
theorem Divided.quotient (divisor : Divisor dvs) (divided : Divided dvd dvs (dvs.length + k) rem qc r)
    (length : qc.length = k + 1) (e e' : ℤ) :
    reading 10 dvd e / reading 10 dvs e' =
      reading 10 qc (e - e') + rest dvd dvs (dvs.length + k) r * 10 ^ (e - e' - k) := by
  have positive : (number 10 dvs : ℚ) ≠ 0 := by exact_mod_cast divisor.pos.ne'
  have value : (number 10 qc * number 10 dvs + r : ℚ) = brought dvd (dvs.length + k) := by
    exact_mod_cast divided.value
  have numerator : reading 10 dvd e =
      (number 10 qc * number 10 dvs + r + reading 10 (dvd.drop (dvs.length + k)) (-1)) *
        10 ^ (e - (dvs.length + k - 1 : ℤ)) := by
    have moved := Radix.reading_scale (b := 10) (by decide) dvd (((dvs.length + k : ℕ) : ℤ) - 1)
      (e - (dvs.length + k - 1 : ℤ))
    rw [brought_reading, ← value] at moved
    rw [show e = ((dvs.length + k : ℕ) : ℤ) - 1 + (e - (dvs.length + k - 1 : ℤ)) by push_cast; ring]
    rw [show ((dvs.length + k : ℕ) : ℤ) - 1 + (e - (dvs.length + k - 1 : ℤ)) - (dvs.length + k - 1 : ℤ) =
      e - (dvs.length + k - 1 : ℤ) by push_cast; ring]
    exact_mod_cast moved
  have power : (10 : ℚ) ^ (e - (dvs.length + k - 1 : ℤ)) = 10 ^ (e - e' - k) * 10 ^ (e' + 1 - dvs.length : ℤ) := by
    rw [← zpow_add₀ (by norm_num)]
    congr 1
    ring
  have unit : (10 : ℚ) ^ (e' + 1 - dvs.length : ℤ) ≠ 0 := by positivity
  rw [numerator, power, Radix.reading_eq (by decide) dvs, Radix.reading_eq (by decide) qc, length, rest,
    show e - e' + 1 - ((k + 1 : ℕ) : ℤ) = e - e' - k by push_cast; ring]
  push_cast
  field_simp
  ring

end Rest

end Loop

/-! ## The quotient -/

section Value

variable {x y : BigJs} {dp rm : ℕ} {m : Mode}

theorem Canonical.divisor (canonical : x.Canonical) (some : ¬ x.IsZero) : Divisor x.c :=
  ⟨canonical.below, (canonical.trimmed some).first⟩

theorem Canonical.last (canonical : x.Canonical) (some : ¬ x.IsZero) (p : List ℕ) (d : ℕ) (shape : x.c = p ++ [d]) :
    d ≠ 0 := by
  obtain ⟨q, d', shape', ne⟩ := (canonical.trimmed some).last
  exact List.singleton_inj.1 (List.append_inj_right' (shape.symm.trans shape') rfl) ▸ ne

/-- The first digits of the dividend, as long as the divisor. -/
theorem division_start (canonical : x.Canonical) (some : ¬ x.IsZero) {dvs : List ℕ} (divisor : Divisor dvs) :
    Division x.c dvs dvs.length (x.c.take dvs.length ++ List.replicate (dvs.length - x.c.length) 0) [] := by
  obtain ⟨d, m, shape, first⟩ := (canonical.trimmed some).first
  obtain ⟨n, filled⟩ : ∃ n, dvs.length = n + 1 := ⟨dvs.length - 1, by have := divisor.length_pos; omega⟩
  have below : Below 10 (x.c.take dvs.length ++ List.replicate (dvs.length - x.c.length) 0) :=
    (canonical.below.sublist (List.take_sublist _ _)).append (.zeros (by decide) _)
  have length : (x.c.take dvs.length ++ List.replicate (dvs.length - x.c.length) 0).length = dvs.length := by
    rw [List.length_append, List.length_take, List.length_replicate]
    omega
  obtain ⟨q, leads⟩ : ∃ q, x.c.take dvs.length ++ List.replicate (dvs.length - x.c.length) 0 = d :: q :=
    ⟨_, by rw [shape, filled, List.take_succ_cons, List.cons_append]⟩
  have small := Radix.number_lt (by decide) below
  have large := divisor.pow_le
  have power : 10 ^ dvs.length = 10 ^ (dvs.length - 1) * 10 := by rw [← pow_succ, filled, Nat.add_sub_cancel]
  rw [length, power] at small
  refine ⟨below, .nil, .inr ⟨d, q, leads, first⟩, by omega, ?_, fun none => ?_⟩
  · rw [Radix.number_nil, Nat.zero_mul, Nat.zero_add, brought]
  · rw [leads] at none
    exact absurd none ((Nat.pow_pos (by decide)).trans_le (Radix.pow_le_number first)).ne'

/-- There are never two leading zeros. -/
theorem second_ne_zero {m : List ℕ} {e : ℤ} {t : ℚ} (below : Below 10 m) (small : t < 1) (more : m ≠ [])
    (large : (10 : ℚ) ^ (e - 1) ≤ reading 10 (0 :: m) e + t * 10 ^ (e + 1 - (0 :: m).length)) :
    m.getD 0 0 ≠ 0 := by
  obtain ⟨d, m, rfl⟩ := List.exists_cons_of_ne_nil more
  rintro (rfl : d = 0)
  have top : (number 10 m : ℚ) + 1 ≤ 10 ^ (m.length : ℤ) := by
    rw [zpow_natCast]
    exact_mod_cast Radix.number_lt (by decide) below.tail
  have place : (10 : ℚ) ^ (e - 1) = 10 ^ (m.length : ℤ) * 10 ^ (e - 1 - m.length) := by
    rw [← zpow_add₀ (by norm_num)]
    congr 1
    ring
  have power : (0 : ℚ) < 10 ^ (e - 1 - m.length) := by positivity
  rw [Radix.reading_eq (by decide), Radix.number_zero_cons, Radix.number_zero_cons, List.length_cons,
    List.length_cons, place, show e + 1 - ((m.length + 1 + 1 : ℕ) : ℤ) = e - 1 - m.length by push_cast; ring] at large
  push_cast at large
  nlinarith

/-- The digits of a quotient, and a rest `t` in units of the last one. -/
structure Quotient (q : BigJs) (dp : ℕ) (more : Bool) (t : ℚ) : Prop where
  sign : q.s = 1 ∨ q.s = -1
  below : Below 10 q.c
  started : q.c ≠ []
  nonneg : 0 ≤ t
  small : t < 1
  large : (10 : ℚ) ^ (q.e - 1) ≤ reading 10 q.c q.e + t * 10 ^ (q.e + 1 - q.c.length)
  more_iff : more = true ↔ t ≠ 0
  enough : more = true → dp + q.e + 1 < q.c.length
  last : more = false → ∀ p d, q.c = p ++ [d] → d ≠ 0

/-- The leading zero, unless it is the only digit. -/
theorem Quotient.lead {q : BigJs} {more : Bool} {t : ℚ} (quotient : Quotient q dp more t) :
    ∃ c e, (if q.c.getD 0 0 = 0 ∧ q.c.length ≠ 1 then { q with c := q.c.tail, e := q.e - 1 } else q) =
        (⟨q.s, e, c⟩ : BigJs) ∧
      c <:+ q.c ∧ c ≠ [] ∧ e - c.length = q.e - q.c.length ∧ reading 10 c e = reading 10 q.c q.e ∧
      (c.getD 0 0 = 0 → q.c = [0] ∧ e = q.e) := by
  obtain ⟨d, m, shape⟩ := List.exists_cons_of_ne_nil quotient.started
  have below := quotient.below
  have large := quotient.large
  obtain ⟨s, e, c⟩ := q
  dsimp only at *
  subst shape
  rw [List.getD_cons_zero]
  by_cases leading : d = 0 ∧ (d :: m).length ≠ 1
  · obtain ⟨rfl, two⟩ := leading
    have more : m ≠ [] := fun empty => two (by rw [empty]; rfl)
    refine ⟨m, e - 1, if_pos ⟨rfl, two⟩, List.suffix_cons 0 m, more, ?_, ?_, fun zero =>
      absurd zero (second_ne_zero below.tail quotient.small more large)⟩
    · rw [List.length_cons]
      push_cast
      ring
    · rw [Radix.reading_cons, Nat.cast_zero, zero_mul, zero_add]
  · refine ⟨d :: m, e, if_neg leading, List.suffix_rfl, List.cons_ne_nil d m, rfl, rfl, fun zero => ⟨?_, rfl⟩⟩
    obtain rfl : d = 0 := zero
    have one : (0 :: m).length = 1 := not_not.1 fun two => leading ⟨rfl, two⟩
    obtain rfl : m = [] := List.length_eq_zero_iff.1 (by simpa using one)
    rfl

/-- **Rounded where there are too many digits, exact where not.** -/
theorem settle_spec {q : BigJs} {more : Bool} {t : ℚ} (quotient : Quotient q dp more t) (known : mode rm = some m) :
    ∃ z, settle q dp rm more = .ok z ∧ z.Canonical ∧
      z.value = q.s * m.magnitude (10 ^ dp) (reading 10 q.c q.e + t * 10 ^ (q.e + 1 - q.c.length)) := by
  obtain ⟨c, e, is, suffix, started, place, same, leading⟩ := quotient.lead
  have below : Below 10 c := quotient.below.sublist suffix.sublist
  have last : more = false → ∀ p d, c = p ++ [d] → d ≠ 0 := fun none p d shape => by
    obtain ⟨r, split⟩ := suffix
    exact quotient.last none (r ++ p) d (by rw [List.append_assoc, ← shape, split])
  unfold settle
  dsimp only
  rw [is]
  by_cases many : (q.c.length : ℤ) > dp + q.e + 1
  · rw [if_pos many]
    have scale : (10 : ℚ) ^ (q.e + 1 - q.c.length + dp : ℤ) = 10 ^ (q.e + 1 - q.c.length) * 10 ^ dp := by
      rw [zpow_add₀ (by norm_num), zpow_natCast]
    have power : (0 : ℚ) < 10 ^ (q.e + 1 - q.c.length + dp : ℤ) := by positivity
    have exact : Exact c (e + dp + 1) more (t * 10 ^ (q.e + 1 - q.c.length + dp : ℤ)) :=
      { below := below
        nonneg := mul_nonneg quotient.nonneg power.le
        small := by
          rw [show e + dp + 1 - (c.length : ℤ) = q.e + 1 - q.c.length + dp by omega]
          exact mul_lt_of_lt_one_left power quotient.small
        more_iff := by rw [quotient.more_iff, mul_ne_zero_iff_right power.ne']
        enough := fun some => by have := quotient.enough some; omega
        last := last
        started := started }
    obtain ⟨z, rounded, canonical, value⟩ := rnd_spec (x := ⟨q.s, e, c⟩) quotient.sign exact known
      fun before zero => by
        obtain ⟨one, equal⟩ := leading zero
        rw [one, List.length_singleton] at many
        dsimp only at before
        push_cast at many
        omega
    refine ⟨z, rounded, canonical, ?_⟩
    rw [value, same, scale, ← mul_assoc, mul_div_cancel_right₀ _ (by positivity)]
  · -- all digits are known, and fit
    have none : more = false := by
      by_contra some
      exact many (quotient.enough (by simpa using some))
    have zero : t = 0 := by
      by_contra some
      rw [quotient.more_iff.2 some] at none
      cases none
    have first : c.getD 0 0 ≠ 0 := fun vanish => by
      obtain ⟨one, -⟩ := leading vanish
      exact quotient.last none [] 0 one rfl
    rw [if_neg many, zero, zero_mul, add_zero, ← same,
      Mode.magnitude_of_onGrid (by positivity) (Radix.reading_onGrid (by decide) (by omega))]
    obtain ⟨d, p, shape⟩ := List.exists_cons_of_ne_nil started
    obtain ⟨p', d', shape'⟩ : ∃ p d, c = p ++ [d] := ⟨_, _, (List.dropLast_append_getLast started).symm⟩
    exact ⟨_, rfl, ⟨quotient.sign, below, .inr ⟨⟨d, p, shape, fun zero => first (by rw [shape]; exact zero)⟩,
      p', d', shape', last none p' d' shape'⟩⟩, rfl⟩

theorem signed_div {s s' : ℤ} (sign : s = 1 ∨ s = -1) (sign' : s' = 1 ∨ s' = -1) (q q' : ℚ) :
    (s * q) / (s' * q') = ((if s = s' then 1 else -1 : ℤ) : ℚ) * (q / q') := by
  rcases sign with rfl | rfl <;> rcases sign' with rfl | rfl <;> norm_num [div_neg, neg_div]

/-- **`div` rounds the quotient to `dp` places.** -/
theorem div_spec (canonical : x.Canonical) (canonical' : y.Canonical) (places : dp ≤ MAX_DP)
    (known : mode rm = some m) (some' : y.value ≠ 0) :
    ∃ z, div dp rm x y = .ok z ∧ z.Canonical ∧ z.value = m.round (10 ^ dp) (x.value / y.value) := by
  have sign : (if x.s = y.s then (1 : ℤ) else -1) = 1 ∨ (if x.s = y.s then (1 : ℤ) else -1) = -1 := by
    split <;> decide
  have divides : ¬ y.IsZero := fun none => some' (canonical'.isZero_iff.1 none)
  unfold div
  rw [if_neg (not_lt.2 places)]
  by_cases none : x.IsZero
  · rw [if_pos (.inl none), if_neg fun both => divides both.2, if_neg divides, canonical.isZero_iff.1 none, zero_div,
      Mode.round, if_pos le_rfl, Mode.magnitude_zero (by positivity)]
    exact ⟨_, rfl, zero_canonical sign, zero_value _⟩
  rw [if_neg (not_or.2 ⟨none, divides⟩), BigJs.value, BigJs.value, signed_div canonical.sign canonical'.sign]
  have divisor := canonical'.divisor divides
  have last := canonical.last none
  obtain ⟨k, r, length, most, divided, ended⟩ := digitsFrom_spec divisor canonical.below last
    ((dp + (x.e - y.e) + 1 : ℤ)).toNat (division_start canonical none divisor)
  dsimp only
  generalize digitsFrom x.c y.c _ _ _ _ = result at *
  obtain ⟨qc, rem⟩ := result
  dsimp only at *
  rw [List.length_nil, Nat.zero_add] at length
  have unit : x.e - y.e + 1 - (qc.length : ℤ) = x.e - y.e - k := by
    rw [length]
    push_cast
    ring
  have value := divided.quotient divisor length x.e y.e
  rw [← unit] at value
  have left := divided.rest_ne_zero_iff last
  have quotient : Quotient ⟨if x.s = y.s then 1 else -1, x.e - y.e, qc⟩ dp (rem ≠ [])
      (rest x.c y.c (y.c.length + k) r) :=
    { sign := sign
      below := divided.digits
      started := fun empty => by
        rw [show qc = [] from empty] at length
        cases length
      nonneg := rest_nonneg _ _ _ _
      small := divided.rest_lt_one canonical.below
      large := by
        have top := Radix.reading_lt (b := 10) (by decide) canonical'.below y.e
        have low := canonical.pow_le none
        have pos : (0 : ℚ) < reading 10 y.c y.e := (zpow_pos (by norm_num) _).trans_le (canonical'.pow_le divides)
        have power : (10 : ℚ) ^ (x.e - y.e - 1) * 10 ^ (y.e + 1) = 10 ^ x.e := by
          rw [← zpow_add₀ (by norm_num)]
          congr 1
          ring
        dsimp only
        rw [← value, le_div_iff₀ pos]
        refine le_trans (mul_le_mul_of_nonneg_left ?_ (by positivity)) (power.le.trans low)
        exact_mod_cast top.le
      more_iff := by rw [decide_eq_true_iff, left]
      enough := fun some => by
        have most' : ¬ k < (dp + (x.e - y.e) + 1 : ℤ).toNat := fun less => of_decide_eq_true some (ended less)
        dsimp only
        omega
      last := fun none => (divided.exact (not_not.1 (of_decide_eq_false none))).2.2 }
  obtain ⟨z, is, canonical'', result⟩ := settle_spec quotient known
  refine ⟨z, is, canonical'', ?_⟩
  rw [result, Mode.round_signed (by positivity) sign
    (div_nonneg (Radix.reading_nonneg _ _ _) (Radix.reading_nonneg _ _ _)), value]

/-- **A zero divisor throws.** -/
theorem div_of_zero (canonical' : y.Canonical) (places : dp ≤ MAX_DP) (none' : y.value = 0) :
    div dp rm x y = .error (if x.IsZero then "NaN" else if x.s = y.s then "Infinity" else "-Infinity") := by
  have zero := canonical'.isZero_iff.2 none'
  unfold div
  rw [if_neg (not_lt.2 places), if_pos (.inr zero)]
  by_cases both : x.IsZero
  · rw [if_pos ⟨both, zero⟩, if_pos both]
  · rw [if_neg fun pair => both pair.1, if_pos zero, if_neg both]
    split <;> rfl

/-- **Every quotient**: an exception for a zero divisor, and else the quotient rounded
to `dp` places. -/
theorem quotients (canonical : x.Canonical) (canonical' : y.Canonical) (places : dp ≤ MAX_DP)
    (known : mode rm = some m) :
    (y.value = 0 →
      div dp rm x y = .error (if x.value = 0 then "NaN" else if x.s = y.s then "Infinity" else "-Infinity")) ∧
    (y.value ≠ 0 →
      ∃ z, div dp rm x y = .ok z ∧ z.Canonical ∧ z.value = m.round (10 ^ dp) (x.value / y.value)) := by
  refine ⟨fun none => ?_, div_spec canonical canonical' places known⟩
  rw [div_of_zero canonical' places none]
  simp only [canonical.isZero_iff]

/-- `2 / 3` to three places, half up. -/
theorem quotients_third : ∃ z, div 3 1 ⟨1, 0, [2]⟩ ⟨1, 0, [3]⟩ = .ok z ∧ z.Canonical ∧
    z.value = Mode.halfUp.round (10 ^ 3) ((⟨1, 0, [2]⟩ : BigJs).value / (⟨1, 0, [3]⟩ : BigJs).value) := by
  have canonical : ∀ d : ℕ, d < 10 → d ≠ 0 → (⟨1, 0, [d]⟩ : BigJs).Canonical := fun d small some =>
    ⟨.inl rfl, .cons small .nil, .inr ⟨⟨d, [], rfl, some⟩, ⟨[], d, rfl, some⟩⟩⟩
  have three := canonical 3 (by decide) (by decide)
  have some : (⟨1, 0, [3]⟩ : BigJs).value ≠ 0 := fun none => absurd (three.isZero_iff.2 none) (by decide)
  exact (quotients (canonical 2 (by decide) (by decide)) three (by decide) rfl).2 some

/-- **Division undoes multiplication** digit for digit, in every mode, for a number
with at most `dp` decimals. -/
theorem div_times (canonical : x.Canonical) (canonical' : y.Canonical) (places : dp ≤ MAX_DP)
    (known : mode rm = some m) (some' : y.value ≠ 0) (decimals : OnGrid (10 ^ dp) x.value) :
    ∃ z, div dp rm (times x y) y = .ok z ∧ z.c = x.c ∧ z.e = x.e ∧ (x.value ≠ 0 → z.s = x.s) := by
  obtain ⟨product, value⟩ := times_spec canonical canonical'
  obtain ⟨z, is, quotient, result⟩ := div_spec product canonical' places known some'
  rw [value, mul_div_cancel_right₀ _ some', Mode.round_of_onGrid (by positivity) decimals] at result
  obtain ⟨digits, place, sign⟩ := quotient.unique canonical result
  exact ⟨z, is, digits, place, fun ne => sign (result ▸ ne)⟩

/-- `0.1 * 3 / 3` to one place. -/
theorem div_times_tenth : ∃ z, div 1 0 (times ⟨1, -1, [1]⟩ ⟨1, 0, [3]⟩) ⟨1, 0, [3]⟩ = .ok z ∧ z.c = [1] ∧ z.e = -1 := by
  have canonical : (⟨1, -1, [1]⟩ : BigJs).Canonical :=
    ⟨.inl rfl, .cons (by decide) .nil, .inr ⟨⟨1, [], rfl, by decide⟩, ⟨[], 1, rfl, by decide⟩⟩⟩
  have canonical' : (⟨1, 0, [3]⟩ : BigJs).Canonical :=
    ⟨.inl rfl, .cons (by decide) .nil, .inr ⟨⟨3, [], rfl, by decide⟩, ⟨[], 3, rfl, by decide⟩⟩⟩
  have some : (⟨1, 0, [3]⟩ : BigJs).value ≠ 0 := fun none => absurd (canonical'.isZero_iff.2 none) (by decide)
  have tenth : (⟨1, -1, [1]⟩ : BigJs).value = 1 / 10 := by norm_num [value, Radix.reading]
  have decimals : OnGrid (10 ^ 1) (⟨1, -1, [1]⟩ : BigJs).value := ⟨1, by rw [tenth]; norm_num⟩
  have known : mode 0 = Option.some .down := rfl
  obtain ⟨z, is, digits, place, -⟩ := div_times canonical canonical' (by decide) known some decimals
  exact ⟨z, is, digits, place⟩

end Value

end ColabEdit.Browser.BigJs
