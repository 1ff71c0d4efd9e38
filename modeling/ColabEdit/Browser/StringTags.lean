/-
# ColabEdit.Browser.StringTags -- the string order of the tags

The tags of `colab.js` are strings, and `ppsTags.sort()` sorts them as strings.
Calls of `PPS.insert` by any client, from the empty document: a call halves an
interval between two numbers from 0 to 1 (`halves`), and its tag is the string of
the rounded middle.

`ordered_iff`: the string order is the order of the numbers, with `'0'` first and
`'1'` last, exactly if no call halves an interval whose middle lies below
`10 ^ -6` (`Coarse`).  Such a middle is written with an exponent; its string stays
behind `'1'`.

Pole: `sorted_behind`, twenty characters typed at the start.
-/
import ColabEdit.Browser.Precision

namespace ColabEdit.Browser.Pps

open BigNum BigTag
open ColabEdit.Theory

set_option autoImplicit false

/-- The number of a tag. -/
def number (tag : String) : ℚ := (big tag : Big).value

/-- The sorted list is in numeric order. -/
structure Ordered (s : Pps String) : Prop where
  first : (sort s.ppsTags).head? = some "0"
  last : (sort s.ppsTags).getLast? = some "1"
  increasing : (sort s.ppsTags).Pairwise fun t u => number t ≤ number u

section Calls

variable {Tag Num : Type} [LinearOrder Tag] [BigNum Num] [BigTag Tag Num]

/-- The bounds of the interval that a call halves, where it finds its position. -/
def halves (s : Pps Tag) (index numClients : Int) (pos : Nat) : Option (Num × Num) :=
  let (lowB, found) := s.countTo pos s.ppsTags 0
  if found then
    match s.ppsTags[lowB]?, s.ppsTags[lowB + 1]? with
    | some l, some r => s.bounds index numClients s.ppsTags lowB l r
    | _, _ => none
  else none

/-- A call pushes the middle of the interval, or nothing. -/
theorem called_eq {s : Pps Tag} (sorted : s.ppsTags.Pairwise (· ≤ ·)) (index numClients : Int) (pos : Nat)
    (ch : CharCode) :
    s.called index numClients (pos, ch) =
      match s.halves index numClients pos with
      | some b => s.push (halfway b.1 b.2) ch false
      | none => s := by
  have same : sort s.ppsTags = s.ppsTags := SortedList.insertionSort_of_sorted sorted
  simp only [called, Pps.insert, halves, same]
  generalize s.countTo pos s.ppsTags 0 = counted
  obtain ⟨lowB, found⟩ := counted
  cases at_l : s.ppsTags[lowB]? with
  | none => cases found <;> rfl
  | some l =>
      cases at_r : s.ppsTags[lowB + 1]? with
      | none => cases found <;> rfl
      | some r =>
          cases halved : s.bounds index numClients s.ppsTags lowB l r with
          | none => cases found <;> simp only [halved] <;> rfl
          | some b => cases found <;> simp only [halved] <;> rfl

end Calls

/-! ## Numeric tag lists -/

theorem big_toString (x : Big) : (big x.toString : Big) = x := by
  change (Big.parse x.toString).getD (.ofInt 0) = x
  rw [Big.parse_toString]
  rfl

theorem number_toString (x : Big) : number x.toString = x.value := by
  rw [number, big_toString]

/-- A number from 0 to 1 with at most `Big.DP` places. -/
structure Within (x : Big) : Prop where
  nonneg : 0 ≤ x.value
  le_one : x.value ≤ 1
  grid : OnGrid (10 ^ DP) x.value

/-- A list of numbers in plain notation with both ends. -/
structure Numeric (s : Pps String) : Prop where
  sorted : s.ppsTags.Pairwise (· ≤ ·)
  zero : "0" ∈ s.ppsTags
  one : "1" ∈ s.ppsTags
  tags : ∀ t ∈ s.ppsTags, ∃ x : Big, t = x.toString ∧ Within x ∧ x.Plain

theorem within_zero : Within (.ofInt 0) where
  nonneg := le_rfl
  le_one := zero_le_one
  grid := .intCast unit_pos 0

theorem within_one : Within (.ofInt 1) where
  nonneg := zero_le_one
  le_one := le_rfl
  grid := .intCast unit_pos 1

theorem plain_zero : (Big.ofInt 0).Plain := ⟨le_rfl, zero_le_one, Or.inl rfl⟩

theorem plain_one : (Big.ofInt 1).Plain := by
  refine ⟨zero_le_one, le_rfl, Or.inr ?_⟩
  change (1 : ℚ) / 10 ^ 6 ≤ 1
  norm_num

theorem numeric_fresh : Numeric (fresh : Pps String) where
  sorted := framed_fresh.sorted
  zero := framed_fresh.zero_mem
  one := framed_fresh.one_mem
  tags := by
    intro t member
    rcases List.mem_cons.1 member with rfl | member
    · exact ⟨.ofInt 0, (Big.toString_zero rfl).symm, within_zero, plain_zero⟩
    · rw [List.mem_singleton.1 member]
      exact ⟨.ofInt 1, (Big.toString_one rfl).symm, within_one, plain_one⟩

/-- Strings in order are numbers in order. -/
theorem number_le {x y : Big} (plain : x.Plain) (plain' : y.Plain) (le : x.toString ≤ y.toString) :
    x.value ≤ y.value := by
  by_contra greater
  exact absurd (Big.toString_lt plain' plain (not_le.1 greater)) (not_lt.2 le)

theorem toString_le {x y : Big} (plain : x.Plain) (plain' : y.Plain) (le : x.value ≤ y.value) :
    x.toString ≤ y.toString := by
  by_contra greater
  rcases le.lt_or_eq with less | same
  · exact absurd (Big.toString_lt plain plain' less) (lt_asymm (not_le.1 greater))
  · rw [Big.value_injective same] at greater
    exact greater le_rfl

/-- A border of a client's part of an interval lies in the interval. -/
theorem share_within {l r k : Big} {n : ℤ} (first : Within l) (last : Within r) (le : l.value ≤ r.value)
    (nonneg : 0 ≤ k.value) (less : k.value ≤ n) (positive : 0 < n) :
    Within (BigNum.add l (div (times k (minus r l)) (ofInt n))) := by
  have pos : (0 : ℚ) < n := by exact_mod_cast positive
  have gap : 0 ≤ r.value - l.value := by linarith
  have share : 0 ≤ k.value * (r.value - l.value) / n := by positivity
  have part : k.value * (r.value - l.value) / n ≤ r.value - l.value := by
    rw [div_le_iff₀ pos, mul_comm]
    exact mul_le_mul_of_nonneg_left less gap
  have low := halfUp_nonneg unit_pos share
  have high := halfUp_le unit_pos share (last.grid.sub first.grid) part
  have value : (BigNum.add l (div (times k (minus r l)) (ofInt n)) : Big).value =
      l.value + halfUp (10 ^ DP) (k.value * (r.value - l.value) / n) := rfl
  refine ⟨?_, ?_, ?_⟩ <;> rw [value]
  · exact add_nonneg first.nonneg low
  · have one := last.le_one
    linarith
  · exact first.grid.add (halfUp_onGrid _ _)

namespace Numeric

variable {s : Pps String} {index numClients : Int}

theorem bounds (numeric : Numeric s) {t : String} (member : t ∈ s.ppsTags) : "0" ≤ t ∧ t ≤ "1" := by
  obtain ⟨x, rfl, within, plain⟩ := numeric.tags t member
  rw [← Big.toString_zero (x := .ofInt 0) rfl, ← Big.toString_one (x := .ofInt 1) rfl]
  exact ⟨toString_le plain_zero plain within.nonneg, toString_le plain plain_one within.le_one⟩

theorem number_mono (numeric : Numeric s) {t u : String} (left : t ∈ s.ppsTags) (right : u ∈ s.ppsTags)
    (le : t ≤ u) : number t ≤ number u := by
  obtain ⟨x, rfl, -, plain⟩ := numeric.tags t left
  obtain ⟨y, rfl, -, plain'⟩ := numeric.tags u right
  rw [number_toString, number_toString]
  exact number_le plain plain' le

theorem ordered (numeric : Numeric s) : Ordered s := by
  have same : sort s.ppsTags = s.ppsTags := SortedList.insertionSort_of_sorted numeric.sorted
  constructor <;> rw [same]
  · exact SortedList.head_of_least numeric.sorted numeric.zero fun t member => (numeric.bounds member).1
  · exact SortedList.getLast_of_greatest numeric.sorted numeric.one fun t member => (numeric.bounds member).2
  · exact numeric.sorted.imp_of_mem fun left right le => numeric.number_mono left right le

/-- The number of a tag of the list. -/
theorem within (numeric : Numeric s) {t : String} (member : t ∈ s.ppsTags) : Within (big t : Big) := by
  obtain ⟨x, rfl, within, -⟩ := numeric.tags t member
  rw [big_toString]
  exact within

/-- The bounds that a call computes. -/
theorem halves_within (numeric : Numeric s) (nonneg : 0 ≤ index) (less : index < numClients) {pos : Nat}
    {b : Big × Big} (halved : s.halves index numClients pos = some b) : Within b.1 ∧ Within b.2 := by
  have positive : 0 < numClients := by omega
  have start : (0 : ℚ) ≤ (ofInt index : Big).value ∧ (ofInt index : Big).value ≤ numClients := by
    change (0 : ℚ) ≤ index ∧ (index : ℚ) ≤ numClients
    exact_mod_cast And.intro nonneg less.le
  have stop : (0 : ℚ) ≤ (BigNum.add (ofInt index) (ofInt 1) : Big).value ∧
      (BigNum.add (ofInt index) (ofInt 1) : Big).value ≤ numClients := by
    change (0 : ℚ) ≤ (index : ℚ) + (1 : ℤ) ∧ (index : ℚ) + (1 : ℤ) ≤ numClients
    exact_mod_cast And.intro (show 0 ≤ index + 1 by omega) (show index + 1 ≤ numClients by omega)
  unfold halves at halved
  generalize s.countTo pos s.ppsTags 0 = counted at halved
  obtain ⟨lowB, found⟩ := counted
  dsimp only at halved
  split at halved
  · split at halved
    · rename_i l r at_l at_r
      have shape := SortedList.split_at_index at_l at_r
      have sorted := numeric.sorted
      rw [shape] at sorted
      have left : l ∈ s.ppsTags := List.mem_of_getElem? at_l
      have right : r ∈ s.ppsTags := List.mem_of_getElem? at_r
      have l_r := SortedList.le_of_neighbours sorted
      unfold Pps.bounds firstAck at halved
      split at halved
      · obtain ⟨a, search, same⟩ := Option.map_eq_some_iff.1 halved
        cases same
        have inA : a ∈ s.ppsTags.take lowB := List.mem_reverse.1 (List.mem_of_find?_eq_some search)
        have member : a ∈ s.ppsTags := List.mem_of_mem_take inA
        have a_r := numeric.number_mono member right ((SortedList.le_left sorted a inA).trans l_r)
        exact ⟨numeric.within left,
          share_within (numeric.within member) (numeric.within right) a_r stop.1 stop.2 positive⟩
      · split at halved
        · obtain ⟨b, search, same⟩ := Option.map_eq_some_iff.1 halved
          cases same
          have inB : b ∈ s.ppsTags.drop (lowB + 1 + 1) := List.mem_of_find?_eq_some search
          have member : b ∈ s.ppsTags := List.mem_of_mem_drop inB
          have above := SortedList.le_right (A := s.ppsTags.take lowB ++ [l]) (by simpa using sorted) b inB
          have l_b := numeric.number_mono left member (l_r.trans above)
          exact ⟨share_within (numeric.within left) (numeric.within member) l_b start.1 start.2 positive,
            numeric.within right⟩
        · have le := numeric.number_mono left right l_r
          split at halved
          · cases halved
            exact ⟨share_within (numeric.within left) (numeric.within right) le start.1 start.2 positive,
              share_within (numeric.within left) (numeric.within right) le stop.1 stop.2 positive⟩
          · cases halved
            exact ⟨numeric.within left, numeric.within right⟩
    · cases halved
  · cases halved

end Numeric

/-! ## The middle of an interval -/

/-- The interval of a call vanishes at 0, or its middle is not below `10 ^ -6`, up to
half a unit of the last place. -/
def Coarse (index numClients : Int) (s : Pps String) (call : Nat × CharCode) : Prop :=
  ∀ b ∈ s.halves index numClients call.1,
    b.1.value + b.2.value = 0 ∨ 2 / 10 ^ 6 ≤ b.1.value + b.2.value + 1 / (10 ^ DP : ℕ)

instance (index numClients : Int) (s : Pps String) (call : Nat × CharCode) :
    Decidable (Coarse index numClients s call) :=
  inferInstanceAs (Decidable (∀ b ∈ s.halves index numClients call.1, _))

/-- Where a part of the interval between two tags begins, the `k`-th of `numClients`. -/
def border (numClients k : Int) (l r : String) : ℚ :=
  number l + halfUp (10 ^ DP) (k * (number r - number l) / numClients)

/-- Twice the middle that a call finds between its neighbours `l` and `r`, by their
flags, the next acknowledged tag, the user count and the position of the user. -/
def doubled (s : Pps String) (index numClients : Int) (lowB : Nat) (l r : String) : Option ℚ :=
  if s.ppsAck l = some false ∧ s.ppsAck r = some true then
    (s.firstAck (s.ppsTags.take lowB).reverse).map fun a => number l + border numClients (index + 1) a r
  else if s.ppsAck l = some true ∧ s.ppsAck r = some false then
    (s.firstAck (s.ppsTags.drop (lowB + 1 + 1))).map fun b => border numClients index l b + number r
  else if s.ppsAck l = some true ∧ s.ppsAck r = some true then
    some (border numClients index l r + border numClients (index + 1) l r)
  else some (number l + number r)

/-- Whether a call is coarse, read off the list, the flags, the count and the position. -/
theorem coarse_iff {s : Pps String} {index numClients : Int} {pos lowB : Nat} {ch : CharCode} {l r : String}
    (counted : s.countTo pos s.ppsTags 0 = (lowB, true)) (at_l : s.ppsTags[lowB]? = some l)
    (at_r : s.ppsTags[lowB + 1]? = some r) :
    Coarse index numClients s (pos, ch) ↔
      ∀ sum ∈ s.doubled index numClients lowB l r, sum = 0 ∨ 2 / 10 ^ 6 ≤ sum + 1 / (10 ^ DP : ℕ) := by
  have borders : ∀ (k : Big) (j : Int) (a b : String), k.value = j →
      (BigNum.add (big a) (div (times k (minus (big b) (big a))) (ofInt numClients)) : Big).value =
        border numClients j a b := fun k j a b is => by
    rw [border, ← is]
    rfl
  have next : (BigNum.add (ofInt index) (ofInt 1) : Big).value = (index + 1 : Int) := by
    change (index : ℚ) + (1 : ℤ) = _
    push_cast
    rfl
  have sums : s.doubled index numClients lowB l r =
      (s.bounds index numClients s.ppsTags lowB l r).map fun b => b.1.value + b.2.value := by
    unfold doubled Pps.bounds
    split
    · rw [Option.map_map]
      exact Option.map_congr fun a _ => by rw [← borders _ _ a r next]; rfl
    · split
      · rw [Option.map_map]
        exact Option.map_congr fun b _ => by rw [← borders (ofInt index) index l b rfl]; rfl
      · split
        · rw [← borders (ofInt index) index l r rfl, ← borders _ _ l r next]
          rfl
        · rfl
  have halved : s.halves index numClients pos = s.bounds index numClients s.ppsTags lowB l r := by
    simp only [halves, counted, at_l, at_r, if_true]
  rw [Coarse, halved, sums]
  simp only [Option.mem_def, Option.map_eq_some_iff, forall_exists_index, and_imp, forall_apply_eq_imp_iff₂]

theorem millionth_grid : OnGrid (10 ^ DP) (1 / 10 ^ 6) := by
  refine ⟨10 ^ (DP - 6), ?_⟩
  have split : (10 : ℚ) ^ DP = 10 ^ (DP - 6) * 10 ^ 6 := by
    rw [← pow_add]
    rfl
  push_cast
  rw [split]
  field_simp

/-- The middle is a number in plain notation exactly for a coarse interval. -/
theorem middle_plain_iff {lo hi x : Big} (low : Within lo) (high : Within hi)
    (middle : x.value = halfUp (10 ^ DP) ((lo.value + hi.value) / 2)) :
    Within x ∧ (x.Plain ↔
      lo.value + hi.value = 0 ∨ 2 / 10 ^ 6 ≤ lo.value + hi.value + 1 / (10 ^ DP : ℕ)) := by
  have sum : 0 ≤ lo.value + hi.value := add_nonneg low.nonneg high.nonneg
  have grid := low.grid.add high.grid
  have half : 0 ≤ (lo.value + hi.value) / 2 := div_nonneg sum zero_le_two
  have within : Within x := by
    refine ⟨?_, ?_, ?_⟩ <;> rw [middle]
    · exact halfUp_nonneg unit_pos half
    · refine halfUp_le unit_pos half (.intCast unit_pos 1) ?_
      have one := low.le_one
      have one' := high.le_one
      linarith
    · exact halfUp_onGrid _ _
  have zero := halfUp_half_eq_zero_iff unit_pos grid sum
  have reach := le_halfUp_half_iff unit_pos grid sum millionth_grid
  rw [← middle] at zero reach
  have double : (2 : ℚ) * (1 / 10 ^ 6) = 2 / 10 ^ 6 := by ring
  rw [double] at reach
  refine ⟨within, fun plain => plain.plain.imp zero.1 reach.1, fun coarse => ?_⟩
  exact ⟨within.nonneg, within.le_one, coarse.imp zero.2 reach.2⟩

/-! ## Runs of calls -/

/-- A tag behind `'1'`. -/
def Spoilt (s : Pps String) : Prop := ∃ t ∈ s.ppsTags, "1" < t

section Runs

variable {s : Pps String} {index numClients : Int} {call : Nat × CharCode}

theorem Spoilt.not_ordered (spoilt : Spoilt s) : ¬ Ordered s := by
  obtain ⟨t, member, behind⟩ := spoilt
  intro ordered
  have sorted := SortedList.sorted_insertionSort s.ppsTags
  obtain ⟨rest, shape⟩ := List.getLast?_eq_some_iff.1 ordered.last
  have listed : t ∈ sort s.ppsTags := (List.mem_insertionSort _).2 member
  rw [show s.ppsTags.insertionSort (· ≤ ·) = sort s.ppsTags from rfl, shape] at sorted
  rw [shape] at listed
  rcases List.mem_append.1 listed with before | last
  · exact absurd ((List.pairwise_append.1 sorted).2.2 t before "1" (by simp)) (not_le.2 behind)
  · exact absurd (List.mem_singleton.1 last) behind.ne'

theorem Spoilt.called (sorted : s.ppsTags.Pairwise (· ≤ ·)) (spoilt : Spoilt s) (call : Nat × CharCode) :
    (s.called index numClients call).ppsTags.Pairwise (· ≤ ·) ∧ Spoilt (s.called index numClients call) := by
  obtain ⟨t, member, behind⟩ := spoilt
  obtain ⟨pos, ch⟩ := call
  rw [called_eq sorted]
  split
  · exact ⟨sorted_push .., t, mem_push.2 (Or.inl member), behind⟩
  · exact ⟨sorted, t, member, behind⟩

theorem Spoilt.calledAll (sorted : s.ppsTags.Pairwise (· ≤ ·)) (spoilt : Spoilt s)
    (calls : List (Nat × CharCode)) : Spoilt (s.calledAll index numClients calls) := by
  induction calls generalizing s with
  | nil => exact spoilt
  | cons call rest ih =>
      obtain ⟨sorted', spoilt'⟩ := Spoilt.called sorted spoilt call
      exact ih sorted' spoilt'

/-- One call: a coarse one keeps the list numeric, any other spoils it. -/
theorem Numeric.called (numeric : Numeric s) (nonneg : 0 ≤ index) (less : index < numClients)
    (call : Nat × CharCode) :
    (Coarse index numClients s call → Numeric (s.called index numClients call)) ∧
      (¬ Coarse index numClients s call → Spoilt (s.called index numClients call)) := by
  obtain ⟨pos, ch⟩ := call
  rw [called_eq numeric.sorted]
  cases halved : s.halves index numClients pos with
  | none =>
      refine ⟨fun _ => numeric, fun fine => absurd ?_ fine⟩
      intro b member
      rw [halved] at member
      cases member
  | some b =>
      obtain ⟨low, high⟩ := numeric.halves_within nonneg less halved
      obtain ⟨x, is, middle⟩ : ∃ x : Big, (halfway b.1 b.2 : String) = x.toString ∧
          x.value = halfUp (10 ^ DP) ((b.1.value + b.2.value) / 2) := by
        refine ⟨div (BigNum.add b.1 b.2) (ofInt 2), ?_, rfl⟩
        change Big.toString (div (BigNum.add (big b.1.toString) (big b.2.toString)) (ofInt 2)) = _
        rw [big_toString, big_toString]
      obtain ⟨within, plain⟩ := middle_plain_iff low high middle
      have coarse : Coarse index numClients s (pos, ch) ↔ x.Plain := by
        rw [plain, Coarse, halved]
        exact ⟨fun all => all b rfl, fun here b' member => by cases member; exact here⟩
      rw [coarse]
      dsimp only
      rw [is]
      constructor
      · intro plain
        refine ⟨sorted_push .., mem_push.2 (Or.inl numeric.zero), mem_push.2 (Or.inl numeric.one), ?_⟩
        intro t member
        rcases mem_push.1 member with before | rfl
        · exact numeric.tags t before
        · exact ⟨x, rfl, within, plain⟩
      · intro tiny
        have positive : x.value ≠ 0 := fun zero => tiny ⟨within.nonneg, within.le_one, Or.inl zero⟩
        have below : ¬ 1 / 10 ^ 6 ≤ x.value := fun le => tiny ⟨within.nonneg, within.le_one, Or.inr le⟩
        exact ⟨x.toString, mem_push.2 (Or.inr rfl),
          Big.one_lt_exponential (lt_of_le_of_ne within.nonneg positive.symm) (not_le.1 below)⟩

theorem Numeric.strings_ordered (numeric : Numeric s) (nonneg : 0 ≤ index) (less : index < numClients)
    (calls : List (Nat × CharCode)) :
    Ordered (s.calledAll index numClients calls) ↔
      EachCall (Coarse index numClients) index numClients s calls := by
  induction calls generalizing s with
  | nil => exact ⟨fun _ => trivial, fun _ => numeric.ordered⟩
  | cons call rest ih =>
      obtain ⟨kept, spoilt⟩ := numeric.called nonneg less call
      by_cases coarse : Coarse index numClients s call
      · exact (ih (kept coarse)).trans (and_iff_right coarse).symm
      · have sorted : (s.called index numClients call).ppsTags.Pairwise (· ≤ ·) := by
          rw [called_eq numeric.sorted]
          split
          · exact sorted_push ..
          · exact numeric.sorted
        refine iff_of_false ?_ fun each => coarse each.1
        exact ((spoilt coarse).calledAll sorted rest).not_ordered

end Runs

/-- **Exactly when the string order of the tags is their numeric order.** -/
theorem ordered_iff {index numClients : Int} (nonneg : 0 ≤ index) (less : index < numClients)
    (calls : List (Nat × CharCode)) :
    Ordered (fresh.calledAll index numClients calls) ↔
      EachCall (Coarse index numClients) index numClients fresh calls :=
  numeric_fresh.strings_ordered nonneg less calls

/-- The second client of two types three characters, one of them at the start. -/
theorem ordered_iff_three : Ordered (fresh.calledAll 1 2 [(0, 97), (1, 98), (0, 99)]) :=
  (ordered_iff (by decide) (by decide) _).2 (by decide +kernel)

/-! ## Pole -/

/-- The twentieth character at the start gets a tag behind `'1'`. -/
theorem sorted_behind :
    (fresh.calledAll 0 1 (List.replicate 20 (0, 97)) : Pps String).ppsTags.getLast? =
        some "9.5367431640625e-7" ∧
      ¬ Ordered (fresh.calledAll 0 1 (List.replicate 20 (0, 97))) := by
  have last : (fresh.calledAll 0 1 (List.replicate 20 (0, 97)) : Pps String).ppsTags.getLast? =
      some "9.5367431640625e-7" := by decide +kernel
  exact ⟨last, Spoilt.not_ordered ⟨_, List.mem_of_getLast? last, by decide⟩⟩

end ColabEdit.Browser.Pps
