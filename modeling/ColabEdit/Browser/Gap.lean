/-
# ColabEdit.Browser.Gap -- the gap an insertion divides

`PPS.insert` looks at the two list neighbours of a position and at the nearest
acknowledged tags around it.  `Place` names all four.  In exact arithmetic the
new tag is the middle of two bounds: an acknowledged neighbour is replaced by
the border of the client's own part of the acknowledged gap, an unacknowledged
one bounds the tag itself (`insert_at`).  The new tag always lies strictly
between `0` and `1` (`middle_between`).
-/
import ColabEdit.Browser.Document
import ColabEdit.Theory.Parts
import Mathlib.Tactic.NormNum

namespace ColabEdit.Browser.Pps

open BigNum BigTag
open ColabEdit.Theory

set_option autoImplicit false

section Order

variable {Tag Num : Type} [LinearOrder Tag] [BigTag Tag Num]

theorem Framed.mem_bounds {s : Pps Tag} (framed : Framed s) {t : Tag} (member : t ∈ s.ppsTags) :
    tag0 ≤ t ∧ t ≤ tag1 := by
  rcases framed.between member with rfl | rfl | between
  · exact ⟨le_rfl, tag0_lt_tag1.le⟩
  · exact ⟨tag0_lt_tag1.le, le_rfl⟩
  · exact ⟨between.1.le, between.2.le⟩

/-- A left neighbour is not `'1'`, and a right neighbour not `'0'`. -/
theorem Framed.neighbours {s : Pps Tag} (framed : Framed s) {A B : List Tag} {l r : Tag}
    (shape : s.ppsTags = A ++ l :: r :: B) : l < tag1 ∧ tag0 < r := by
  obtain ⟨mid, ends, inside⟩ := framed.ends
  constructor
  · have member : l ∈ s.ppsTags.dropLast := by
      rw [shape, List.dropLast_append_of_ne_nil (by simp)]
      simp
    rw [ends, ← List.cons_append, List.dropLast_concat] at member
    rcases List.mem_cons.1 member with rfl | member
    · exact tag0_lt_tag1
    · exact (inside l member).2
  · have member : r ∈ s.ppsTags.tail := by
      rw [shape]
      cases A <;> simp
    rw [ends, List.tail_cons] at member
    rcases List.mem_append.1 member with member | member
    · exact (inside r member).1
    · rw [List.mem_singleton.1 member]
      exact tag0_lt_tag1

/-- Every tag of the list has a flag, and the two ends are acknowledged. -/
structure Flagged (s : Pps Tag) : Prop where
  flag : ∀ t ∈ s.ppsTags, ∃ b, s.ppsAck t = some b
  zero : s.ppsAck tag0 = some true
  one : s.ppsAck tag1 = some true

/-- Where a position lies: `l` and `r` are the neighbours at list indices `pos`
and `pos + 1`, and `a` and `b` the nearest acknowledged tags around it. -/
structure Place (s : Pps Tag) (pos : Nat) (A B : List Tag) (l r a b : Tag) : Prop where
  shape : s.ppsTags = A ++ l :: r :: B
  index : A.length = pos
  left : s.firstAck (l :: A.reverse) = some a
  right : s.firstAck (r :: B) = some b

/-- The neighbours of a position and the nearest acknowledged tags around it. -/
structure Gap (Tag : Type) where
  left : Tag
  right : Tag
  start : Tag
  stop : Tag

def gapAt (s : Pps Tag) (pos : Nat) : Option (Gap Tag) :=
  match s.ppsTags[pos]?, s.ppsTags[pos + 1]?, s.firstAck (s.ppsTags.take (pos + 1)).reverse,
    s.firstAck (s.ppsTags.drop (pos + 1)) with
  | some left, some right, some start, some stop => some ⟨left, right, start, stop⟩
  | _, _, _, _ => none

section Lists

variable {s : Pps Tag} {pos : Nat} {A B : List Tag} {l r a b : Tag}

omit [LinearOrder Tag]

theorem Place.at_left (place : Place s pos A B l r a b) : s.ppsTags[pos]? = some l := by
  simp [place.shape, ← place.index]

theorem Place.at_right (place : Place s pos A B l r a b) : s.ppsTags[pos + 1]? = some r := by
  simp [place.shape, ← place.index]

theorem Place.taken (place : Place s pos A B l r a b) : s.ppsTags.take pos = A := by
  rw [place.shape, List.take_left' place.index]

theorem Place.dropped (place : Place s pos A B l r a b) : s.ppsTags.drop (pos + 1 + 1) = B := by
  have grouped : s.ppsTags = A ++ [l, r] ++ B := by simp [place.shape]
  rw [grouped, List.drop_left' (by simp [place.index])]

theorem Place.gapAt (place : Place s pos A B l r a b) : s.gapAt pos = some ⟨l, r, a, b⟩ := by
  have grouped : s.ppsTags = (A ++ [l]) ++ (r :: B) := by simp [place.shape]
  have length : (A ++ [l]).length = pos + 1 := by simp [place.index]
  have taken : (s.ppsTags.take (pos + 1)).reverse = l :: A.reverse := by
    rw [grouped, List.take_left' length]
    simp
  have dropped : s.ppsTags.drop (pos + 1) = r :: B := by
    rw [grouped, List.drop_left' length]
  simp only [Pps.gapAt, place.at_left, place.at_right, taken, dropped, place.left, place.right]

end Lists

omit [LinearOrder Tag] in
theorem exists_firstAck {s : Pps Tag} {tags : List Tag} {t : Tag} (member : t ∈ tags)
    (acked : s.ppsAck t = some true) : ∃ a, s.firstAck tags = some a :=
  Option.isSome_iff_exists.1 (List.find?_isSome.2 ⟨t, member, by simpa using acked⟩)

/-- Framed, flagged lists have a place for every valid position. -/
theorem exists_place {s : Pps Tag} (framed : Framed s) (flagged : Flagged s) {pos : Nat}
    (valid : pos ≤ s.visible.length) : ∃ A B l r a b, Place s pos A B l r a b := by
  obtain ⟨A, l, r, B, shape, index⟩ := framed.split valid
  obtain ⟨mid, ends, -⟩ := framed.ends
  have zero : tag0 ∈ l :: A.reverse := by
    rw [shape] at ends
    cases A with
    | nil => simp [(List.cons.inj ends).1]
    | cons x rest => simp [(List.cons.inj ends).1]
  have one : tag1 ∈ r :: B := by
    have last : (r :: B).getLast (by simp) = tag1 := by
      have := congrArg List.getLast? (shape.symm.trans ends)
      simpa [List.getLast?_append, List.getLast?_cons, List.getLast_eq_getLastD] using this
    exact last ▸ List.getLast_mem _
  obtain ⟨a, left⟩ := exists_firstAck zero flagged.zero
  obtain ⟨b, right⟩ := exists_firstAck one flagged.one
  exact ⟨A, B, l, r, a, b, shape, index, left, right⟩

namespace Place

variable {s : Pps Tag} {pos : Nat} {A B : List Tag} {l r a b : Tag}

omit [LinearOrder Tag] in
theorem acked_a (place : Place s pos A B l r a b) : s.ppsAck a = some true := by
  simpa using List.find?_some place.left

omit [LinearOrder Tag] in
theorem acked_b (place : Place s pos A B l r a b) : s.ppsAck b = some true := by
  simpa using List.find?_some place.right

omit [LinearOrder Tag] in
theorem a_eq (place : Place s pos A B l r a b) (acked : s.ppsAck l = some true) : a = l := by
  have := place.left
  rw [firstAck, List.find?_cons_of_pos (by simpa using acked)] at this
  exact (Option.some.inj this).symm

omit [LinearOrder Tag] in
theorem b_eq (place : Place s pos A B l r a b) (acked : s.ppsAck r = some true) : b = r := by
  have := place.right
  rw [firstAck, List.find?_cons_of_pos (by simpa using acked)] at this
  exact (Option.some.inj this).symm

omit [LinearOrder Tag] in
theorem left_mem (place : Place s pos A B l r a b) : l ∈ s.ppsTags := by simp [place.shape]

omit [LinearOrder Tag] in
theorem right_mem (place : Place s pos A B l r a b) : r ∈ s.ppsTags := by simp [place.shape]

omit [LinearOrder Tag] in
theorem a_mem (place : Place s pos A B l r a b) : a ∈ s.ppsTags := by
  have := List.mem_of_find?_eq_some place.left
  rw [place.shape]
  simp only [List.mem_cons, List.mem_reverse] at this
  rcases this with rfl | member <;> simp [*]

omit [LinearOrder Tag] in
theorem b_mem (place : Place s pos A B l r a b) : b ∈ s.ppsTags := by
  have := List.mem_of_find?_eq_some place.right
  rw [place.shape]
  simp only [List.mem_cons] at this
  rcases this with rfl | member <;> simp [*]

theorem le_a (place : Place s pos A B l r a b) (framed : Framed s) : a ≤ l := by
  have sorted := framed.sorted
  rw [place.shape] at sorted
  have := List.mem_of_find?_eq_some place.left
  simp only [List.mem_cons, List.mem_reverse] at this
  rcases this with rfl | member
  · exact le_rfl
  · exact SortedList.le_left sorted a member

theorem le_neighbours (place : Place s pos A B l r a b) (framed : Framed s) : l ≤ r := by
  have sorted := framed.sorted
  rw [place.shape] at sorted
  exact SortedList.le_of_neighbours sorted

theorem le_b (place : Place s pos A B l r a b) (framed : Framed s) : r ≤ b := by
  have sorted := framed.sorted
  rw [place.shape] at sorted
  have := List.mem_of_find?_eq_some place.right
  rcases List.mem_cons.1 this with rfl | member
  · exact le_rfl
  · refine SortedList.le_right (A := A ++ [l]) ?_ b member
    simpa using sorted

theorem gap_le (place : Place s pos A B l r a b) (framed : Framed s) : a ≤ b :=
  ((place.le_a framed).trans (place.le_neighbours framed)).trans (place.le_b framed)

/-- No acknowledged tag lies inside the gap. -/
theorem acked_outside (place : Place s pos A B l r a b) (framed : Framed s) {t : Tag}
    (member : t ∈ s.ppsTags) (acked : s.ppsAck t = some true) : t ≤ a ∨ b ≤ t := by
  have sorted := framed.sorted
  rw [place.shape] at member sorted
  have two : t ∈ l :: A.reverse ∨ t ∈ r :: B := by
    simp only [List.mem_append, List.mem_cons, List.mem_reverse] at member ⊢
    tauto
  obtain ⟨-, X, Y, nearer, unacked⟩ := List.find?_eq_some_iff_append.1 place.left
  obtain ⟨-, X', Y', nearer', unacked'⟩ := List.find?_eq_some_iff_append.1 place.right
  rcases two with inLeft | inRight
  · left
    have shape : A ++ l :: r :: B = Y.reverse ++ a :: (X.reverse ++ r :: B) := by
      have := congrArg List.reverse nearer
      simp only [List.reverse_cons, List.reverse_reverse, List.reverse_append] at this
      calc
        A ++ l :: r :: B = (A ++ [l]) ++ r :: B := by simp
        _ = (Y.reverse ++ [a] ++ X.reverse) ++ r :: B := by rw [this]
        _ = Y.reverse ++ a :: (X.reverse ++ r :: B) := by simp
    rw [nearer] at inLeft
    simp only [List.mem_append, List.mem_cons] at inLeft
    rcases inLeft with inX | rfl | inY
    · simpa [acked] using unacked t inX
    · exact le_rfl
    · rw [shape] at sorted
      exact SortedList.le_left sorted t (by simpa using inY)
  · right
    have shape : A ++ l :: r :: B = (A ++ l :: X') ++ b :: Y' := by
      rw [nearer']
      simp
    rw [nearer'] at inRight
    simp only [List.mem_append, List.mem_cons] at inRight
    rcases inRight with inX | rfl | inY
    · simpa [acked] using unacked' t inX
    · exact le_rfl
    · rw [shape] at sorted
      exact SortedList.le_right sorted t inY

theorem zero_le_a (place : Place s pos A B l r a b) (framed : Framed s) : tag0 ≤ a :=
  (framed.mem_bounds place.a_mem).1

theorem b_le_one (place : Place s pos A B l r a b) (framed : Framed s) : b ≤ tag1 :=
  (framed.mem_bounds place.b_mem).2

end Place

end Order

/-! ## Exact arithmetic -/

section Exact

variable {s : Pps ℚ} {pos : Nat} {A B : List ℚ} {l r a b : ℚ}

/-- `ltag` as a number. -/
def lower (s : Pps ℚ) (index numClients : Int) (a b l : ℚ) : ℚ :=
  if s.ppsAck l = some true then cut a b numClients index else l

/-- `rtag` as a number. -/
def upper (s : Pps ℚ) (index numClients : Int) (a b r : ℚ) : ℚ :=
  if s.ppsAck r = some true then cut a b numClients (index + 1) else r

/-- The tag that `insert` makes. -/
def middle (s : Pps ℚ) (index numClients : Int) (l r a b : ℚ) : ℚ :=
  (s.lower index numClients a b l + s.upper index numClients a b r) / 2

theorem bounds_at (flagged : Flagged s) (place : Place s pos A B l r a b)
    (index numClients : Int) :
    s.bounds index numClients s.ppsTags pos l r =
      some (s.lower index numClients a b l, s.upper index numClients a b r) := by
  obtain ⟨fl, flag_l⟩ := flagged.flag l place.left_mem
  obtain ⟨fr, flag_r⟩ := flagged.flag r place.right_mem
  have left := place.left
  have right := place.right
  unfold firstAck at left right
  unfold bounds lower upper cut firstAck
  rw [place.taken, place.dropped]
  cases fl <;> cases fr <;>
    simp_all [BigNum.add, BigNum.ofInt, BigNum.minus, BigNum.times, BigNum.div, BigTag.big]

/-- **What `insert` does in exact arithmetic.** -/
theorem insert_at (framed : Framed s) (flagged : Flagged s) (valid : pos ≤ s.visible.length)
    (place : Place s pos A B l r a b) (index numClients : Int) (ch : CharCode) :
    s.insert index numClients pos ch =
      some (s.push (s.middle index numClients l r a b) ch false,
        some (s.middle index numClients l r a b)) := by
  rw [framed.insert_eq valid place.shape place.index, bounds_at flagged place]
  rfl

/-- The start of a part, below the last part's end. -/
theorem cut_low {a b : ℚ} {n k : ℤ} (zero : 0 ≤ a) (ordered : a ≤ b) (one : b ≤ 1) (below : a < 1)
    (nonneg : 0 ≤ k) (less : k < n) : 0 ≤ cut a b n k ∧ cut a b n k < 1 := by
  have positive : 0 < n := by omega
  refine ⟨zero.trans (le_cut ordered positive nonneg), ?_⟩
  rcases ordered.eq_or_lt with rfl | lt
  · simpa [cut] using below
  · calc
      cut a b n k < cut a b n n := cut_lt_cut lt positive less
      _ = b := cut_self a b positive
      _ ≤ 1 := one

/-- The end of a part, above the first part's start. -/
theorem cut_high {a b : ℚ} {n k : ℤ} (zero : 0 ≤ a) (ordered : a ≤ b) (one : b ≤ 1) (above : 0 < b)
    (nonneg : 0 ≤ k) (less : k < n) : 0 < cut a b n (k + 1) ∧ cut a b n (k + 1) ≤ 1 := by
  have positive : 0 < n := by omega
  refine ⟨?_, (cut_le ordered positive (by omega)).trans one⟩
  rcases ordered.eq_or_lt with rfl | lt
  · simpa [cut] using above
  · calc
      0 ≤ a := zero
      _ = cut a b n 0 := (cut_zero a b n).symm
      _ < cut a b n (k + 1) := cut_lt_cut lt positive (by omega)

theorem between_middle {lo hi : ℚ} (low : 0 ≤ lo ∧ lo < 1) (high : 0 < hi ∧ hi ≤ 1) :
    Between ((lo + hi) / 2) := by
  constructor
  · change (0 : ℚ) < (lo + hi) / 2
    linarith
  · change (lo + hi) / 2 < (1 : ℚ)
    linarith

/-- The new tag lies strictly between `0` and `1`. -/
theorem middle_between (framed : Framed s) (place : Place s pos A B l r a b) {index numClients : Int}
    (nonneg : 0 ≤ index) (less : index < numClients) :
    Between (s.middle index numClients l r a b) := by
  have gap := place.gap_le framed
  have zero_a : (0 : ℚ) ≤ a := place.zero_le_a framed
  have b_one : b ≤ (1 : ℚ) := place.b_le_one framed
  obtain ⟨l_one, zero_r⟩ : l < (1 : ℚ) ∧ (0 : ℚ) < r := framed.neighbours place.shape
  have a_l := place.le_a framed
  have r_b := place.le_b framed
  refine between_middle ?_ ?_
  · unfold lower
    split
    · exact cut_low zero_a gap b_one (a_l.trans_lt l_one) nonneg less
    · exact ⟨zero_a.trans a_l, l_one⟩
  · unfold upper
    split
    · exact cut_high zero_a gap b_one (zero_r.trans_le r_b) nonneg less
    · exact ⟨zero_r, r_b.trans b_one⟩

/-- **Every tag `insert` returns lies strictly between `0` and `1`**, whatever the
acknowledgement flags are. -/
theorem insert_between {s' : Pps ℚ} (framed : Framed s) {index numClients : Int} (nonneg : 0 ≤ index)
    (less : index < numClients) {ch : CharCode} {t : ℚ}
    (inserted : s.insert index numClients pos ch = some (s', some t)) : Between t := by
  obtain ⟨A, l, r, B, shape, index_pos⟩ := framed.split (framed.insert_valid inserted)
  rw [framed.insert_eq (framed.insert_valid inserted) shape index_pos] at inserted
  obtain ⟨⟨lo, hi⟩, halves, same⟩ := Option.map_eq_some_iff.1 inserted
  cases same
  obtain ⟨l_one, zero_r⟩ : l < (1 : ℚ) ∧ (0 : ℚ) < r := framed.neighbours shape
  have zero_l : (0 : ℚ) ≤ l := (framed.mem_bounds (by simp [shape])).1
  have r_one : r ≤ (1 : ℚ) := (framed.mem_bounds (by simp [shape])).2
  have sorted := framed.sorted
  rw [shape] at sorted
  have l_r := SortedList.le_of_neighbours sorted
  have taken : s.ppsTags.take pos = A := by rw [shape, List.take_left' index_pos]
  have dropped : s.ppsTags.drop (pos + 1 + 1) = B := by
    have grouped : s.ppsTags = A ++ [l, r] ++ B := by simp [shape]
    rw [grouped, List.drop_left' (by simp [index_pos])]
  -- the source adds one to the `Big` number
  have succ : ∀ u, cut u r numClients (index + 1) = u + ((index : ℚ) + 1) * (r - u) / numClients :=
    fun u => by simp [cut]
  unfold bounds firstAck at halves
  rw [taken, dropped] at halves
  split at halves
  · obtain ⟨a, search, same⟩ := Option.map_eq_some_iff.1 halves
    cases same
    have inA : a ∈ A := List.mem_reverse.1 (List.mem_of_find?_eq_some search)
    have zero_a : (0 : ℚ) ≤ a := (framed.mem_bounds (by simp [shape, inA])).1
    have a_r : a ≤ r := (SortedList.le_left sorted a inA).trans l_r
    have high := cut_high zero_a a_r r_one zero_r nonneg less
    rw [succ a] at high
    exact between_middle ⟨zero_l, l_one⟩ high
  · split at halves
    · obtain ⟨b, search, same⟩ := Option.map_eq_some_iff.1 halves
      cases same
      have inB : b ∈ B := List.mem_of_find?_eq_some search
      have b_one : b ≤ (1 : ℚ) := (framed.mem_bounds (by simp [shape, inB])).2
      have l_b : l ≤ b := l_r.trans (SortedList.le_right (A := A ++ [l]) (by simpa using sorted) b inB)
      exact between_middle (cut_low zero_l l_b b_one l_one nonneg less) ⟨zero_r, r_one⟩
    · split at halves
      · cases halves
        have high := cut_high zero_l l_r r_one zero_r nonneg less
        rw [succ l] at high
        exact between_middle (cut_low zero_l l_r r_one l_one nonneg less) high
      · cases halves
        exact between_middle ⟨zero_l, l_one⟩ ⟨zero_r, r_one⟩

end Exact

end ColabEdit.Browser.Pps
