/-
# ColabEdit.Theory.SortedList -- a sorted list that elements are pushed into

General facts about a list over a linear order that is kept sorted by
`insertionSort`: where a pushed element ends up (`insertionSort_push`), that a
sorted list is determined by its elements, that nothing lies strictly between
two neighbours (`not_between`), and what a slice from the first occurrence of
one element to the first occurrence of another contains (`slice_eq`, and
`closed_slice_eq` with the other one).
-/
import Mathlib.Data.List.Sort

namespace ColabEdit.Theory.SortedList

set_option autoImplicit false

variable {α : Type*} [LinearOrder α]

theorem sorted_insertionSort (l : List α) : (l.insertionSort (· ≤ ·)).Pairwise (· ≤ ·) :=
  List.pairwise_insertionSort (· ≤ ·) l

theorem insertionSort_of_sorted {l : List α} (sorted : l.Pairwise (· ≤ ·)) :
    l.insertionSort (· ≤ ·) = l :=
  sorted.insertionSort_eq

theorem eq_of_perm {l l' : List α} (sorted : l.Pairwise (· ≤ ·)) (sorted' : l'.Pairwise (· ≤ ·))
    (perm : l.Perm l') : l = l' :=
  perm.eq_of_pairwise (fun _ _ _ _ => le_antisymm) sorted sorted'

theorem insertionSort_congr {l l' : List α} (perm : l.Perm l') :
    l.insertionSort (· ≤ ·) = l'.insertionSort (· ≤ ·) :=
  eq_of_perm (sorted_insertionSort l) (sorted_insertionSort l')
    ((List.perm_insertionSort _ l).trans (perm.trans (List.perm_insertionSort _ l').symm))

theorem insertionSort_eq_of_perm {l l' : List α} (sorted : l'.Pairwise (· ≤ ·))
    (perm : l.Perm l') : l.insertionSort (· ≤ ·) = l' := by
  rw [insertionSort_congr perm, insertionSort_of_sorted sorted]

/-- A pushed element goes between the part below it and the part above it. -/
theorem insertionSort_push {A B : List α} {x : α} (sorted : (A ++ B).Pairwise (· ≤ ·))
    (below : ∀ a ∈ A, a ≤ x) (above : ∀ b ∈ B, x ≤ b) :
    (A ++ B ++ [x]).insertionSort (· ≤ ·) = A ++ x :: B := by
  apply insertionSort_eq_of_perm
  · rw [List.pairwise_append] at sorted ⊢
    obtain ⟨left, right, cross⟩ := sorted
    refine ⟨left, List.pairwise_cons.2 ⟨above, right⟩, fun a ha b hb => ?_⟩
    rcases List.mem_cons.1 hb with rfl | hb
    · exact below a ha
    · exact cross a ha b hb
  · exact (List.perm_append_singleton x (A ++ B)).trans List.perm_middle.symm

/-- Every element splits a sorted list into what is strictly below it and the rest. -/
theorem split_at {l : List α} (sorted : l.Pairwise (· ≤ ·)) (x : α) :
    ∃ A B, l = A ++ B ∧ (∀ a ∈ A, a < x) ∧ ∀ b ∈ B, x ≤ b := by
  induction l with
  | nil => exact ⟨[], [], rfl, by simp, by simp⟩
  | cons y rest ih =>
      obtain ⟨first, rest_sorted⟩ := List.pairwise_cons.1 sorted
      by_cases lt : y < x
      · obtain ⟨A, B, rfl, below, above⟩ := ih rest_sorted
        refine ⟨y :: A, B, rfl, fun a ha => ?_, above⟩
        rcases List.mem_cons.1 ha with rfl | ha
        · exact lt
        · exact below a ha
      · refine ⟨[], y :: rest, rfl, by simp, fun b hb => ?_⟩
        rcases List.mem_cons.1 hb with rfl | hb
        · exact not_lt.1 lt
        · exact (not_lt.1 lt).trans (first b hb)

/-- No element of a sorted list lies strictly between two neighbours. -/
theorem not_between {A B : List α} {x y : α} (sorted : (A ++ x :: y :: B).Pairwise (· ≤ ·)) {z : α}
    (member : z ∈ A ++ x :: y :: B) : z ≤ x ∨ y ≤ z := by
  obtain ⟨-, right, cross⟩ := List.pairwise_append.1 sorted
  rcases List.mem_append.1 member with inA | inRest
  · exact Or.inl (cross z inA x (by simp))
  · rcases List.mem_cons.1 inRest with rfl | inRest
    · exact Or.inl le_rfl
    · rcases List.mem_cons.1 inRest with rfl | inB
      · exact Or.inr le_rfl
      · exact Or.inr ((List.pairwise_cons.1 (List.pairwise_cons.1 right).2).1 z inB)

theorem le_of_neighbours {A B : List α} {x y : α} (sorted : (A ++ x :: y :: B).Pairwise (· ≤ ·)) :
    x ≤ y :=
  (List.pairwise_cons.1 (List.pairwise_append.1 sorted).2.1).1 y (by simp)

theorem le_left {A B : List α} {x : α} (sorted : (A ++ x :: B).Pairwise (· ≤ ·)) :
    ∀ a ∈ A, a ≤ x :=
  fun a ha => (List.pairwise_append.1 sorted).2.2 a ha x (by simp)

theorem le_right {A B : List α} {x : α} (sorted : (A ++ x :: B).Pairwise (· ≤ ·)) :
    ∀ b ∈ B, x ≤ b :=
  (List.pairwise_cons.1 (List.pairwise_append.1 sorted).2.1).1

/-- A sorted list with nothing below `x` starts with the copies of `x`. -/
theorem copies_first {l : List α} (sorted : l.Pairwise (· ≤ ·)) {x : α} (above : ∀ b ∈ l, x ≤ b) :
    ∃ B, l = List.replicate (l.count x) x ++ B ∧ ∀ b ∈ B, x < b := by
  induction l with
  | nil => exact ⟨[], rfl, by simp⟩
  | cons y rest ih =>
      obtain ⟨least, rest_sorted⟩ := List.pairwise_cons.1 sorted
      rcases (above y (by simp)).eq_or_lt with rfl | lt
      · obtain ⟨B, shape, strict⟩ := ih rest_sorted fun b hb => above b (by simp [hb])
        refine ⟨B, ?_, strict⟩
        rw [List.count_cons_self, List.replicate_succ, List.cons_append, ← shape]
      · have strict : ∀ b ∈ y :: rest, x < b := fun b hb => by
          rcases List.mem_cons.1 hb with rfl | hb
          · exact lt
          · exact lt.trans_le (least b hb)
        have none : (y :: rest).count x = 0 :=
          List.count_eq_zero.2 fun member => lt_irrefl x (strict x member)
        exact ⟨y :: rest, by rw [none]; rfl, strict⟩

/-- A sorted list is what is below `x`, the copies of `x`, and what is above it. -/
theorem split_copies {l : List α} (sorted : l.Pairwise (· ≤ ·)) (x : α) :
    ∃ A B, l = A ++ (List.replicate (l.count x) x ++ B) ∧ (∀ a ∈ A, a < x) ∧ ∀ b ∈ B, x < b := by
  obtain ⟨A, rest, shape, below, above⟩ := split_at sorted x
  rw [shape] at sorted
  obtain ⟨B, copies, strict⟩ := copies_first (List.pairwise_append.1 sorted).2.1 above
  have absent : A.count x = 0 :=
    List.count_eq_zero.2 fun member => lt_irrefl x (below x member)
  refine ⟨A, B, ?_, below, strict⟩
  rw [shape, List.count_append, absent, Nat.zero_add, ← copies]

/-- The same, with the two parts read off the list. -/
theorem eq_filter_copies {l : List α} (sorted : l.Pairwise (· ≤ ·)) (x : α) :
    l = (l.filter fun t => t < x) ++ (List.replicate (l.count x) x ++ l.filter fun t => x < t) := by
  obtain ⟨A, B, shape, below, above⟩ := split_copies sorted x
  have front : (l.filter fun t => decide (t < x)) = A := by
    rw [shape, List.filter_append, List.filter_append, List.filter_eq_self.2 fun t inside => by simpa using below t inside,
      List.filter_eq_nil_iff.2 fun t copy => by simp [List.eq_of_mem_replicate copy],
      List.filter_eq_nil_iff.2 fun t inside => by simpa using (above t inside).le, List.append_nil, List.append_nil]
  have back : (l.filter fun t => decide (x < t)) = B := by
    rw [shape, List.filter_append, List.filter_append,
      List.filter_eq_nil_iff.2 fun t inside => by simpa using (below t inside).le,
      List.filter_eq_nil_iff.2 fun t copy => by simp [List.eq_of_mem_replicate copy],
      List.filter_eq_self.2 fun t inside => by simpa using above t inside, List.nil_append, List.nil_append]
  rw [front, back]
  exact shape

/-- A pushed element shows only where it is asked for. -/
theorem filter_push {l : List α} (sorted : l.Pairwise (· ≤ ·)) {x : α} {p : α → Bool} (out : p x = false) :
    ((l ++ [x]).insertionSort (· ≤ ·)).filter p = l.filter p := by
  refine eq_of_perm ((sorted_insertionSort _).filter _) (sorted.filter _) ?_
  refine ((List.perm_insertionSort _ _).filter p).trans (List.Perm.of_eq ?_)
  simp [out]

theorem head_of_least {l : List α} (sorted : l.Pairwise (· ≤ ·)) {x : α} (member : x ∈ l)
    (least : ∀ t ∈ l, x ≤ t) : l.head? = some x := by
  cases l with
  | nil => cases member
  | cons y rest =>
      rcases List.mem_cons.1 member with rfl | later
      · rfl
      · have le := (List.pairwise_cons.1 sorted).1 x later
        rw [List.head?_cons, le_antisymm le (least y (by simp))]

theorem getLast_of_greatest {l : List α} (sorted : l.Pairwise (· ≤ ·)) {x : α} (member : x ∈ l)
    (greatest : ∀ t ∈ l, t ≤ x) : l.getLast? = some x := by
  rcases List.eq_nil_or_concat l with rfl | ⟨rest, y, rfl⟩
  · cases member
  · rw [List.concat_eq_append] at *
    rw [List.getLast?_concat]
    rcases List.mem_append.1 member with before | now
    · have le := (List.pairwise_append.1 sorted).2.2 x before y (by simp)
      rw [le_antisymm (greatest y (by simp)) le]
    · rw [List.mem_singleton.1 now]

/-! ## Strictly sorted lists and their neighbours -/

/-- A strictly sorted list is determined by its members. -/
theorem eq_of_mem_iff {l l' : List α} (strict : l.Pairwise (· < ·)) (strict' : l'.Pairwise (· < ·))
    (same : ∀ t, t ∈ l ↔ t ∈ l') : l = l' :=
  eq_of_perm (strict.imp le_of_lt) (strict'.imp le_of_lt)
    ((List.perm_ext_iff_of_nodup (strict.imp ne_of_lt) (strict'.imp ne_of_lt)).2 same)

theorem strict_of_nodup {l : List α} (sorted : l.Pairwise (· ≤ ·)) (nodup : l.Nodup) :
    l.Pairwise (· < ·) :=
  (sorted.and nodup).imp fun h => lt_of_le_of_ne h.1 h.2

omit [LinearOrder α] in
/-- A list around two entries that follow each other. -/
theorem split_at_index {l : List α} {i : Nat} {x y : α} (at_x : l[i]? = some x) (at_y : l[i + 1]? = some y) :
    l = l.take i ++ x :: y :: l.drop (i + 1 + 1) := by
  obtain ⟨less, rfl⟩ := List.getElem?_eq_some_iff.1 at_x
  obtain ⟨less', rfl⟩ := List.getElem?_eq_some_iff.1 at_y
  rw [← List.drop_eq_getElem_cons, ← List.drop_eq_getElem_cons, List.take_append_drop]

/-- `l` and `r` stand next to each other in `L`. -/
def Neighbours (L : List α) (l r : α) : Prop := ∃ A B, L = A ++ l :: r :: B

namespace Neighbours

variable {L : List α} {l r l' r' x : α}

omit [LinearOrder α] in
theorem left_mem (next : Neighbours L l r) : l ∈ L := by
  obtain ⟨A, B, rfl⟩ := next
  simp

omit [LinearOrder α] in
theorem right_mem (next : Neighbours L l r) : r ∈ L := by
  obtain ⟨A, B, rfl⟩ := next
  simp

theorem outside (next : Neighbours L l r) (strict : L.Pairwise (· < ·)) {t : α} (member : t ∈ L) :
    t ≤ l ∨ r ≤ t := by
  obtain ⟨A, B, rfl⟩ := next
  exact not_between (strict.imp le_of_lt) member

theorem lt (next : Neighbours L l r) (strict : L.Pairwise (· < ·)) : l < r := by
  obtain ⟨A, B, rfl⟩ := next
  exact (List.pairwise_cons.1 (List.pairwise_append.1 strict).2.1).1 r (by simp)

/-- An element lies in one gap only. -/
theorem unique (next : Neighbours L l r) (next' : Neighbours L l' r') (strict : L.Pairwise (· < ·))
    (inside : l < x ∧ x < r) (inside' : l' < x ∧ x < r') : l = l' ∧ r = r' := by
  constructor
  · apply le_antisymm
    · exact (next'.outside strict next.left_mem).resolve_right
        fun le => absurd (inside.1.trans inside'.2) (not_lt.2 le)
    · exact (next.outside strict next'.left_mem).resolve_right
        fun le => absurd (inside'.1.trans inside.2) (not_lt.2 le)
  · apply le_antisymm
    · exact (next.outside strict next'.right_mem).resolve_left
        fun le => absurd (inside.1.trans inside'.2) (not_lt.2 le)
    · exact (next'.outside strict next.right_mem).resolve_left
        fun le => absurd (inside'.1.trans inside.2) (not_lt.2 le)

end Neighbours

/-- Two elements with nothing of the list between them are neighbours. -/
theorem neighbours_of_outside {L : List α} (strict : L.Pairwise (· < ·)) {l r : α} (left : l ∈ L)
    (right : r ∈ L) (lt : l < r) (outside : ∀ t ∈ L, t ≤ l ∨ r ≤ t) : Neighbours L l r := by
  obtain ⟨A, C, rfl⟩ := List.append_of_mem left
  obtain ⟨-, upper, cross⟩ := List.pairwise_append.1 strict
  have above := (List.pairwise_cons.1 upper).1
  cases C with
  | nil =>
      rcases List.mem_append.1 right with inA | inL
      · exact absurd (cross r inA l (by simp)) (not_lt.2 lt.le)
      · exact absurd (List.mem_singleton.1 inL) lt.ne'
  | cons y B =>
      have le : r ≤ y := (outside y (by simp)).resolve_left fun le => absurd (above y (by simp)) (not_lt.2 le)
      have ge : y ≤ r := by
        rcases List.mem_append.1 right with inA | inRest
        · exact absurd (cross r inA l (by simp)) (not_lt.2 lt.le)
        · rcases List.mem_cons.1 inRest with rfl | inRest
          · exact absurd lt (lt_irrefl _)
          · rcases List.mem_cons.1 inRest with rfl | inB
            · exact le_rfl
            · exact ((List.pairwise_cons.1 (List.pairwise_cons.1 upper).2).1 r inB).le
      obtain rfl := le_antisymm le ge
      exact ⟨A, B, rfl⟩

/-! ## Slices -/

omit [LinearOrder α] in
theorem exists_idxOf [DecidableEq α] {l : List α} {x : α} (member : x ∈ l) : ∃ i, l.idxOf? x = some i :=
  Option.isSome_iff_exists.1 (Option.isSome_iff_ne_none.2 (List.idxOf?_eq_none_iff.not_left.2 member))

/-- Up to the first occurrence of `x`, a sorted list holds what is less than `x`. -/
theorem take_succ_eq {l : List α} (sorted : l.Pairwise (· ≤ ·)) {x : α} {i : Nat}
    (first : l.idxOf? x = some i) : l.take (i + 1) = (l.filter fun t => t < x) ++ [x] := by
  induction l generalizing i with
  | nil => simp at first
  | cons y rest ih =>
      obtain ⟨least, rest_sorted⟩ := List.pairwise_cons.1 sorted
      by_cases same : y = x
      · subst same
        have zero : i = 0 := by simpa [List.idxOf?_cons] using first.symm
        subst zero
        have none_below : (rest.filter fun t => decide (t < y)) = [] :=
          List.filter_eq_nil_iff.2 fun b hb => by simpa using least b hb
        simp [none_below]
      · obtain ⟨j, later, rfl⟩ : ∃ j, rest.idxOf? x = some j ∧ i = j + 1 := by
          simp only [List.idxOf?_cons, beq_iff_eq, same, if_false, Option.map_eq_some_iff] at first
          obtain ⟨j, later, rfl⟩ := first
          exact ⟨j, later, rfl⟩
        have member : x ∈ rest := by
          by_contra absent
          simp [List.idxOf?_eq_none_iff.2 absent] at later
        have lt : y < x := lt_of_le_of_ne (least x member) same
        rw [List.take_succ_cons, ih rest_sorted later, List.filter_cons_of_pos (by simpa using lt)]
        rfl

theorem take_eq {l : List α} (sorted : l.Pairwise (· ≤ ·)) {x : α} {i : Nat}
    (first : l.idxOf? x = some i) : l.take i = l.filter fun t => t < x := by
  obtain ⟨bound, at_i, -⟩ := List.idxOf?_eq_some_iff.1 first
  have both := take_succ_eq sorted first
  rw [List.take_add_one, List.getElem?_eq_getElem bound, Option.toList_some] at both
  exact (List.append_inj' both rfl).1

theorem idxOf_le {l : List α} (sorted : l.Pairwise (· ≤ ·)) {x y : α} (le : x ≤ y) {i j : Nat}
    (first : l.idxOf? x = some i) (last : l.idxOf? y = some j) : i ≤ j := by
  rcases le.lt_or_eq with lt | rfl
  · obtain ⟨bound, at_j, -⟩ := List.idxOf?_eq_some_iff.1 last
    obtain ⟨bound', at_i, -⟩ := List.idxOf?_eq_some_iff.1 first
    by_contra after
    have before := List.pairwise_iff_getElem.1 sorted j i bound bound' (not_le.1 after)
    rw [at_i, at_j] at before
    exact absurd before (not_le.2 lt)
  · exact (Option.some.inj (first.symm.trans last)).le

/-- A half-open slice between two elements holds what lies from the lower one to
below the upper one. -/
theorem slice_eq {l : List α} (sorted : l.Pairwise (· ≤ ·)) {x y : α} (le : x ≤ y) {i j : Nat}
    (first : l.idxOf? x = some i) (last : l.idxOf? y = some j) :
    (l.take j).drop i = l.filter fun t => x ≤ t ∧ t < y := by
  have upper := take_eq sorted last
  have lower := take_eq sorted first
  -- what is below `x` is what is taken away
  have split : l.take j = l.take i ++ (l.take j).drop i := by
    conv_lhs => rw [← List.take_append_drop i (l.take j)]
    rw [List.take_take, min_eq_left (idxOf_le sorted le first last)]
  have parts : l.take j = (l.filter fun t => t < x) ++ l.filter fun t => x ≤ t ∧ t < y := by
    rw [upper]
    refine eq_of_perm (sorted.filter _) ?_ ?_
    · refine List.pairwise_append.2 ⟨sorted.filter _, sorted.filter _, fun a ha b hb => ?_⟩
      have below : a < x := by simpa using (List.mem_filter.1 ha).2
      have above : x ≤ b ∧ b < y := by simpa using (List.mem_filter.1 hb).2
      exact below.le.trans above.1
    · refine ((List.filter_append_perm (fun t => decide (t < x)) (l.filter fun t => t < y)).symm).trans ?_
      rw [List.filter_filter, List.filter_filter]
      refine List.Perm.of_eq (congrArg₂ _ (List.filter_congr fun t _ => ?_) (List.filter_congr fun t _ => ?_))
      · have : t < x → t < y := fun lt => lt.trans_le le
        by_cases lt : t < x <;> simp [lt, this]
      · by_cases lt : t < x
        · simp [lt]
        · simp [lt, not_lt.1 lt]
  rw [split, lower] at parts
  exact List.append_cancel_left parts

/-- A closed slice ends with the upper element. -/
theorem closed_slice_eq {l : List α} (sorted : l.Pairwise (· ≤ ·)) {x y : α} (le : x ≤ y) {i j : Nat}
    (first : l.idxOf? x = some i) (last : l.idxOf? y = some j) :
    (l.take (j + 1)).drop i = (l.filter fun t => x ≤ t ∧ t < y) ++ [y] := by
  have i_j := idxOf_le sorted le first last
  obtain ⟨bound, -, -⟩ := List.idxOf?_eq_some_iff.1 last
  have short : i ≤ (l.take j).length := by
    rw [List.length_take]
    omega
  rw [take_succ_eq sorted last, ← take_eq sorted last, List.drop_append_of_le_length short,
    slice_eq sorted le first last]

end ColabEdit.Theory.SortedList
