/-
# ColabEdit.Theory.Splice -- replacing a stretch of a list

`splice l i j new` puts `new` in the place of the elements from index `i` up to
`j`.  Two splices at different indices may still give one list: an insertion
moved across copies of what it inserts (`splice_insert_eq_iff`), a deletion moved
across a stretch that repeats with the length of the deleted block
(`splice_delete_eq_iff`).
-/
import Mathlib.Data.List.TakeDrop

namespace ColabEdit.Theory

set_option autoImplicit false

variable {α : Type*}

def splice (l : List α) (i j : Nat) (new : List α) : List α := l.take i ++ new ++ l.drop j

@[simp] theorem splice_nil_self (l : List α) (i : Nat) : splice l i i [] = l := by
  simp [splice]

theorem length_splice {l : List α} {i j : Nat} (le : i ≤ j) (bound : j ≤ l.length) (new : List α) :
    (splice l i j new).length + (j - i) = l.length + new.length := by
  simp only [splice, List.length_append, List.length_take, List.length_drop]
  omega

/-- Elements put in one behind the other make one stretch. -/
theorem splice_cons {l : List α} {i : Nat} (bound : i ≤ l.length) (x : α) (new : List α) :
    splice (splice l i i [x]) (i + 1) (i + 1) new = splice l i i (x :: new) := by
  have front : (l.take i ++ [x]).length = i + 1 := by
    rw [List.length_append, List.length_take_of_le bound, List.length_singleton]
  have before : (splice l i i [x]).take (i + 1) = l.take i ++ [x] := List.take_left' front
  have behind : (splice l i i [x]).drop (i + 1) = l.drop i := List.drop_left' front
  rw [splice, before, behind, splice]
  simp

/-- The list from `i` on starts with the stretch up to `j`. -/
theorem take_split (l : List α) {i j : Nat} (le : i ≤ j) :
    l.take j = l.take i ++ (l.drop i).take (j - i) := by
  rw [← List.take_add, Nat.add_sub_cancel' le]

theorem drop_split (l : List α) {i j : Nat} (le : i ≤ j) :
    l.drop i = (l.drop i).take (j - i) ++ l.drop j := by
  conv_lhs => rw [← List.take_append_drop (j - i) (l.drop i)]
  rw [List.drop_drop, Nat.add_sub_cancel' le]

theorem cons_eq_concat_iff (x : α) (w : List α) : x :: w = w ++ [x] ↔ ∀ u ∈ w, u = x := by
  induction w with
  | nil => simp
  | cons y rest ih =>
      rw [List.cons_append, List.cons.injEq, List.forall_mem_cons]
      constructor
      · rintro ⟨rfl, shifted⟩
        exact ⟨rfl, ih.1 shifted⟩
      · rintro ⟨rfl, copies⟩
        exact ⟨rfl, ih.2 copies⟩

/-- An insertion at `k` is the insertion at `p` where it crosses only copies. -/
theorem splice_insert_eq_iff (l : List α) {k p : Nat} (le : k ≤ p) (x : α) :
    splice l k k [x] = splice l p p [x] ↔ ∀ u ∈ (l.drop k).take (p - k), u = x := by
  rw [← cons_eq_concat_iff]
  unfold splice
  have taken := take_split l le
  have dropped := drop_split l le
  generalize (l.drop k).take (p - k) = w at taken dropped ⊢
  rw [taken, dropped]
  have left : l.take k ++ [x] ++ (w ++ l.drop p) = l.take k ++ ((x :: w) ++ l.drop p) := by simp
  have right : l.take k ++ w ++ [x] ++ l.drop p = l.take k ++ ((w ++ [x]) ++ l.drop p) := by simp
  rw [left, right, List.append_cancel_left_eq, List.append_cancel_right_eq]

/-- A block deleted at `v` is the block deleted at `p` where what lies between
repeats at the distance of the block's length. -/
theorem splice_delete_eq_iff (l : List α) {v p : Nat} (le : v ≤ p) (m : Nat) :
    splice l v (v + m) [] = splice l p (p + m) [] ↔
      (l.drop v).take (p - v) = (l.drop (v + m)).take (p - v) := by
  unfold splice
  have taken := take_split l le
  have dropped := drop_split l (Nat.add_le_add_right le m)
  rw [Nat.add_sub_add_right] at dropped
  generalize (l.drop v).take (p - v) = w at taken ⊢
  generalize (l.drop (v + m)).take (p - v) = w' at dropped ⊢
  rw [taken, dropped]
  simp only [List.append_nil, List.append_assoc]
  rw [List.append_cancel_left_eq, List.append_cancel_right_eq, eq_comm]

/-- The list in which one more copy of `c` stands between `A` and `B` is an insertion
of `c` where the copies were copies of `c`, at any offset that gives the same list. -/
theorem copies_eq_splice_iff [DecidableEq α] (A B : List α) (m n : Nat) (x c : α) {j : Nat}
    (bound : j ≤ (A ++ (List.replicate m x ++ B)).length) :
    A ++ (List.replicate n c ++ B) = splice (A ++ (List.replicate m x ++ B)) j j [c] ↔
      n = m + 1 ∧ (m ≠ 0 → x = c) ∧
        splice (A ++ (List.replicate m x ++ B)) j j [c] =
          splice (A ++ (List.replicate m x ++ B)) A.length A.length [c] := by
  have here : splice (A ++ (List.replicate m x ++ B)) A.length A.length [c] =
      A ++ (c :: (List.replicate m x ++ B)) := by simp [splice]
  have copies : (m ≠ 0 → x = c) → List.replicate m x = List.replicate m c := fun same => by
    rcases Nat.eq_zero_or_pos m with rfl | positive
    · rfl
    · rw [same (Nat.ne_of_gt positive)]
  rw [here]
  constructor
  · intro same
    have long := length_splice (Nat.le_refl j) bound [c]
    rw [← same] at long
    simp only [List.length_append, List.length_replicate, List.length_cons, List.length_nil] at long
    have more : n = m + 1 := by omega
    have counted := congrArg (List.count c) same
    have perm : (splice (A ++ (List.replicate m x ++ B)) j j [c]).Perm (c :: (A ++ (List.replicate m x ++ B))) := by
      rw [splice, List.append_assoc]
      refine List.perm_middle.trans (List.Perm.cons c (List.Perm.of_eq ?_))
      exact List.take_append_drop j _
    rw [perm.count_eq, List.count_cons_self] at counted
    simp only [List.count_append, List.count_replicate_self, List.count_replicate] at counted
    have char : m ≠ 0 → x = c := fun some => by
      by_contra other
      rw [if_neg (by simpa using other)] at counted
      omega
    refine ⟨more, char, same.symm.trans ?_⟩
    rw [more, copies char, List.replicate_succ, List.cons_append]
  · rintro ⟨rfl, char, same⟩
    rw [same, copies char, List.replicate_succ, List.cons_append]

/-- The list without the copies of `x` is the list with one element taken out where
there was one copy, at any offset that gives the same list. -/
theorem gone_eq_splice_iff (A B : List α) (m : Nat) (x : α) {j : Nat}
    (bound : j + 1 ≤ (A ++ (List.replicate m x ++ B)).length) :
    A ++ B = splice (A ++ (List.replicate m x ++ B)) j (j + 1) [] ↔
      m = 1 ∧ splice (A ++ (List.replicate m x ++ B)) j (j + 1) [] =
        splice (A ++ (List.replicate m x ++ B)) A.length (A.length + 1) [] := by
  have here : splice (A ++ (List.replicate 1 x ++ B)) A.length (A.length + 1) [] = A ++ B := by
    simp [splice]
  constructor
  · intro same
    have long := length_splice (Nat.le_succ j) bound []
    rw [← same] at long
    simp only [List.length_append, List.length_replicate, List.length_nil] at long
    obtain rfl : m = 1 := by omega
    exact ⟨rfl, same.symm.trans here.symm⟩
  · rintro ⟨rfl, same⟩
    exact (same.trans here).symm

end ColabEdit.Theory
