/-
# ColabEdit.Browser.Document -- what each function does to a framed tag list

A tag list is `Framed` when it is sorted, starts with `'0'` and ends with `'1'`,
both hidden, and has every other tag strictly between them.  Every function of
`ColabEdit.Browser.Pps` gets its specification here, stated on framed lists:

* `text_eq`: the document is the characters of the visible tags in list order;
* `countTo_found`: a position up to the number of visible characters is found;
* `delete_eq`: `delete pos` is the tag at *list* index `pos`;
* `insert_eq`: `insert` halves the interval `bounds` computes for the two tags
  at list indices `pos` and `pos + 1`;
* `push_between`, `textOf_push_between`: a new tag goes between its neighbours, and
  the text gains its character there.
-/
import ColabEdit.Browser.Pps
import ColabEdit.Theory.SortedList

namespace ColabEdit.Browser.Pps

open BigNum BigTag
open ColabEdit.Theory

set_option autoImplicit false

section Maps

variable {Tag : Type}

/-- The visible tags, in list order. -/
def visible (s : Pps Tag) : List Tag := s.ppsTags.filter s.shown

/-! ## Reading and writing the maps -/

theorem shown_of_pps_eq {s s' : Pps Tag} {t : Tag} (same : s.pps t = s'.pps t) :
    s.shown t = s'.shown t := by simp [shown, same]

theorem char_of_pps_eq {s s' : Pps Tag} {t : Tag} (same : s.pps t = s'.pps t) :
    s.char t = s'.char t := by simp [char, same]

@[simp] theorem shown_eq_false {s : Pps Tag} {t : Tag} : s.shown t = false ↔ s.pps t = some 0 := by
  simp [shown]

theorem shown_eq_true {s : Pps Tag} {t : Tag} : s.shown t = true ↔ s.pps t ≠ some 0 := by
  simp [shown]

/-! ## The text -/

/-- What a tag with the code `ch` shows; code `0` shows nothing. -/
def units (ch : CharCode) : Text := if ch = 0 then [] else [fromCharCode ch]

/-- The characters of the visible tags of a list. -/
def textOf (s : Pps Tag) (tags : List Tag) : Text := (tags.filter s.shown).map s.char

@[simp] theorem textOf_append (s : Pps Tag) (A B : List Tag) :
    s.textOf (A ++ B) = s.textOf A ++ s.textOf B := by simp [textOf]

theorem textOf_cons (s : Pps Tag) (t : Tag) (A : List Tag) :
    s.textOf (t :: A) = (if s.shown t then [s.char t] else []) ++ s.textOf A := by
  by_cases h : s.shown t <;> simp [textOf, h]

@[simp] theorem length_textOf (s : Pps Tag) (A : List Tag) :
    (s.textOf A).length = A.countP s.shown := by simp [textOf, List.countP_eq_length_filter]

theorem textOf_congr {s s' : Pps Tag} {A : List Tag} (same : ∀ t ∈ A, s.pps t = s'.pps t) :
    s.textOf A = s'.textOf A := by
  unfold textOf
  rw [List.filter_congr fun t ht => shown_of_pps_eq (same t ht)]
  exact List.map_congr_left fun t ht => char_of_pps_eq (same t (List.mem_filter.1 ht).1)

theorem textOf_filter (s : Pps Tag) (p : Tag → Bool) :
    s.textOf (s.ppsTags.filter p) = (s.visible.filter p).map s.char := by
  unfold textOf visible
  rw [List.filter_filter, List.filter_filter]
  congr 1
  exact List.filter_congr fun t _ => Bool.and_comm _ _

/-! ## Counting to a position -/

theorem countTo_pos {s : Pps Tag} {pos : Nat} {tags : List Tag} {count : Nat} (lt : count < pos)
    (le : pos ≤ count + tags.countP s.shown) : s.countTo pos tags count = (pos, true) := by
  induction tags generalizing count with
  | nil => simp at le; omega
  | cons t rest ih =>
      by_cases h : s.shown t
      · by_cases done : count + 1 = pos
        · simp [countTo, h, done]
        · simp only [List.countP_cons, h, if_true] at le
          simp only [countTo, h, if_true, done, if_false]
          exact ih (by omega) (by omega)
      · simp only [Bool.not_eq_true] at h
        simp only [List.countP_cons, h, Bool.false_eq_true, if_false] at le
        simp only [countTo, h, Bool.false_eq_true, if_false]
        rw [if_neg (by omega)]
        exact ih lt (by omega)

/-- A position that is found is a number of visible tags. -/
theorem countTo_le {s : Pps Tag} {pos found : Nat} {tags : List Tag} {count : Nat}
    (counted : s.countTo pos tags count = (found, true)) : pos ≤ count + tags.countP s.shown := by
  induction tags generalizing count with
  | nil => cases counted
  | cons t rest ih =>
      rw [List.countP_cons]
      by_cases visible : s.shown t
      · simp only [countTo, visible, if_true] at counted ⊢
        split at counted
        · omega
        · have := ih counted
          omega
      · simp only [countTo, visible, Bool.false_eq_true, if_false] at counted ⊢
        split at counted
        · omega
        · have := ih counted
          omega

theorem countTo_zero {s : Pps Tag} {t : Tag} {rest : List Tag} (hidden : s.shown t = false) :
    s.countTo 0 (t :: rest) 0 = (0, true) := by
  simp [countTo, hidden]

end Maps

section Order

variable {Tag Num : Type} [LinearOrder Tag] [BigTag Tag Num]

@[simp] theorem hide_ppsTags (s : Pps Tag) (t : Tag) : (s.hide t).ppsTags = s.ppsTags := rfl

/-- The tag lies where the document's tags lie, between `'0'` and `'1'`. -/
def Between (t : Tag) : Prop := tag0 < t ∧ t < tag1

structure Framed (s : Pps Tag) : Prop where
  sorted : s.ppsTags.Pairwise (· ≤ ·)
  ends : ∃ mid, s.ppsTags = tag0 :: (mid ++ [tag1]) ∧ ∀ t ∈ mid, Between t
  hidden0 : s.pps tag0 = some 0
  hidden1 : s.pps tag1 = some 0

omit [BigTag Tag Num] in
/-- A piece, tag by tag: up to below the right one, and the right one. -/
theorem piece_eq {s : Pps Tag} (sorted : s.ppsTags.Pairwise (· ≤ ·)) {l r : Tag} (left : l ∈ s.ppsTags)
    (right : r ∈ s.ppsTags) (le : l ≤ r) :
    s.piece l r = some (s.textOf (s.ppsTags.filter fun t => l ≤ t ∧ t < r) ++ s.textOf [r]) := by
  obtain ⟨i, first⟩ := SortedList.exists_idxOf left
  obtain ⟨j, last⟩ := SortedList.exists_idxOf right
  simp only [piece, sort, SortedList.insertionSort_of_sorted sorted, first, last]
  rw [SortedList.closed_slice_eq sorted le first last, ← textOf_append]
  rfl

/-- On a sorted list with a hidden `'1'` the document is the text of the tags
from `'0'` up to `'1'`. -/
theorem text_of_sorted {s : Pps Tag} (sorted : s.ppsTags.Pairwise (· ≤ ·)) (zero : tag0 ∈ s.ppsTags)
    (one : tag1 ∈ s.ppsTags) (hidden1 : s.pps tag1 = some 0) :
    s.text = some (s.textOf (s.ppsTags.filter fun t => tag0 ≤ t ∧ t < tag1)) := by
  have nothing : s.textOf [tag1] = [] := by
    rw [textOf_cons, shown_eq_false.2 hidden1]
    rfl
  rw [text, piece_eq sorted zero one tag0_lt_tag1.le, nothing, List.append_nil]

namespace Framed

variable {s : Pps Tag}

theorem zero_mem (framed : Framed s) : tag0 ∈ s.ppsTags := by
  obtain ⟨mid, shape, -⟩ := framed.ends
  simp [shape]

theorem one_mem (framed : Framed s) : tag1 ∈ s.ppsTags := by
  obtain ⟨mid, shape, -⟩ := framed.ends
  simp [shape]

theorem between (framed : Framed s) {t : Tag} (member : t ∈ s.ppsTags) :
    t = tag0 ∨ t = tag1 ∨ Between t := by
  obtain ⟨mid, shape, inside⟩ := framed.ends
  rw [shape] at member
  simp only [List.mem_cons, List.mem_append, List.not_mem_nil, or_false] at member
  rcases member with rfl | member | rfl
  · exact Or.inl rfl
  · exact Or.inr (Or.inr (inside t member))
  · exact Or.inr (Or.inl rfl)

/-- A tag that an earlier list did not have is no end. -/
theorem between_of_fresh {s' : Pps Tag} (framed : Framed s) (framed' : Framed s') {t : Tag}
    (member : t ∈ s'.ppsTags) (fresh : t ∉ s.ppsTags) : Between t := by
  rcases framed'.between member with rfl | rfl | between
  · exact absurd framed.zero_mem fresh
  · exact absurd framed.one_mem fresh
  · exact between

theorem between_of_shown (framed : Framed s) {t : Tag} (member : t ∈ s.ppsTags)
    (shown : s.shown t) : Between t := by
  rcases framed.between member with rfl | rfl | h
  · simp [shown_eq_true, framed.hidden0] at shown
  · simp [shown_eq_true, framed.hidden1] at shown
  · exact h

/-- The document is the text of the whole list. -/
theorem text_eq (framed : Framed s) : s.text = some (s.textOf s.ppsTags) := by
  rw [text_of_sorted framed.sorted framed.zero_mem framed.one_mem framed.hidden1]
  unfold textOf
  rw [List.filter_filter]
  congr 2
  apply List.filter_congr
  intro t member
  by_cases h : s.shown t
  · have := framed.between_of_shown member h
    simp [h, this.1.le, this.2]
  · simp [h]

/-- It has a character for each visible tag. -/
theorem length_text (framed : Framed s) {T : Text} (text : s.text = some T) :
    T.length = s.visible.length := by
  rw [← Option.some.inj (framed.text_eq.symm.trans text), length_textOf, List.countP_eq_length_filter]
  rfl

theorem sort_eq (framed : Framed s) : sort s.ppsTags = s.ppsTags :=
  SortedList.insertionSort_of_sorted framed.sorted

/-- Two entries of the list are hidden, so the visible ones leave room for an
index and its successor. -/
theorem length_lt (framed : Framed s) : s.visible.length + 1 < s.ppsTags.length := by
  obtain ⟨mid, shape, -⟩ := framed.ends
  have h0 : s.shown tag0 = false := shown_eq_false.2 framed.hidden0
  have h1 : s.shown tag1 = false := shown_eq_false.2 framed.hidden1
  have := List.length_filter_le s.shown mid
  simp only [visible, shape, List.filter_cons, h0, List.filter_append, h1, Bool.false_eq_true,
    if_false, List.filter_nil, List.append_nil, List.length_cons, List.length_append,
    List.length_nil]
  omega

end Framed

theorem Framed.countTo_found {s : Pps Tag} (framed : Framed s) {pos : Nat}
    (valid : pos ≤ s.visible.length) : s.countTo pos s.ppsTags 0 = (pos, true) := by
  rcases Nat.eq_zero_or_pos pos with rfl | positive
  · obtain ⟨mid, shape, -⟩ := framed.ends
    rw [shape]
    exact countTo_zero (shown_eq_false.2 framed.hidden0)
  · apply countTo_pos positive
    rw [List.countP_eq_length_filter]
    simpa [visible] using valid

/-- A position and its successor are indices of the list. -/
theorem Framed.split {s : Pps Tag} (framed : Framed s) {pos : Nat}
    (valid : pos ≤ s.visible.length) :
    ∃ A l r B, s.ppsTags = A ++ l :: r :: B ∧ A.length = pos := by
  have room := framed.length_lt
  have h1 : pos < s.ppsTags.length := by omega
  have h2 : pos + 1 < s.ppsTags.length := by omega
  refine ⟨s.ppsTags.take pos, s.ppsTags[pos], s.ppsTags[pos + 1], s.ppsTags.drop (pos + 2), ?_, ?_⟩
  · exact SortedList.split_at_index (List.getElem?_eq_getElem h1) (List.getElem?_eq_getElem h2)
  · rw [List.length_take]
    omega

/-! ## The two ways a function changes the list

Every function of the tag list either writes the maps at one tag (`mark`: `hide`,
and `attach` of a deletion) or also pushes that tag and sorts (`push`: `add`, and
`attach` of an insertion). -/

def mark (s : Pps Tag) (t : Tag) (ch : CharCode) (ack : Bool) : Pps Tag :=
  { s with
    pps := Function.update s.pps t (some ch)
    ppsAck := Function.update s.ppsAck t (some ack) }

def push (s : Pps Tag) (t : Tag) (ch : CharCode) (ack : Bool) : Pps Tag :=
  { s.mark t ch ack with ppsTags := sort (s.ppsTags ++ [t]) }

theorem hide_eq_mark (s : Pps Tag) (t : Tag) : s.hide t = s.mark t 0 false := rfl

theorem attach_zero (s : Pps Tag) (t : Tag) : s.attach t 0 = s.mark t 0 true := rfl

theorem attach_of_ne (s : Pps Tag) (t : Tag) {ch : CharCode} (ne : ch ≠ 0) :
    s.attach t ch = s.push t ch true := by
  simp [attach, ne, push, mark]

@[simp] theorem mark_ppsTags (s : Pps Tag) (t : Tag) (ch : CharCode) (ack : Bool) :
    (s.mark t ch ack).ppsTags = s.ppsTags := rfl

@[simp] theorem push_ppsTags (s : Pps Tag) (t : Tag) (ch : CharCode) (ack : Bool) :
    (s.push t ch ack).ppsTags = sort (s.ppsTags ++ [t]) := rfl

@[simp] theorem push_pps (s : Pps Tag) (t : Tag) (ch : CharCode) (ack : Bool) :
    (s.push t ch ack).pps = (s.mark t ch ack).pps := rfl

@[simp] theorem push_ppsAck (s : Pps Tag) (t : Tag) (ch : CharCode) (ack : Bool) :
    (s.push t ch ack).ppsAck = (s.mark t ch ack).ppsAck := rfl

@[simp] theorem mark_pps_self (s : Pps Tag) (t : Tag) (ch : CharCode) (ack : Bool) :
    (s.mark t ch ack).pps t = some ch := by simp [mark]

theorem mark_pps_ne (s : Pps Tag) {t u : Tag} (ne : u ≠ t) (ch : CharCode) (ack : Bool) :
    (s.mark t ch ack).pps u = s.pps u := by simp [mark, ne]

@[simp] theorem mark_ppsAck_self (s : Pps Tag) (t : Tag) (ch : CharCode) (ack : Bool) :
    (s.mark t ch ack).ppsAck t = some ack := by simp [mark]

theorem mark_ppsAck_ne (s : Pps Tag) {t u : Tag} (ne : u ≠ t) (ch : CharCode) (ack : Bool) :
    (s.mark t ch ack).ppsAck u = s.ppsAck u := by simp [mark, ne]

theorem mem_push {s : Pps Tag} {t u : Tag} {ch : CharCode} {ack : Bool} :
    u ∈ (s.push t ch ack).ppsTags ↔ u ∈ s.ppsTags ∨ u = t := by
  simp [sort]

/-- Between two neighbours the pushed tag lands between them. -/
theorem push_between {s : Pps Tag} (sorted : s.ppsTags.Pairwise (· ≤ ·)) {A B : List Tag}
    {l r t : Tag} (shape : s.ppsTags = A ++ l :: r :: B) (left : l ≤ t) (right : t ≤ r) :
    sort (s.ppsTags ++ [t]) = A ++ l :: t :: r :: B := by
  have regroup : ∀ C : List Tag, A ++ l :: C = A ++ [l] ++ C := by simp
  have target : A ++ l :: t :: r :: B = A ++ [l] ++ t :: r :: B := by simp
  rw [shape] at sorted ⊢
  rw [regroup] at sorted ⊢
  rw [target]
  refine SortedList.insertionSort_push sorted (fun a ha => ?_) (fun b hb => ?_)
  · have le := SortedList.le_left (A := A) (B := r :: B) (by simpa using sorted)
    simp only [List.mem_append, List.mem_singleton] at ha
    rcases ha with ha | rfl
    · exact (le a ha).trans left
    · exact left
  · rcases List.mem_cons.1 hb with rfl | hb
    · exact right
    · exact right.trans (SortedList.le_right sorted b hb)

omit [BigTag Tag Num] in
/-- What `delete` returns is in the list. -/
theorem delete_mem {s : Pps Tag} {pos : Nat} {t : Tag} (found : s.delete pos = some t) :
    t ∈ s.ppsTags := by
  unfold delete at found
  split at found
  · exact List.mem_insertionSort _ |>.1 (List.mem_of_getElem? found)
  · cases found

theorem sorted_push (s : Pps Tag) (t : Tag) (ch : CharCode) (ack : Bool) :
    (s.push t ch ack).ppsTags.Pairwise (· ≤ ·) :=
  SortedList.sorted_insertionSort _

namespace Framed

variable {s : Pps Tag}

theorem mark_zero (framed : Framed s) (t : Tag) (ack : Bool) : Framed (s.mark t 0 ack) where
  sorted := framed.sorted
  ends := framed.ends
  hidden0 := by by_cases h : tag0 = t <;> simp [mark, h, framed.hidden0]
  hidden1 := by by_cases h : tag1 = t <;> simp [mark, h, framed.hidden1]

theorem hide (framed : Framed s) (t : Tag) : Framed (s.hide t) := framed.mark_zero t false

theorem push (framed : Framed s) {t : Tag} (between : Between t) (ch : CharCode) (ack : Bool) :
    Framed (s.push t ch ack) where
  sorted := sorted_push s t ch ack
  ends := by
    obtain ⟨mid, shape, inside⟩ := framed.ends
    have sorted := framed.sorted
    rw [shape] at sorted
    obtain ⟨A, B, split, below, above⟩ :=
      SortedList.split_at (List.pairwise_append.1 (List.pairwise_cons.1 sorted).2).1 t
    refine ⟨A ++ t :: B, ?_, fun u hu => ?_⟩
    · have regroup : tag0 :: (mid ++ [tag1]) = (tag0 :: A) ++ (B ++ [tag1]) := by simp [split]
      have target : tag0 :: (A ++ t :: B ++ [tag1]) = (tag0 :: A) ++ t :: (B ++ [tag1]) := by simp
      rw [push_ppsTags, shape, regroup, target]
      rw [regroup] at sorted
      refine SortedList.insertionSort_push sorted (fun a ha => ?_) (fun b hb => ?_)
      · rcases List.mem_cons.1 ha with rfl | ha
        · exact between.1.le
        · exact (below a ha).le
      · simp only [List.mem_append, List.mem_singleton] at hb
        rcases hb with hb | rfl
        · exact above b hb
        · exact between.2.le
    · simp only [List.mem_append, List.mem_cons] at hu
      rcases hu with hu | rfl | hu
      · exact inside u (by simp [split, hu])
      · exact between
      · exact inside u (by simp [split, hu])
  hidden0 := by rw [push_pps, mark_pps_ne s between.1.ne]; exact framed.hidden0
  hidden1 := by rw [push_pps, mark_pps_ne s between.2.ne']; exact framed.hidden1

theorem attach (framed : Framed s) {t : Tag} (between : Between t) (ch : CharCode) :
    Framed (s.attach t ch) := by
  by_cases zero : ch = 0
  · subst zero
    exact framed.mark_zero t true
  · rw [attach_of_ne s t zero]
    exact framed.push between ch true

/-- `delete pos` returns the tag at list index `pos`. -/
theorem delete_eq (framed : Framed s) {pos : Nat} (valid : pos ≤ s.visible.length) :
    s.delete pos = s.ppsTags[pos]? := by
  simp only [delete, framed.sort_eq, framed.countTo_found valid]

end Framed

theorem framed_fresh : Framed (fresh : Pps Tag) where
  sorted := by simpa [fresh] using (tag0_lt_tag1 : (tag0 : Tag) < tag1).le
  ends := ⟨[], rfl, by simp⟩
  hidden0 := by simp [fresh]
  hidden1 := by simp [fresh]

/-! ## What a push and a mark do to the text -/

theorem textOf_mark_of_notMem {s : Pps Tag} {t : Tag} {A : List Tag} (absent : t ∉ A)
    (ch : CharCode) (ack : Bool) : (s.mark t ch ack).textOf A = s.textOf A :=
  textOf_congr fun _ hu => mark_pps_ne s (ne_of_mem_of_not_mem hu absent) ch ack

theorem textOf_push (s : Pps Tag) (t : Tag) (ch : CharCode) (ack : Bool) (A : List Tag) :
    (s.push t ch ack).textOf A = (s.mark t ch ack).textOf A := rfl

/-- Pushing a new tag between two neighbours adds what it shows between their texts. -/
theorem textOf_push_between {s : Pps Tag} {l r t : Tag} {A B : List Tag} {ch : CharCode} {ack : Bool}
    (shape : s.ppsTags = A ++ l :: r :: B) (pushed : (s.push t ch ack).ppsTags = A ++ l :: t :: r :: B)
    (fresh : t ∉ s.ppsTags) :
    (s.push t ch ack).textOf (s.push t ch ack).ppsTags =
      s.textOf (A ++ [l]) ++ units ch ++ s.textOf (r :: B) := by
  have absent : t ∉ A ∧ t ≠ l ∧ t ≠ r ∧ t ∉ B := by simpa [shape] using fresh
  have left : t ∉ A ++ [l] := by simp [absent]
  have right : t ∉ r :: B := by simp [absent]
  have shows : (if (s.mark t ch ack).shown t then [(s.mark t ch ack).char t] else []) = units ch := by
    by_cases zero : ch = 0 <;> simp [units, Pps.shown, Pps.char, zero]
  have grouped : A ++ l :: t :: r :: B = (A ++ [l]) ++ t :: r :: B := by simp
  rw [pushed, grouped, textOf_push, textOf_append, textOf_cons, shows, textOf_mark_of_notMem left,
    textOf_mark_of_notMem right, List.append_assoc]

end Order

/-! ## `insert` -/

section Insert

variable {Tag Num : Type} [LinearOrder Tag] [BigNum Num] [BigTag Tag Num]

/-- The tag `PPS.add` makes of the two bounds of `insert`. -/
def halfway (ltag rtag : Num) : Tag :=
  str (div (BigNum.add (big (str ltag : Tag)) (big (str rtag : Tag))) (ofInt 2))

/-- On a valid position `insert` halves the interval `bounds` computes from the
tags at list indices `pos` and `pos + 1`. -/
theorem Framed.insert_eq {s : Pps Tag} (framed : Framed s) {index numClients : Int} {pos : Nat}
    {ch : CharCode} (valid : pos ≤ s.visible.length) {A B : List Tag} {l r : Tag}
    (shape : s.ppsTags = A ++ l :: r :: B) (at_pos : A.length = pos) :
    s.insert index numClients pos ch =
      (s.bounds index numClients s.ppsTags pos l r).map fun b =>
        (s.push (halfway b.1 b.2) ch false, some (halfway b.1 b.2)) := by
  have at_l : s.ppsTags[pos]? = some l := by subst at_pos; simp [shape]
  have at_r : s.ppsTags[pos + 1]? = some r := by subst at_pos; simp [shape]
  simp only [insert, framed.sort_eq, framed.countTo_found valid, at_l, at_r]
  cases s.bounds index numClients s.ppsTags pos l r with
  | none => rfl
  | some b => rfl

/-- `insert` returns a tag only at valid positions. -/
theorem Framed.insert_valid {s s' : Pps Tag} (framed : Framed s) {index numClients : Int} {pos : Nat}
    {ch : CharCode} {t : Tag} (inserted : s.insert index numClients pos ch = some (s', some t)) :
    pos ≤ s.visible.length := by
  have found : (s.countTo pos s.ppsTags 0).2 = true := by
    by_contra missing
    simp only [insert, framed.sort_eq, missing, if_false] at inserted
    split at inserted
    · split at inserted <;> cases inserted
    · cases inserted
  have counted : s.countTo pos s.ppsTags 0 = ((s.countTo pos s.ppsTags 0).1, true) := Prod.ext rfl found
  have := countTo_le counted
  rwa [Nat.zero_add, List.countP_eq_length_filter] at this

/-- Whatever `insert` returns, the new tag was pushed. -/
theorem insert_push {s s' : Pps Tag} (sorted : s.ppsTags.Pairwise (· ≤ ·)) {index numClients : Int}
    {pos : Nat} {ch : CharCode} {t : Tag}
    (inserted : s.insert index numClients pos ch = some (s', some t)) : s' = s.push t ch false := by
  have same : sort s.ppsTags = s.ppsTags := SortedList.insertionSort_of_sorted sorted
  simp only [Pps.insert, same] at inserted
  split at inserted
  · split at inserted
    · cases inserted
    · split at inserted
      · cases inserted
        rfl
      · cases inserted
  · split at inserted <;> cases inserted

end Insert

end ColabEdit.Browser.Pps
