/-
# ColabEdit.Browser.Editor -- what a remote change does on the screen

The Trix editor as a sequence of UTF-16 units with a caret, and the whole of
`PPS.attach`: the change of the tag list (`Pps.attach`) together with the calls
it makes to the editor.  The list is changed by tag, the screen by an offset
that `PPS.index` counted.

`attach_follows_iff` says exactly when the screen shows the document again after
the change, for a sorted tag list with both ends whose document it showed before.
It goes wrong for a deletion of a tag that is hidden already (the character before
the offset is removed in its place), for an insertion of a hidden tag, for tags
that are in the list twice, and for tags that do not lie between the ends.
-/
import ColabEdit.Browser.Document
import ColabEdit.Theory.Splice

namespace ColabEdit.Browser

open BigTag
open ColabEdit.Theory

set_option autoImplicit false

structure Editor where
  text : Text
  /-- `getSelectedRange()[0]` -/
  caret : Nat

/-- Where `setSelectedRange([p, p])` puts the caret.  Trix reads a negative
offset as `0`; past the end it is left open. -/
structure Trix where
  place : Editor → Int → Nat
  place_of_le : ∀ (e : Editor) (p : Nat), p ≤ e.text.length → place e p = p
  place_of_neg : ∀ (e : Editor) (p : Int), p < 0 → place e p = 0
  place_le : ∀ (e : Editor) (p : Int), e.caret ≤ e.text.length → place e p ≤ e.text.length

/-- The Trix that clamps an offset past the end. -/
def Trix.clamped : Trix where
  place := fun e p => min p.toNat e.text.length
  place_of_le := fun e p le => by simpa using le
  place_of_neg := fun e p neg => by simp [Int.toNat_of_nonpos neg.le]
  place_le := fun e p _ => Nat.min_le_right _ _

namespace Editor

/-- `insertString` of a string of one unit. -/
def insertString (e : Editor) (u : UInt16) : Editor where
  text := e.text.take e.caret ++ u :: e.text.drop e.caret
  caret := e.caret + 1

/-- `deleteInDirection('backward')`. -/
def deleteBackward (e : Editor) : Editor :=
  if e.caret = 0 then e
  else
    { text := e.text.take (e.caret - 1) ++ e.text.drop e.caret
      caret := e.caret - 1 }

theorem deleteBackward_zero {e : Editor} (zero : e.caret = 0) : e.deleteBackward = e :=
  if_pos zero

theorem deleteBackward_text {e : Editor} (positive : e.caret ≠ 0) :
    e.deleteBackward.text = e.text.take (e.caret - 1) ++ e.text.drop e.caret := by
  simp [deleteBackward, positive]

end Editor

def Trix.setSelectedRange (T : Trix) (e : Editor) (p : Int) : Editor := { e with caret := T.place e p }

@[simp] theorem Trix.setSelectedRange_text (T : Trix) (e : Editor) (p : Int) :
    (T.setSelectedRange e p).text = e.text := rfl

@[simp] theorem Trix.setSelectedRange_caret (T : Trix) (e : Editor) (p : Int) :
    (T.setSelectedRange e p).caret = T.place e p := rfl

namespace Editor

variable {Tag : Type} [LinearOrder Tag]

/-- `PPS.attach`, with `back` for what the editor does on
`deleteInDirection('backward')`: the tag list and the screen after it. -/
def attachBy (back : Editor → Editor) (T : Trix) (s : Pps Tag) (e : Editor) (tag : Tag) (ch : CharCode) :
    Pps Tag × Editor :=
  if ch ≠ 0 then
    let s := s.attach tag ch
    let pos := s.index tag
    let currentCurPos : Int := e.caret
    let e := T.setSelectedRange e pos
    let e := e.insertString (fromCharCode ch)
    if pos > currentCurPos then (s, T.setSelectedRange e currentCurPos)
    else if pos ≤ currentCurPos - 1 then (s, T.setSelectedRange e (currentCurPos + 1))
    else (s, e)
  else
    let currentCurPos : Int := e.caret
    let pos := s.index tag
    let e := T.setSelectedRange e (pos + 1)
    let e := back e
    let s := s.attach tag ch
    if pos > currentCurPos then (s, T.setSelectedRange e currentCurPos)
    else (s, T.setSelectedRange e (currentCurPos - 1))

/-- `PPS.attach` in front of an editor whose characters are single units. -/
def attach (T : Trix) (s : Pps Tag) (e : Editor) (tag : Tag) (ch : CharCode) : Pps Tag × Editor :=
  attachBy deleteBackward T s e tag ch

/-- The two ways to delete differ only where they are asked to delete. -/
theorem attachBy_eq {back : Editor → Editor} (T : Trix) (s : Pps Tag) (e : Editor) (tag : Tag) (ch : CharCode)
    (same : ch = 0 → back (T.setSelectedRange e (s.index tag + 1)) =
      (T.setSelectedRange e (s.index tag + 1)).deleteBackward) :
    attachBy back T s e tag ch = attach T s e tag ch := by
  unfold attach attachBy
  split
  · rfl
  · rename_i zero
    dsimp only
    rw [same (not_not.1 zero)]

theorem attachBy_fst (back : Editor → Editor) (T : Trix) (s : Pps Tag) (e : Editor) (tag : Tag) (ch : CharCode) :
    (attachBy back T s e tag ch).1 = s.attach tag ch := by
  unfold attachBy
  split
  · dsimp only
    split
    · rfl
    · split <;> rfl
  · dsimp only
    split <;> rfl

theorem attach_fst (T : Trix) (s : Pps Tag) (e : Editor) (tag : Tag) (ch : CharCode) :
    (attach T s e tag ch).1 = s.attach tag ch := attachBy_fst deleteBackward T s e tag ch

theorem attach_insert_text (T : Trix) (s : Pps Tag) (e : Editor) (tag : Tag) {ch : CharCode}
    (ne : ch ≠ 0) :
    (attach T s e tag ch).2.text =
      e.text.take (T.place e ((s.attach tag ch).index tag)) ++
        fromCharCode ch :: e.text.drop (T.place e ((s.attach tag ch).index tag)) := by
  unfold attach attachBy
  rw [if_pos ne]
  dsimp only
  split
  · rfl
  · split <;> rfl

theorem attach_delete_text (T : Trix) (s : Pps Tag) (e : Editor) (tag : Tag) :
    (attach T s e tag 0).2.text = (T.setSelectedRange e (s.index tag + 1)).deleteBackward.text := by
  unfold attach attachBy
  rw [if_neg (by simp)]
  dsimp only
  split <;> rfl

end Editor

/-! ## Offsets -/

namespace Pps

section Offsets

variable {Tag : Type} [LinearOrder Tag]

theorem indexFrom_split (s : Pps Tag) {t : Tag} {A B : List Tag} (absent : t ∉ A) (pos : Nat) :
    s.indexFrom t (A ++ t :: B) pos = (pos + A.countP s.shown : Nat) := by
  induction A generalizing pos with
  | nil => simp [indexFrom]
  | cons a rest ih =>
      have ne : a ≠ t := fun same => absent (by simp [same])
      have later : t ∉ rest := fun member => absent (by simp [member])
      simp only [List.cons_append, indexFrom, ne, if_false]
      rw [ih later, List.countP_cons]
      split
      · push_cast
        omega
      · simp

theorem indexFrom_absent (s : Pps Tag) {t : Tag} {tags : List Tag} (absent : t ∉ tags) (pos : Nat) :
    s.indexFrom t tags pos = -1 := by
  induction tags generalizing pos with
  | nil => rfl
  | cons a rest ih =>
      have ne : a ≠ t := fun same => absent (by simp [same])
      simp only [indexFrom, ne, if_false]
      exact ih (fun member => absent (by simp [member])) _

theorem index_of_notMem (s : Pps Tag) {t : Tag} (absent : t ∉ s.ppsTags) : s.index t = -1 :=
  indexFrom_absent s (fun member => absent ((List.mem_insertionSort _).1 member)) 0

/-- The offset of a tag is the length of the text before it. -/
theorem index_of_split {s : Pps Tag} {t : Tag} {A B : List Tag} (shape : sort s.ppsTags = A ++ t :: B)
    (absent : t ∉ A) : s.index t = ((s.textOf A).length : Nat) := by
  rw [index, shape, indexFrom_split s absent, length_textOf, Nat.zero_add]

/-- The number of visible characters before a tag. -/
def visibleBefore (s : Pps Tag) (tag : Tag) : Nat := s.ppsTags.countP fun t => s.shown t && decide (t < tag)

theorem index_of_mem (s : Pps Tag) {tag : Tag} (member : tag ∈ s.ppsTags) :
    s.index tag = (s.visibleBefore tag : Nat) := by
  have sorted : (sort s.ppsTags).Pairwise (· ≤ ·) := List.pairwise_insertionSort (· ≤ ·) _
  obtain ⟨A, B, shape, below, above⟩ := SortedList.split_copies sorted tag
  obtain ⟨n, copies⟩ : ∃ n, (sort s.ppsTags).count tag = n + 1 :=
    Nat.exists_eq_succ_of_ne_zero (List.count_pos_iff.2 ((List.mem_insertionSort _).2 member)).ne'
  rw [copies, List.replicate_succ, List.cons_append] at shape
  have absent : tag ∉ A := fun inside => lt_irrefl tag (below tag inside)
  have before : A.countP (fun t => s.shown t && decide (t < tag)) = A.countP s.shown :=
    List.countP_congr fun t inside => by simp [below t inside]
  have after : (tag :: (List.replicate n tag ++ B)).countP (fun t => s.shown t && decide (t < tag)) = 0 := by
    refine List.countP_eq_zero.2 fun t inside => ?_
    have le : tag ≤ t := by
      rcases List.mem_cons.1 inside with rfl | inside
      · exact le_rfl
      rcases List.mem_append.1 inside with copy | behind
      · exact (List.eq_of_mem_replicate copy).ge
      · exact (above t behind).le
    simp [le]
  have counted : s.visibleBefore tag = A.countP s.shown := by
    rw [visibleBefore, ← (List.perm_insertionSort (· ≤ ·) s.ppsTags).countP_eq]
    rw [sort] at shape
    rw [shape, List.countP_append, before, after, Nat.add_zero]
  rw [index_of_split shape absent, length_textOf, counted]

/-- A tag shifts no tag but those behind it. -/
theorem index_attach (s : Pps Tag) (tag : Tag) {ch : CharCode} (ne : ch ≠ 0) :
    (s.attach tag ch).index tag = (s.visibleBefore tag : Nat) := by
  have tags : (s.attach tag ch).ppsTags = sort (s.ppsTags ++ [tag]) := by simp [attach, ne]
  have shown : ∀ t, t < tag → (s.attach tag ch).shown t = s.shown t := fun t lt => by
    simp [attach, ne, Pps.shown, lt.ne]
  rw [index_of_mem _ (by simp [tags, sort]), visibleBefore, visibleBefore, tags, sort,
    (List.perm_insertionSort (· ≤ ·) _).countP_eq, List.countP_append]
  have same : s.ppsTags.countP (fun t => (s.attach tag ch).shown t && decide (t < tag)) =
      s.ppsTags.countP fun t => s.shown t && decide (t < tag) :=
    List.countP_congr fun t _ => by
      by_cases lt : t < tag
      · simp [shown t lt]
      · simp [lt]
  rw [same]
  simp

theorem visibleBefore_le (s : Pps Tag) (tag : Tag) : s.visibleBefore tag ≤ s.visible.length := by
  rw [visible, ← List.countP_eq_length_filter]
  exact List.countP_mono_left fun t _ before => (Bool.and_eq_true_iff.1 before).1

theorem visibleBefore_lt (s : Pps Tag) {tag : Tag} (member : tag ∈ s.ppsTags) (visible : s.shown tag) :
    s.visibleBefore tag < s.visible.length := by
  obtain ⟨A, B, shape⟩ := List.append_of_mem member
  have before : ∀ l : List Tag, l.countP (fun t => s.shown t && decide (t < tag)) ≤ l.countP s.shown := fun l =>
    List.countP_mono_left fun t _ both => (Bool.and_eq_true_iff.1 both).1
  have front := before A
  have back := before B
  rw [visibleBefore, Pps.visible, ← List.countP_eq_length_filter, shape, List.countP_append, List.countP_append,
    List.countP_cons_of_pos visible, List.countP_cons_of_neg (by simp)]
  omega

end Offsets

/-! ## The tags of the document -/

/-- The list is sorted and has both ends. -/
structure Ended {Tag Num : Type} [LinearOrder Tag] [BigTag Tag Num] (s : Pps Tag) : Prop where
  sorted : s.ppsTags.Pairwise (· ≤ ·)
  zero_mem : tag0 ∈ s.ppsTags
  one_mem : tag1 ∈ s.ppsTags

section Spanned

variable {Tag Num : Type} [LinearOrder Tag] [BigTag Tag Num] {s : Pps Tag}

theorem Framed.ended (framed : Framed s) : Ended s := ⟨framed.sorted, framed.zero_mem, framed.one_mem⟩

theorem ended_fresh : Ended (fresh : Pps Tag) := framed_fresh.ended

theorem Ended.mark (ended : Ended s) (t : Tag) (ch : CharCode) (ack : Bool) : Ended (s.mark t ch ack) :=
  ⟨ended.sorted, ended.zero_mem, ended.one_mem⟩

theorem Ended.push (ended : Ended s) (t : Tag) (ch : CharCode) (ack : Bool) : Ended (s.push t ch ack) :=
  ⟨sorted_push s t ch ack, mem_push.2 (.inl ended.zero_mem), mem_push.2 (.inl ended.one_mem)⟩

theorem Ended.attach (ended : Ended s) (t : Tag) (ch : CharCode) : Ended (s.attach t ch) := by
  by_cases zero : ch = 0
  · subst zero
    exact ended.mark t 0 true
  · rw [attach_of_ne s t zero]
    exact ended.push t ch true

/-- The tags that the document reads: from `'0'` up to the first `'1'`. -/
def spanned (s : Pps Tag) : List Tag := (s.ppsTags.filter fun t => tag0 ≤ t ∧ t < tag1) ++ [tag1]

/-- The offset of a tag in the document: what is visible from `'0'` up to it. -/
def offsetOf (s : Pps Tag) (tag : Tag) : Nat := s.spanned.countP fun t => s.shown t && decide (t < tag)

theorem Ended.text_eq (ended : Ended s) : s.text = some (s.textOf s.spanned) := by
  rw [text, piece_eq ended.sorted ended.zero_mem ended.one_mem tag0_lt_tag1.le, spanned, textOf_append]

theorem Ended.sorted_spanned (ended : Ended s) : s.spanned.Pairwise (· ≤ ·) := by
  refine List.pairwise_append.2 ⟨ended.sorted.filter _, List.pairwise_singleton _ _, fun a inside b last => ?_⟩
  have bounds : tag0 ≤ a ∧ a < tag1 := by simpa using (List.mem_filter.1 inside).2
  rw [List.mem_singleton.1 last]
  exact bounds.2.le

theorem offsetOf_eq (s : Pps Tag) (tag : Tag) :
    s.offsetOf tag = (s.textOf (s.spanned.filter fun t => t < tag)).length := by
  rw [length_textOf, offsetOf, List.countP_filter]

theorem count_spanned_one (s : Pps Tag) : s.spanned.count tag1 = 1 := by
  have before : tag1 ∉ s.ppsTags.filter fun t => decide (tag0 ≤ t ∧ t < tag1) := fun inside =>
    absurd (List.mem_filter.1 inside).2 (by simp)
  rw [spanned, List.count_append, List.count_eq_zero.2 before, List.count_singleton_self]

theorem count_spanned (s : Pps Tag) {tag : Tag} (ne : tag ≠ tag1) :
    s.spanned.count tag = if tag0 ≤ tag ∧ tag < tag1 then s.ppsTags.count tag else 0 := by
  have last : [tag1].count tag = 0 := List.count_eq_zero.2 (by simpa using ne)
  rw [spanned, List.count_append, last, Nat.add_zero]
  split
  · exact List.count_filter (by simpa using ‹_›)
  · exact List.count_eq_zero.2 fun inside => ‹¬_› (by simpa using (List.mem_filter.1 inside).2)

/-- Nothing but the tag is new to the document. -/
theorem Ended.spanned_push (ended : Ended s) {tag : Tag} {ch : CharCode} {ack : Bool} {p : Tag → Bool}
    (out : p tag = false) : (s.push tag ch ack).spanned.filter p = s.spanned.filter p := by
  rw [spanned, spanned, List.filter_append, List.filter_append, List.filter_filter, List.filter_filter, push_ppsTags,
    sort, SortedList.filter_push ended.sorted (by simp [out])]

end Spanned

/-! ## When the screen follows -/

/-- The text of a list with the copies of one tag set apart. -/
theorem textOf_copies {Tag : Type} (s : Pps Tag) (A B : List Tag) (t : Tag) (n : Nat) :
    s.textOf (A ++ (List.replicate n t ++ B)) =
      s.textOf A ++ ((if s.shown t then List.replicate n (s.char t) else []) ++ s.textOf B) := by
  rw [textOf_append, textOf_append]
  congr 2
  by_cases h : s.shown t <;> simp [textOf, h]

section Follows

variable {Tag Num : Type} [LinearOrder Tag] [BigTag Tag Num]

/-- The screen follows the change.  An inserted tag is a hidden `'1'`, or lies from
`'0'` up to below `'1'` and is new to the list or shows the same character already,
and the editor inserts where the document has the tag (or where that makes no
difference).  A deleted tag that the document shows is there once, and the editor
removes its character (or one that makes no difference); for any other the editor
removes nothing. -/
def Follows (T : Trix) (s : Pps Tag) (e : Editor) (tag : Tag) (ch : CharCode) : Prop :=
  if ch ≠ 0 then
    let j := T.place e (s.visibleBefore tag : Nat)
    (if tag = tag1 then s.shown tag = false
      else tag0 ≤ tag ∧ tag < tag1 ∧
        (s.ppsTags.count tag = 0 ∨ s.shown tag ∧ s.char tag = fromCharCode ch)) ∧
      splice e.text j j [fromCharCode ch] =
        splice e.text (s.offsetOf tag) (s.offsetOf tag) [fromCharCode ch]
  else
    let j := T.place e (s.index tag + 1)
    if s.shown tag ∧ s.spanned.count tag ≠ 0 then
      s.spanned.count tag = 1 ∧ j ≠ 0 ∧
        splice e.text (j - 1) j [] = splice e.text (s.offsetOf tag) (s.offsetOf tag + 1) []
    else j = 0

instance (T : Trix) (s : Pps Tag) (e : Editor) (tag : Tag) (ch : CharCode) : Decidable (s.Follows T e tag ch) :=
  inferInstanceAs (Decidable (if _ ≠ _ then _ ∧ splice _ _ _ _ = splice _ _ _ _
    else if _ ∧ _ then _ = _ ∧ _ ≠ _ ∧ splice _ _ _ _ = splice _ _ _ _ else _ = _))

variable {T : Trix} {s : Pps Tag} {e : Editor}

/-- The text around the copies of a tag. -/
private theorem text_around (ended : Ended s) (tag : Tag) :
    s.text = some (s.textOf (s.spanned.filter fun t => t < tag) ++
      (List.replicate (if s.shown tag then s.spanned.count tag else 0) (s.char tag) ++
        s.textOf (s.spanned.filter fun t => tag < t))) := by
  have shape := SortedList.eq_filter_copies ended.sorted_spanned tag
  rw [ended.text_eq]
  conv_lhs => rw [shape, textOf_copies]
  split <;> rfl

/-- The text after the change: only the copies of its tag are others. -/
private theorem text_around_attach (ended : Ended s) (tag : Tag) (ch : CharCode) :
    (s.attach tag ch).text = some (s.textOf (s.spanned.filter fun t => t < tag) ++
      (List.replicate (if (s.attach tag ch).shown tag then (s.attach tag ch).spanned.count tag else 0)
          ((s.attach tag ch).char tag) ++
        s.textOf (s.spanned.filter fun t => tag < t))) := by
  have elsewhere : ∀ p : Tag → Bool, p tag = false →
      (s.attach tag ch).textOf ((s.attach tag ch).spanned.filter p) = s.textOf (s.spanned.filter p) := by
    intro p out
    have absent : tag ∉ s.spanned.filter p := fun member => by simp [out] at member
    by_cases zero : ch = 0
    · subst zero
      exact textOf_mark_of_notMem absent 0 true
    · rw [attach_of_ne s tag zero, ended.spanned_push out]
      exact textOf_mark_of_notMem absent ch true
  rw [text_around (ended.attach tag ch) tag, elsewhere _ (by simp), elsewhere _ (by simp)]

private theorem follows_insert (ended : Ended s) (synced : s.text = some e.text)
    (inside : e.caret ≤ e.text.length) (tag : Tag) {ch : CharCode} (ne : ch ≠ 0) :
    (s.attach tag ch).text = some (Editor.attach T s e tag ch).2.text ↔ Follows T s e tag ch := by
  have around := Option.some.inj (synced.symm.trans (text_around ended tag))
  have offset := offsetOf_eq s tag
  have pushed := attach_of_ne s tag ne
  have shown : (s.attach tag ch).shown tag = true := by
    simp [pushed, shown_eq_true, ne]
  have char : (s.attach tag ch).char tag = fromCharCode ch := by
    simp [pushed, Pps.char]
  have new := text_around_attach ended tag ch
  rw [shown, if_pos rfl, char] at new
  have bound := T.place_le e (s.visibleBefore tag : Nat) inside
  have screen : (Editor.attach T s e tag ch).2.text =
      splice e.text (T.place e (s.visibleBefore tag : Nat)) (T.place e (s.visibleBefore tag : Nat)) [fromCharCode ch] := by
    rw [Editor.attach_insert_text T s e tag ne, index_attach s tag ne, splice, List.append_assoc]
    rfl
  rw [new, screen, Option.some.injEq]
  rw [around] at bound ⊢
  rw [copies_eq_splice_iff _ _ _ _ _ _ bound, ← offset, ← around, ← and_assoc]
  rw [Follows, if_pos ne]
  refine and_congr_left fun _ => ?_
  by_cases last : tag = tag1
  · subst last
    rw [if_pos rfl, count_spanned_one, count_spanned_one]
    by_cases visible : s.shown tag1 <;> simp [visible]
  · have more : (s.attach tag ch).ppsTags.count tag = s.ppsTags.count tag + 1 := by
      rw [pushed, push_ppsTags, sort, (List.perm_insertionSort (· ≤ ·) _).count_eq, List.count_append,
        List.count_singleton_self]
    rw [if_neg last, count_spanned _ last, count_spanned _ last, more]
    by_cases between : tag0 ≤ tag ∧ tag < tag1
    · rw [if_pos between, if_pos between, ← and_assoc, and_iff_right between]
      by_cases visible : s.shown tag
      · simp [visible, or_iff_not_imp_left]
      · simp [visible]
    · rw [if_neg between, if_neg between, ← and_assoc]
      exact ⟨fun meets => absurd meets.1 (by split <;> omega), fun meets => absurd meets.1 between⟩

private theorem follows_delete (ended : Ended s) (synced : s.text = some e.text)
    (inside : e.caret ≤ e.text.length) (tag : Tag) :
    (s.attach tag 0).text = some (Editor.attach T s e tag 0).2.text ↔ Follows T s e tag 0 := by
  have around := Option.some.inj (synced.symm.trans (text_around ended tag))
  have offset := offsetOf_eq s tag
  have hidden : (s.attach tag 0).shown tag = false := by simp [attach_zero]
  have new := text_around_attach ended tag 0
  rw [hidden, if_neg Bool.false_ne_true, List.replicate_zero, List.nil_append] at new
  have bound := T.place_le e (s.index tag + 1) inside
  rw [new, Editor.attach_delete_text, Option.some.injEq, Follows, if_neg (by simp)]
  dsimp only
  by_cases stays : T.place e (s.index tag + 1) = 0
  · -- the editor removes nothing
    rw [Editor.deleteBackward_zero stays, Trix.setSelectedRange_text, stays]
    have none : s.textOf (s.spanned.filter fun t => t < tag) ++ s.textOf (s.spanned.filter fun t => tag < t) = e.text ↔
        (if s.shown tag then s.spanned.count tag else 0) = 0 := by
      rw [around, List.append_cancel_left_eq, List.self_eq_append_left]
      exact List.replicate_eq_nil_iff _
    rw [none]
    by_cases visible : s.shown tag <;> simp [visible, List.count_eq_zero]
  · rw [Editor.deleteBackward_text stays, Trix.setSelectedRange_caret, Trix.setSelectedRange_text]
    obtain ⟨j, is⟩ := Nat.exists_eq_succ_of_ne_zero stays
    rw [is, Nat.succ_eq_add_one] at bound ⊢
    rw [Nat.add_sub_cancel]
    have screen : e.text.take j ++ e.text.drop (j + 1) = splice e.text j (j + 1) [] := by simp [splice]
    rw [screen]
    rw [around] at bound ⊢
    rw [gone_eq_splice_iff _ _ _ _ bound, ← offset, ← around]
    by_cases visible : s.shown tag
    · by_cases absent : s.spanned.count tag = 0 <;> simp [visible, absent]
    · simp [visible]

/-- **When the screen follows a remote change.**  The screen showed the document
of a sorted tag list with both ends before; it shows the document after `attach`
exactly where `Follows` holds. -/
theorem attach_follows_iff (ended : Ended s) (synced : s.text = some e.text)
    (inside : e.caret ≤ e.text.length) (tag : Tag) (ch : CharCode) :
    (Editor.attach T s e tag ch).1.text = some (Editor.attach T s e tag ch).2.text ↔
      Follows T s e tag ch := by
  rw [Editor.attach_fst]
  by_cases zero : ch = 0
  · subst zero
    exact follows_delete ended synced inside tag
  · exact follows_insert ended synced inside tag zero

/-- In a framed list nothing is visible but what the document shows. -/
theorem Framed.offsetOf_eq (framed : Framed s) (tag : Tag) : s.offsetOf tag = s.visibleBefore tag := by
  have last : [(tag1 : Tag)].countP (fun t => s.shown t && decide (t < tag)) = 0 := by
    simp [shown_eq_false.2 framed.hidden1]
  rw [offsetOf, spanned, List.countP_append, last, Nat.add_zero, List.countP_filter, visibleBefore]
  refine List.countP_congr fun t member => ?_
  by_cases visible : s.shown t
  · have between := framed.between_of_shown member visible
    simp [between.1.le, between.2]
  · simp [visible]

/-- In a framed list the screen follows an insertion between the ends that is new or
shows the same character already. -/
theorem Framed.follows_insert_iff (framed : Framed s) (synced : s.text = some e.text) {tag : Tag} (between : Between tag)
    {ch : CharCode} (ne : ch ≠ 0) :
    Follows T s e tag ch ↔ tag ∉ s.ppsTags ∨ s.shown tag ∧ s.char tag = fromCharCode ch := by
  have le : s.visibleBefore tag ≤ e.text.length :=
    (s.visibleBefore_le tag).trans_eq (framed.length_text synced).symm
  rw [Follows, if_pos ne]
  dsimp only
  rw [T.place_of_le e _ le, framed.offsetOf_eq, if_neg between.2.ne, and_iff_left rfl,
    and_iff_right between.1.le, and_iff_right between.2, List.count_eq_zero]

/-- And a deletion of a visible tag that is there once, and any other for which the
editor removes nothing. -/
theorem Framed.follows_delete_iff (framed : Framed s) (synced : s.text = some e.text) (tag : Tag) :
    Follows T s e tag 0 ↔ (tag ∈ s.ppsTags ∧ s.shown tag → s.ppsTags.count tag = 1) ∧
      (¬ (tag ∈ s.ppsTags ∧ s.shown tag) → T.place e (s.index tag + 1) = 0) := by
  rw [Follows, if_neg (by simp)]
  dsimp only
  by_cases here : tag ∈ s.ppsTags ∧ s.shown tag
  · obtain ⟨member, visible⟩ := here
    have between := framed.between_of_shown member visible
    have count : s.spanned.count tag = s.ppsTags.count tag := by
      rw [count_spanned s between.2.ne, if_pos ⟨between.1.le, between.2⟩]
    have some : s.ppsTags.count tag ≠ 0 := (List.count_pos_iff.2 member).ne'
    have le : s.visibleBefore tag + 1 ≤ e.text.length :=
      (s.visibleBefore_lt member visible).trans_eq (framed.length_text synced).symm
    have place : T.place e (s.index tag + 1) = s.visibleBefore tag + 1 := by
      rw [s.index_of_mem member]
      exact T.place_of_le e _ le
    rw [count, if_pos ⟨visible, some⟩, place, framed.offsetOf_eq]
    simp [member, visible]
  · have absent : ¬ (s.shown tag ∧ s.spanned.count tag ≠ 0) := by
      rintro ⟨visible, listed⟩
      have ne : tag ≠ tag1 := by
        rintro rfl
        exact here ⟨framed.one_mem, visible⟩
      rw [count_spanned s ne] at listed
      split at listed
      · exact here ⟨List.count_pos_iff.1 (Nat.pos_of_ne_zero listed), visible⟩
      · exact listed rfl
    rw [if_neg absent]
    exact ⟨fun nothing => ⟨fun meets => absurd meets here, fun _ => nothing⟩, fun meets => meets.2 here⟩

end Follows

end Pps

end ColabEdit.Browser
