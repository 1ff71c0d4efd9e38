/-
# ColabEdit.Browser.Caret -- where a remote change leaves the caret

`PPS.attach` moves the caret to make its edit and puts it back by comparing two
offsets that it read before the edit: that of the caret and that of the tag.

`caret_kept_iff` says exactly when the caret ends where the text around it went,
for every tag list and every text.  An insertion always keeps it.  A deletion keeps
a caret at the start, and else asks for a tag in the list: visible and counted before
the caret, or counted behind it with the text still reaching up to the caret.

Pole: `caret_slips`, the deletion of the character behind the caret and the
deletion of a tag the page does not know.
-/
import ColabEdit.Browser.Editor

namespace ColabEdit.Browser

open BigTag
open ColabEdit.Theory

set_option autoImplicit false

/-! ## The caret of the editor -/

namespace Editor

theorem insertString_length (e : Editor) (u : UInt16) : (e.insertString u).text.length = e.text.length + 1 := by
  simp only [insertString, List.length_append, List.length_cons, List.length_take, List.length_drop]
  omega

theorem deleteBackward_length {e : Editor} (inside : e.caret ≤ e.text.length) :
    e.text.length ≤ e.deleteBackward.text.length + 1 ∧ e.deleteBackward.caret ≤ e.deleteBackward.text.length := by
  by_cases zero : e.caret = 0
  · rw [deleteBackward_zero zero]
    omega
  · simp only [deleteBackward, zero, if_false, List.length_append, List.length_take, List.length_drop]
    omega

variable {Tag : Type} [LinearOrder Tag]

/-- The screen after an insertion, with the offset of the tag counted. -/
theorem attach_insert (T : Trix) (s : Pps Tag) (e : Editor) (tag : Tag) {ch : CharCode} (ne : ch ≠ 0) :
    let inserted := (T.setSelectedRange e (s.visibleBefore tag : Nat)).insertString (fromCharCode ch)
    (attach T s e tag ch).2 =
      if e.caret < s.visibleBefore tag then T.setSelectedRange inserted e.caret
      else if s.visibleBefore tag < e.caret then T.setSelectedRange inserted (e.caret + 1 : Nat)
      else inserted := by
  unfold attach attachBy
  rw [if_pos ne]
  dsimp only
  rw [Pps.index_attach s tag ne]
  by_cases behind : e.caret < s.visibleBefore tag
  · rw [if_pos (by omega), if_pos behind]
  by_cases before : s.visibleBefore tag < e.caret
  · rw [if_neg (by omega), if_pos (by omega), if_neg behind, if_pos before]
    push_cast
    rfl
  · rw [if_neg (by omega), if_neg (by omega), if_neg behind, if_neg before]

/-- The screen after a deletion. -/
theorem attach_delete (T : Trix) (s : Pps Tag) (e : Editor) (tag : Tag) :
    let deleted := (T.setSelectedRange e (s.index tag + 1)).deleteBackward
    (attach T s e tag 0).2 =
      if s.index tag > e.caret then T.setSelectedRange deleted e.caret
      else T.setSelectedRange deleted (e.caret - 1 : Int) := by
  unfold attach attachBy
  rw [if_neg (by simp)]
  dsimp only
  split <;> rfl

/-- What every insertion does to the caret. -/
theorem attach_insert_caret (T : Trix) (s : Pps Tag) {e : Editor} (inside : e.caret ≤ e.text.length)
    (tag : Tag) {ch : CharCode} (ne : ch ≠ 0) :
    (attach T s e tag ch).2.caret ≤ (attach T s e tag ch).2.text.length ∧
      (e.caret < s.visibleBefore tag → (attach T s e tag ch).2.caret = e.caret) ∧
      (s.visibleBefore tag < e.caret → (attach T s e tag ch).2.caret = e.caret + 1) ∧
      (s.visibleBefore tag = e.caret → (attach T s e tag ch).2.caret = e.caret + 1) := by
  have longer := insertString_length (T.setSelectedRange e (s.visibleBefore tag : Nat)) (fromCharCode ch)
  rw [Trix.setSelectedRange_text] at longer
  rw [attach_insert T s e tag ne]
  by_cases behind : e.caret < s.visibleBefore tag
  · have placed := T.place_of_le ((T.setSelectedRange e (s.visibleBefore tag : Nat)).insertString
      (fromCharCode ch)) e.caret (by omega)
    simp only [if_pos behind, Trix.setSelectedRange_caret, Trix.setSelectedRange_text, placed, longer]
    exact ⟨by omega, fun _ => trivial, fun lt => by omega, fun same => by omega⟩
  by_cases before : s.visibleBefore tag < e.caret
  · have placed := T.place_of_le ((T.setSelectedRange e (s.visibleBefore tag : Nat)).insertString
      (fromCharCode ch)) (e.caret + 1) (by omega)
    simp only [if_neg behind, if_pos before, Trix.setSelectedRange_caret, Trix.setSelectedRange_text, placed,
      longer]
    exact ⟨by omega, fun lt => by omega, fun _ => trivial, fun same => by omega⟩
  · have same : s.visibleBefore tag = e.caret := by omega
    have placed := T.place_of_le e (s.visibleBefore tag) (by omega)
    have moved : ((T.setSelectedRange e (s.visibleBefore tag : Nat)).insertString (fromCharCode ch)).caret =
        s.visibleBefore tag + 1 := congrArg (· + 1) placed
    simp only [if_neg behind, if_neg before, moved, longer]
    exact ⟨by omega, fun lt => by omega, fun lt => by omega, fun _ => by omega⟩

/-- The text reaches up to the caret when a deletion at a tag with `k` visible tags
before it is done: it goes on behind the caret, or the editor removes nothing. -/
def Room (T : Trix) (e : Editor) (k : Nat) : Prop := e.caret < e.text.length ∨ T.place e (k + 1 : Nat) = 0

/-- What every deletion does to the caret: it goes back by one, or, if the tag is in
the list and counted behind it, stays where there is room. -/
theorem attach_delete_caret (T : Trix) (s : Pps Tag) {e : Editor} (inside : e.caret ≤ e.text.length) (tag : Tag) :
    (attach T s e tag 0).2.caret ≤ (attach T s e tag 0).2.text.length ∧
      (tag ∈ s.ppsTags ∧ e.caret < s.visibleBefore tag →
        ((attach T s e tag 0).2.caret = e.caret ↔ Room T e (s.visibleBefore tag))) ∧
      (¬ (tag ∈ s.ppsTags ∧ e.caret < s.visibleBefore tag) → (attach T s e tag 0).2.caret = e.caret - 1) := by
  obtain ⟨shorter, within⟩ := deleteBackward_length (e := T.setSelectedRange e (s.index tag + 1))
    (T.place_le e _ inside)
  rw [Trix.setSelectedRange_text] at shorter
  rw [attach_delete]
  by_cases behind : tag ∈ s.ppsTags ∧ e.caret < s.visibleBefore tag
  · have counted := s.index_of_mem behind.1
    rw [if_pos (by omega)]
    refine ⟨T.place_le _ _ within, fun _ => ?_, fun other => absurd behind other⟩
    rw [Trix.setSelectedRange_caret]
    have at_tag : T.place e (s.index tag + 1) = T.place e (s.visibleBefore tag + 1 : Nat) := by
      rw [counted]
      rfl
    by_cases reach : e.caret ≤ (T.setSelectedRange e (s.index tag + 1)).deleteBackward.text.length
    · have placed := T.place_of_le _ e.caret reach
      refine ⟨fun _ => ?_, fun _ => placed⟩
      rw [Room, ← at_tag]
      by_cases nothing : T.place e (s.index tag + 1) = 0
      · exact .inr nothing
      · left
        rw [deleteBackward_text nothing, Trix.setSelectedRange_caret, Trix.setSelectedRange_text, List.length_append,
          List.length_take, List.length_drop] at reach
        have := T.place_le e (s.index tag + 1) inside
        omega
    · -- the caret stood at the end of a text that lost a character
      have missed := T.place_le (T.setSelectedRange e (s.index tag + 1)).deleteBackward e.caret within
      refine ⟨fun kept => absurd kept (by omega), fun room => ?_⟩
      rw [Room, ← at_tag] at room
      rcases room with longer | nothing
      · omega
      · rw [deleteBackward_zero nothing, Trix.setSelectedRange_text] at reach
        exact absurd inside reach
  · have before : ¬ s.index tag > e.caret := by
      by_cases member : tag ∈ s.ppsTags
      · have counted := s.index_of_mem member
        have le : ¬ e.caret < s.visibleBefore tag := fun lt => behind ⟨member, lt⟩
        omega
      · have unknown := s.index_of_notMem member
        omega
    rw [if_neg before]
    refine ⟨T.place_le _ _ within, fun other => absurd other behind, fun _ => ?_⟩
    rw [Trix.setSelectedRange_caret]
    by_cases zero : e.caret = 0
    · rw [T.place_of_neg _ _ (by omega), zero]
    · rw [show (e.caret - 1 : Int) = ((e.caret - 1 : Nat) : Int) by omega]
      exact T.place_of_le _ _ (by omega)

/-! ## When the caret is kept -/

/-- The caret went with the text: behind an insertion before it, back with a
deletion before it, and nowhere for a deletion that removes no character. -/
def CaretKept (s : Pps Tag) (e e' : Editor) (tag : Tag) (ch : CharCode) : Prop :=
  (if ch ≠ 0 then
    tag ∉ s.ppsTags →
      (e.caret < s.visibleBefore tag → e'.caret = e.caret) ∧
      (s.visibleBefore tag < e.caret → e'.caret = e.caret + 1) ∧
      (s.visibleBefore tag = e.caret → e'.caret = e.caret ∨ e'.caret = e.caret + 1)
  else
    (tag ∈ s.ppsTags ∧ s.shown tag →
      e'.caret = if s.visibleBefore tag < e.caret then e.caret - 1 else e.caret) ∧
    (¬ (tag ∈ s.ppsTags ∧ s.shown tag) → e'.caret = e.caret)) ∧
  e'.caret ≤ e'.text.length

/-- The change is an insertion, or the caret stands at the start, or the tag is in
the list: visible and counted before the caret, or counted behind it where there is
room. -/
def Clear (T : Trix) (s : Pps Tag) (e : Editor) (tag : Tag) (ch : CharCode) : Prop :=
  ch ≠ 0 ∨ e.caret = 0 ∨
    tag ∈ s.ppsTags ∧
      (s.shown tag ∧ s.visibleBefore tag < e.caret ∨
        e.caret < s.visibleBefore tag ∧ Room T e (s.visibleBefore tag))

/-- **When the caret is kept**: after every insertion, and after a deletion
exactly where it is `Clear`. -/
theorem caret_kept_iff (T : Trix) (s : Pps Tag) {e : Editor} (inside : e.caret ≤ e.text.length) (tag : Tag)
    (ch : CharCode) : CaretKept s e (attach T s e tag ch).2 tag ch ↔ Clear T s e tag ch := by
  by_cases zero : ch = 0
  · subst zero
    obtain ⟨bounded, behind, before⟩ := attach_delete_caret T s inside tag
    rw [CaretKept, and_iff_left bounded]
    simp only [Clear, ne_eq, not_true_eq_false, if_false, false_or]
    by_cases later : tag ∈ s.ppsTags ∧ e.caret < s.visibleBefore tag
    · -- the tag is counted behind the caret: only a text that got too short moves it
      have stays := behind later
      obtain ⟨member, lt⟩ := later
      have nonzero : e.caret = 0 → Room T e (s.visibleBefore tag) := fun start => by
        by_cases empty : e.caret < e.text.length
        · exact .inl empty
        · have le := T.place_le e (s.visibleBefore tag + 1 : Nat) inside
          exact .inr (by omega)
      rw [if_neg (by omega)]
      by_cases shown : s.shown tag
      · simp only [member, shown, and_self, true_implies, not_true_eq_false, false_implies, and_true, true_and, stays]
        exact ⟨fun room => .inr (.inr ⟨lt, room⟩), fun clear => clear.elim nonzero fun other =>
          other.elim (fun wrong => by omega) And.right⟩
      · simp only [member, shown, Bool.false_eq_true, and_false, false_implies, not_false_eq_true, true_implies,
          true_and, false_and, false_or, stays]
        exact ⟨fun room => .inr ⟨lt, room⟩, fun clear => clear.elim nonzero And.right⟩
    · rw [before later]
      by_cases member : tag ∈ s.ppsTags
      · have le : ¬ e.caret < s.visibleBefore tag := fun lt => later ⟨member, lt⟩
        by_cases shown : s.shown tag
        · simp only [member, shown, and_self, true_implies, not_true_eq_false, false_implies, and_true, true_and,
            le, false_and, or_false]
          split <;> omega
        · simp only [member, shown, Bool.false_eq_true, and_false, false_implies, not_false_eq_true, true_implies,
            true_and, le, false_and, or_false]
          omega
      · simp only [member, false_and, false_implies, not_false_eq_true, true_implies, true_and, or_false]
        omega
  · obtain ⟨bounded, behind, before, same⟩ := attach_insert_caret T s inside tag zero
    rw [CaretKept, and_iff_left bounded]
    simp only [Clear, ne_eq, zero, not_false_eq_true, if_true, true_or, iff_true]
    exact fun _ => ⟨behind, before, fun meets => Or.inr (same meets)⟩

/-- A page that received `a` and `b`. -/
def received : Pps ℚ := (Pps.fresh.attach (1 / 4) 97).attach (3 / 4) 98

/-- The caret stands behind `b` when `a` is deleted. -/
theorem caret_kept_behind :
    CaretKept received { text := [97, 98], caret := 2 }
      (attach Trix.clamped received { text := [97, 98], caret := 2 } (1 / 4) 0).2 (1 / 4) 0 := by
  refine (caret_kept_iff Trix.clamped received (by decide) (1 / 4) 0).2 ?_
  exact Or.inr (Or.inr ⟨by decide +kernel, Or.inl (by decide +kernel)⟩)

end Editor

/-! ## Pole -/

/-- The caret stands between `a` and `b`.  It moves to the start when `b` is
deleted behind it, and when a tag is deleted that the page does not know. -/
theorem Editor.caret_slips :
    let e : Editor := { text := [97, 98], caret := 1 }
    received.text = some e.text ∧
      3 / 4 ∈ received.ppsTags ∧ received.visibleBefore (3 / 4) = e.caret ∧
      (attach Trix.clamped received e (3 / 4) 0).2.caret = 0 ∧
      ¬ CaretKept received e (attach Trix.clamped received e (3 / 4) 0).2 (3 / 4) 0 ∧
      1 / 2 ∉ received.ppsTags ∧ (attach Trix.clamped received e (1 / 2) 0).2.caret = 0 ∧
      ¬ CaretKept received e (attach Trix.clamped received e (1 / 2) 0).2 (1 / 2) 0 := by
  refine ⟨by decide +kernel, by decide +kernel, by decide +kernel, by decide +kernel, ?_,
    by decide +kernel, by decide +kernel, ?_⟩
  · unfold CaretKept
    decide +kernel
  · unfold CaretKept
    decide +kernel

end ColabEdit.Browser
