/-
# ColabEdit.Browser.Input -- what the editor does by itself

The reaction of the Trix editor of the page (`trix-core.js`) to a key press, a
backspace and the call `deleteInDirection('backward')`, in a text without
attributes and attachments.  The handlers of the page see the same events and
change the tag list; they differ from the editor in two ways.  Enter puts a line
feed into the text, where the page stores the code 13.  A backspace at a caret
takes the whole code point before it, where the page hides one unit.
-/
import ColabEdit.Browser.Editor
import ColabEdit.Browser.Typing

namespace ColabEdit.Browser

open ColabEdit.Theory

set_option autoImplicit false

/-! ## Code points -/

namespace UTF16String

def isHigh (u : UInt16) : Bool := 0xD800 ≤ u && u ≤ 0xDBFF

def isLow (u : UInt16) : Bool := 0xDC00 ≤ u && u ≤ 0xDFFF

/-- The code points of a string, each as its units: a pair of surrogates is one. -/
def codepoints : Text → List Text
  | [] => []
  | [u] => [[u]]
  | u :: v :: rest =>
      if isHigh u && isLow v then [u, v] :: codepoints rest else [u] :: codepoints (v :: rest)

def offsetFromUCS2Offset (s : Text) (t : Nat) : Nat := (codepoints (s.take t)).length

def offsetToUCS2Offset (s : Text) (t : Int) : Nat := ((codepoints s).take t.toNat).flatten.length

/-- A pair of surrogates ends at the offset. -/
def pairEnds (s : Text) (p : Nat) : Bool :=
  decide (2 ≤ p) && (s[p - 2]?.any isHigh && s[p - 1]?.any isLow)

theorem codepoints_ne_nil {s : Text} (some : s ≠ []) : (codepoints s).length ≠ 0 := by
  fun_cases codepoints s <;> simp at some ⊢

end UTF16String

/-- `composition.translateUTF16PositionFromOffset`. -/
def translateUTF16PositionFromOffset (s : Text) (t : Nat) (e : Int) : Nat :=
  UTF16String.offsetToUCS2Offset s (UTF16String.offsetFromUCS2Offset s t + e)

open UTF16String in
/-- One code point back is one unit back where no pair ends. -/
theorem translate_back {s : Text} {p : Nat} (bound : p ≤ s.length) (single : pairEnds s p = false) :
    translateUTF16PositionFromOffset s p (-1) = p - 1 := by
  unfold translateUTF16PositionFromOffset offsetFromUCS2Offset offsetToUCS2Offset
  have nat : ∀ n : Nat, ((n : Int) + -1).toNat = n - 1 := fun n => by omega
  rw [nat]
  -- the induction follows the code points; an offset is at the start, in the first one or behind it
  fun_induction codepoints s generalizing p with
  | case1 =>
      have zero : p = 0 := by simpa using bound
      simp [zero]
  | case2 u =>
      have small : p = 0 ∨ p = 1 := by simp at bound; omega
      rcases small with rfl | rfl <;> simp [codepoints]
  | case3 u v rest pair ih =>
      match p with
      | 0 => simp [codepoints]
      | 1 => simp [codepoints]
      | 2 => simp_all [pairEnds]
      | q + 3 =>
          have bound' : q + 1 ≤ rest.length := by simpa using bound
          have shifted : pairEnds rest (q + 1) = false := by
            cases q with
            | zero => simp [pairEnds]
            | succ q => simpa [pairEnds] using single
          have before := ih bound' shifted
          have some := codepoints_ne_nil (s := rest.take (q + 1)) (by
            intro empty
            have := congrArg List.length empty
            rw [List.length_take_of_le bound'] at this
            cases this)
          obtain ⟨n, count⟩ := Nat.exists_eq_succ_of_ne_zero some
          rw [count] at before
          simp only [List.take_succ_cons, codepoints, pair, if_true, List.length_cons, count]
          simp at before ⊢
          omega
  | case4 u v rest pair ih =>
      match p with
      | 0 => simp [codepoints]
      | 1 => simp [codepoints]
      | q + 2 =>
          have bound' : q + 1 ≤ (v :: rest).length := by simpa using bound
          have shifted : pairEnds (v :: rest) (q + 1) = false := by
            cases q with
            | zero => simp [pairEnds]
            | succ q => simpa [pairEnds] using single
          have before := ih bound' shifted
          have some := codepoints_ne_nil (s := (v :: rest).take (q + 1)) (by simp)
          obtain ⟨n, count⟩ := Nat.exists_eq_succ_of_ne_zero some
          rw [count] at before
          simp only [List.take_succ_cons] at count ⊢
          simp only [codepoints, pair, if_false, Bool.false_eq_true, List.length_cons, count]
          simp at before ⊢
          omega

/-! ## The reaction of the editor -/

namespace Editor

/-- `deleteInDirection('backward')` at a caret. -/
def deleteInDirection (e : Editor) : Editor :=
  let start := translateUTF16PositionFromOffset e.text e.caret (-1)
  { text := splice e.text start e.caret [], caret := start }

/-- Where no pair of surrogates ends at the caret, one unit is deleted. -/
theorem deleteInDirection_eq {e : Editor} (inside : e.caret ≤ e.text.length)
    (single : UTF16String.pairEnds e.text e.caret = false) : e.deleteInDirection = e.deleteBackward := by
  rw [deleteInDirection, translate_back inside single]
  by_cases zero : e.caret = 0
  · obtain ⟨text, caret⟩ := e
    dsimp only at zero
    subst zero
    simp [deleteBackward]
  · simp [deleteBackward, zero, splice]

/-- What a key press puts into the text: `insertLineBreak` for Enter, else the
character. -/
def pressed (ch : CharCode) : Text := if ch = 13 then [10] else [fromCharCode ch]

/-- The text and the caret after a key press or a backspace over a selection. -/
def input (text : Text) : Edit → Editor
  | .type ch start stop =>
      -- a key press without a character is none of the editor's
      if ch = 0 then { text := text, caret := start }
      else { text := splice text start stop (pressed ch), caret := start + 1 }
  | .backspace start stop =>
      if stop = start then deleteInDirection { text := text, caret := start }
      else { text := splice text start stop [], caret := start }

/-- Where the editor leaves its caret. -/
def caretAfter : Edit → Nat
  | .type ch start _ => start + (Pps.units ch).length
  | .backspace start stop => if stop = start then start - 1 else start

/-- The editor edits as a plain buffer of units: the key is not Enter and is pressed
over nothing, and a backspace at a caret meets no pair of surrogates. -/
def Unitary (text : Text) : Edit → Prop
  | .type ch start stop => stop = start ∧ ch ≠ 13
  | .backspace start stop => stop = start → UTF16String.pairEnds text start = false

instance (text : Text) : (e : Edit) → Decidable (Unitary text e)
  | .type _ _ _ => inferInstanceAs (Decidable (_ = _ ∧ _ ≠ _))
  | .backspace _ _ => inferInstanceAs (Decidable (_ = _ → _ = _))

theorem input_eq {text : Text} {e : Edit} (valid : e.Valid text) (unitary : Unitary text e) :
    input text e = { text := e.apply text, caret := caretAfter e } := by
  cases e with
  | type ch start stop =>
      obtain ⟨rfl, ne⟩ := unitary
      by_cases zero : ch = 0
      · simp [input, Edit.apply, caretAfter, Pps.units, zero]
      · simp [input, Edit.apply, caretAfter, Pps.units, pressed, zero, ne]
  | backspace start stop =>
      obtain ⟨le, bound⟩ := valid
      by_cases caret : stop = start
      · have single := unitary caret
        simp only [input, Edit.apply, caretAfter, caret, if_true]
        rw [deleteInDirection, translate_back (le.trans bound) single]
      · simp only [input, Edit.apply, caretAfter, caret, if_false]

end Editor

end ColabEdit.Browser
