/-
# ColabEdit.Browser.Desk -- a page and its editor, edit by edit

A `Desk` is a page with the Trix editor in front of it.  A key press, a backspace
or a paste changes both: the editor by itself, at the selection it shows
(`Editor.input`), the tag list by the handler, at the list index of the caret.  An
entry of a reply changes the list by its tag and the editor by the offset that
`PPS.index` counted.  Nothing compares the two again.  The tags are exact rational
numbers.

`Clean` says, on the desk before an action, that both change alike: a character is
typed over nothing, is not Enter, and has room for its tag between neighbours that
are not shifted by hidden tags; a backspace removes visible tags at an offset that
is not shifted; an entry inserts a tag that is new or deletes one that is visible;
and what the editor deletes is one unit, not a pair of surrogates.
`screen_kept`: in every run of clean actions the editor shows the document of the
page in every state, with the caret inside.
-/
import ColabEdit.Browser.Caret
import ColabEdit.Browser.Input
import ColabEdit.Browser.Paste
import ColabEdit.Browser.Sentinels
import ColabEdit.Browser.Typing
import ColabEdit.Theory.Transition

namespace ColabEdit.Browser

open BigTag
open ColabEdit.Theory
open Pps (Between Framed)

set_option autoImplicit false

/-! ## Pages without repeated tags -/

/-- What every page of a clean run keeps. -/
structure Client.Kept (c : Client ℚ) : Prop where
  sound : c.doc.Sound
  strict : c.doc.ppsTags.Pairwise (· < ·)
  nonneg : 0 ≤ c.userPosition
  less : c.userPosition < c.userCount

/-- The character lands where it was typed: there is room for a tag between the
neighbours of the list index, and the text between the two offsets, if they differ,
repeats the character. -/
def Client.Lands (c : Client ℚ) (pos : Nat) (ch : CharCode) : Prop :=
  c.doc.Roomy c.userPosition c.userCount pos ∧ c.doc.Faithful (.type ch pos pos)

/-- Every turn of the loop of a paste lands. -/
def Client.LandsAll : Client ℚ → Nat → Text → Prop
  | _, _, [] => True
  | c, step, unit :: rest =>
      c.Lands step unit.toUInt32 ∧
        match c.insertText step unit.toUInt32 with
        | some (c', _) => c'.LandsAll (step + 1) rest
        | none => False

instance (c : Client ℚ) (pos : Nat) (ch : CharCode) : Decidable (c.Lands pos ch) :=
  inferInstanceAs (Decidable (c.doc.Roomy _ _ pos ∧ c.doc.Faithful _))

instance Client.LandsAll.decidable : (c : Client ℚ) → (step : Nat) → (units : Text) → Decidable (c.LandsAll step units)
  | _, _, [] => inferInstanceAs (Decidable True)
  | c, step, unit :: rest =>
      have : Decidable (match c.insertText step unit.toUInt32 with
          | some (c', _) => c'.LandsAll (step + 1) rest
          | none => False) :=
        match c.insertText step unit.toUInt32 with
        | some (c', _) => LandsAll.decidable c' (step + 1) rest
        | none => inferInstanceAs (Decidable False)
      inferInstanceAs (Decidable (c.Lands step unit.toUInt32 ∧ _))

namespace Client.Kept

variable {c : Client ℚ} {pos : Nat} {ch : CharCode}

theorem text_eq (kept : Kept c) : c.doc.text = some c.shownText := kept.sound.framed.text_eq

theorem offset_le (kept : Kept c) (p : Nat) : c.doc.offset p ≤ p := by
  obtain ⟨mid, ends, -⟩ := kept.sound.framed.ends
  exact c.doc.offset_le p ends (Pps.shown_eq_false.2 kept.sound.framed.hidden0)

/-- **A character that lands.** -/
theorem insertText (kept : Kept c) (valid : pos ≤ c.shownText.length) (lands : c.Lands pos ch) :
    ∃ c' t, c.insertText pos ch = some (c', t) ∧ Kept c' ∧
      c'.shownText = splice c.shownText pos pos (Pps.units ch) := by
  have framed := kept.sound.framed
  have flagged := kept.sound.flagged
  obtain ⟨room, -, faithful⟩ := lands
  have inside : pos ≤ c.doc.visible.length := by rwa [Solo.visible_length]
  obtain ⟨A, B, l, r, a, b, place⟩ := Pps.exists_place framed flagged inside
  obtain ⟨left, right⟩ := (Pps.strict_iff_roomy framed flagged place kept.nonneg kept.less).2 room
  have inserted := Pps.insert_at framed flagged inside place c.userPosition c.userCount ch
  generalize c.doc.middle c.userPosition c.userCount l r a b = t at left right inserted
  have fresh : t ∉ c.doc.ppsTags := fun member => by
    have sorted := framed.sorted
    rw [place.shape] at sorted member
    rcases SortedList.not_between sorted member with low | high
    · exact absurd left (not_lt.2 low)
    · exact absurd right (not_lt.2 high)
  have between : Between t := ⟨(framed.mem_bounds place.left_mem).1.trans_lt left,
    right.trans_le (framed.mem_bounds place.right_mem).2⟩
  have pushed := Pps.push_between framed.sorted place.shape left.le right.le
  refine ⟨{ c with doc := c.doc.push t ch false, pendingChanges := c.pendingChanges.insert t ch }, t, ?_,
    ⟨kept.sound.push between ch false, ?_, kept.nonneg, kept.less⟩, ?_⟩
  · simp only [Client.insertText, inserted]
  · refine SortedList.strict_of_nodup (kept.sound.framed.push between ch false).sorted ?_
    show (Pps.sort (c.doc.ppsTags ++ [t])).Nodup
    rw [pushed]
    have nodup := kept.strict.imp ne_of_lt
    rw [place.shape] at nodup fresh
    have moved : (A ++ l :: t :: r :: B).Perm (t :: (A ++ l :: r :: B)) := by
      have grouped : A ++ l :: t :: r :: B = (A ++ [l]) ++ t :: (r :: B) := by simp
      rw [grouped]
      exact List.perm_middle.trans (by simp)
    exact moved.nodup_iff.2 (List.nodup_cons.2 ⟨fresh, nodup⟩)
  · show (c.doc.push t ch false).textOf (c.doc.push t ch false).ppsTags = _
    have grouped : c.doc.ppsTags = (A ++ [l]) ++ r :: B := by simp [place.shape]
    have front : c.doc.ppsTags.take (pos + 1) = A ++ [l] := by
      rw [grouped, List.take_left' (by simp [place.index])]
    have back : c.doc.ppsTags.drop (pos + 1) = r :: B := by
      rw [grouped, List.drop_left' (by simp [place.index])]
    rw [Pps.textOf_push_between place.shape pushed fresh, ← front, ← back, ← Pps.take_offset, ← Pps.drop_offset]
    change splice c.shownText (c.doc.offset pos) (c.doc.offset pos) (Pps.units ch) = _
    by_cases zero : ch = 0
    · simp [Pps.units, zero]
    · rw [Pps.units, if_neg zero]
      exact (splice_insert_eq_iff _ (kept.offset_le pos) _).2 (faithful.resolve_left zero)

/-- **A paste whose units all land.** -/
theorem pasteFrom (kept : Kept c) {units : Text} (nonzero : ∀ u ∈ units, u ≠ 0) {step : Nat}
    (valid : step ≤ c.shownText.length) (lands : c.LandsAll step units) :
    ∃ c' tags, c.pasteFrom step units = some (c', tags) ∧ Kept c' ∧
      c'.shownText = splice c.shownText step step units := by
  induction units generalizing c step with
  | nil => exact ⟨c, [], rfl, kept, (splice_nil_self _ _).symm⟩
  | cons unit rest ih =>
      obtain ⟨first, later⟩ := lands
      obtain ⟨c₁, t, typed, kept₁, text₁⟩ := kept.insertText valid first
      have unit_ne := nonzero unit (by simp)
      rw [Pps.units, if_neg (toUInt32_ne_zero unit_ne), fromCharCode_toUInt32] at text₁
      have longer : step + 1 ≤ c₁.shownText.length := by
        have := length_splice le_rfl valid [unit]
        rw [← text₁, List.length_singleton] at this
        omega
      rw [typed] at later
      obtain ⟨c', tags, ran, kept', text'⟩ :=
        ih kept₁ (fun u member => nonzero u (by simp [member])) longer later
      refine ⟨c', t :: tags, ?_, kept', ?_⟩
      · simp [Client.pasteFrom, typed, ran]
      · rw [text', text₁, splice_cons valid]

/-- **A backspace over visible tags at its own offset.** -/
theorem deleteText (kept : Kept c) {start stop : Nat} (le : start ≤ stop) (bound : stop ≤ c.shownText.length)
    (faithful : c.doc.Faithful (.backspace start stop)) :
    Kept (c.deleteText start stop) ∧
      (c.deleteText start stop).shownText = (Edit.backspace start stop).apply c.shownText := by
  obtain ⟨all, repeats⟩ := faithful
  -- both forms of a backspace delete the block from `p` up to `stop`
  generalize block : (if stop = start then start - 1 else start) = p at all repeats
  have range : backspaced start stop = List.range' (p + 1) (stop - p) := by
    subst block
    unfold backspaced
    by_cases caret : stop = start
    · subst caret
      cases stop with
      | zero => simp
      | succ q => simp
    · rw [if_neg (by simp [caret]), if_pos (by omega), if_neg caret]
  have short : p ≤ stop := by
    subst block
    split <;> omega
  have expected : (Edit.backspace start stop).apply c.shownText = splice c.shownText p (p + (stop - p)) [] := by
    subst block
    rw [Edit.apply]
    by_cases caret : stop = start
    · rw [if_pos caret, if_pos caret, caret, Nat.add_sub_cancel' (by omega)]
    · rw [if_neg caret, if_neg caret, Nat.add_sub_cancel' le]
  have room := kept.sound.framed.length_lt
  rw [Solo.visible_length] at room
  have chosen : c.deleteTags (List.range' (p + 1) (stop - p)) = (c.doc.ppsTags.drop (p + 1)).take (stop - p) :=
    Pps.selected kept.sound.framed (by rw [Solo.visible_length]; omega)
  have between : ∀ t ∈ (c.doc.ppsTags.drop (p + 1)).take (stop - p), Between t := fun t member =>
    kept.sound.framed.between_of_shown (List.mem_of_mem_drop (List.mem_of_mem_take member)) (all t member)
  have rest := List.take_append_drop (stop - p) (c.doc.ppsTags.drop (p + 1))
  rw [List.drop_drop] at rest
  have shape : c.doc.ppsTags = c.doc.ppsTags.take (p + 1) ++
      ((c.doc.ppsTags.drop (p + 1)).take (stop - p) ++ c.doc.ppsTags.drop (p + 1 + (stop - p))) := by
    rw [rest, List.take_append_drop]
  have text := Pps.textOf_hideAll shape (kept.strict.imp ne_of_lt)
  have visible : ((c.doc.ppsTags.drop (p + 1)).take (stop - p)).countP c.doc.shown = stop - p := by
    rw [List.countP_eq_length.2 all, List.length_take, List.length_drop]
    omega
  have back : c.shownText.drop (c.doc.offset p + (stop - p)) =
      c.doc.textOf (c.doc.ppsTags.drop (p + 1 + (stop - p))) := by
    rw [← visible, c.doc.offset_add p, Pps.drop_offset, visible, Nat.add_right_comm]
  rw [Client.deleteText, range, Client.deletePositions, chosen, Client.hideAll_eq, expected]
  have sound := kept.sound.hideAll between
  refine ⟨⟨sound, ?_, kept.nonneg, kept.less⟩, ?_⟩
  · show (List.foldl Pps.hide c.doc _).ppsTags.Pairwise (· < ·)
    rw [(Pps.hideAll_spec c.doc _).1]
    exact kept.strict
  · unfold Client.shownText at back ⊢
    rw [text, ← back, ← Pps.take_offset]
    have shifted := (splice_delete_eq_iff c.shownText (kept.offset_le p) (stop - p)).2 repeats
    rw [← shifted, splice, List.append_nil]

end Client.Kept

/-- A deletion that is received keeps the page sound, whatever its tag. -/
theorem Pps.Sound.attach_zero {s : Pps ℚ} (sound : s.Sound) (t : ℚ) : (s.attach t 0).Sound := by
  have acked : ∀ u, s.ppsAck u = some true → (s.mark t 0 true).ppsAck u = some true := fun u acked => by
    by_cases same : u = t
    · rw [same, Pps.mark_ppsAck_self]
    · rw [Pps.mark_ppsAck_ne s same, acked]
  refine ⟨sound.framed.mark_zero t true, ⟨fun u member => ?_, acked _ sound.flagged.zero, acked _ sound.flagged.one⟩,
    fun u member => sound.known_mark t 0 true u (Or.inl member)⟩
  by_cases same : u = t
  · exact ⟨true, by rw [same]; exact Pps.mark_ppsAck_self s t 0 true⟩
  · rw [Pps.attach_zero, Pps.mark_ppsAck_ne s same]
    exact sound.flagged.flag u member

/-! ## The page with its editor -/

structure Desk where
  client : Client ℚ
  editor : Editor

inductive Desk.Action where
  /-- A key press or a backspace with the selection of the editor. -/
  | edit (e : Edit)
  /-- A text pasted at a caret. -/
  | paste (start : Nat) (text : Text)
  /-- An entry of a reply. -/
  | receive (tag : ℚ) (ch : CharCode)
  /-- The counts of a reply. -/
  | share (userCount userPosition : Int)
  /-- The tick of `startSendChanges`. -/
  | send
  | sendSuccess

namespace Desk

instance (T : Text) : (e : Edit) → Decidable (e.Valid T)
  | .type _ start stop => inferInstanceAs (Decidable (start ≤ stop ∧ stop ≤ T.length))
  | .backspace start stop => inferInstanceAs (Decidable (start ≤ stop ∧ stop ≤ T.length))

/-- The page after a login, with the empty editor. -/
def start (userCount userPosition : Int) : Desk := ⟨Client.start userCount userPosition, ⟨[], 0⟩⟩

/-- An entry of a reply is attached, in front of an editor that deletes code points. -/
def receive (T : Trix) (s : Desk) (tag : ℚ) (ch : CharCode) : Desk :=
  let (doc, editor) := Editor.attachBy Editor.deleteInDirection T s.client.doc s.editor tag ch
  ⟨{ s.client with doc := doc }, editor⟩

/-- A step of the desk, observed with the desk before it.  A selection is one of the
editor's, an inserted tag of a reply lies between the ends, and so does the
position of the page among its users. -/
def step (T : Trix) (s : Desk) (a : Action) : Option (Desk × List (Desk × Action)) :=
  (after a).map fun s' => (s', [(s, a)])
where
  after : Action → Option Desk
    | .edit e =>
        if e.Valid s.editor.text then
          (s.client.handle e).map fun c => ⟨c, Editor.input s.editor.text e⟩
        else none
    | .paste start text =>
        if start ≤ s.editor.text.length then
          (s.client.pasteText start (start + text.length) text).map fun page =>
            ⟨page.1, ⟨splice s.editor.text start start text, start + text.length⟩⟩
        else none
    | .receive tag ch =>
        if ch = 0 ∨ 0 < tag ∧ tag < 1 then some (receive T s tag ch) else none
    | .share userCount userPosition =>
        if 0 ≤ userPosition ∧ userPosition < userCount then
          some { s with client := { s.client with userCount := userCount, userPosition := userPosition } }
        else none
    | .send => s.client.send.map fun sent => { s with client := sent.1 }
    | .sendSuccess => some { s with client := s.client.sendSuccess }

def machine (T : Trix) : Machine Desk Action (Desk × Action) := ⟨step T⟩

/-- The action does to the document of the page what it does to the editor. -/
def Clean (T : Trix) (s : Desk) : Action → Prop
  | .edit (.type ch start stop) =>
      Editor.Unitary s.editor.text (.type ch start stop) ∧ s.client.Lands start ch
  | .edit (.backspace start stop) =>
      Editor.Unitary s.editor.text (.backspace start stop) ∧ s.client.doc.Faithful (.backspace start stop)
  | .paste start text => (∀ u ∈ text, u ≠ 0) ∧ s.client.LandsAll start text
  | .receive tag ch =>
      if ch ≠ 0 then tag ∉ s.client.doc.ppsTags
      else Pps.Follows T s.client.doc s.editor tag 0 ∧
        UTF16String.pairEnds s.editor.text (T.place s.editor (s.client.doc.index tag + 1)) = false
  | _ => True

instance (T : Trix) (s : Desk) : (a : Action) → Decidable (Clean T s a)
  | .edit (.type _ _ _) => inferInstanceAs (Decidable (Editor.Unitary _ _ ∧ Client.Lands _ _ _))
  | .edit (.backspace _ _) => inferInstanceAs (Decidable (Editor.Unitary _ _ ∧ Pps.Faithful _ _))
  | .paste start text =>
      have : Decidable (∀ u ∈ text, u ≠ 0) := List.decidableBAll _ _
      inferInstanceAs (Decidable ((∀ u ∈ text, u ≠ 0) ∧ s.client.LandsAll start text))
  | .receive _ _ => inferInstanceAs (Decidable (if _ ≠ _ then _ ∉ _ else Pps.Follows _ _ _ _ _ ∧ _ = _))
  | .share _ _ | .send | .sendSuccess => inferInstanceAs (Decidable True)

/-- What every desk of a clean run keeps. -/
structure Kept (s : Desk) : Prop where
  client : s.client.Kept
  synced : s.client.doc.text = some s.editor.text
  inside : s.editor.caret ≤ s.editor.text.length

namespace Kept

variable {s : Desk} {T : Trix}

theorem shown (kept : Kept s) : s.client.shownText = s.editor.text :=
  Option.some.inj (kept.client.text_eq.symm.trans kept.synced)

theorem start {n i : Int} (nonneg : 0 ≤ i) (less : i < n) : Kept (Desk.start n i) where
  client := ⟨.fresh, by simp [Desk.start, Client.start, Pps.fresh, tag0, tag1], nonneg, less⟩
  synced := by
    show (Pps.fresh : Pps ℚ).text = some []
    rw [Pps.framed_fresh.text_eq]
    simp [Pps.fresh, Pps.textOf, Pps.shown]
  inside := le_rfl

/-- Nothing else of a page is looked at. -/
theorem congr {s' : Desk} (kept : Kept s) (doc : s'.client.doc = s.client.doc) (editor : s'.editor = s.editor)
    (nonneg : 0 ≤ s'.client.userPosition) (less : s'.client.userPosition < s'.client.userCount) : Kept s' where
  client := ⟨by rw [doc]; exact kept.client.sound, by rw [doc]; exact kept.client.strict, nonneg, less⟩
  synced := by
    rw [doc, editor]
    exact kept.synced
  inside := by
    rw [editor]
    exact kept.inside

/-- **A clean edit.** -/
theorem edit (kept : Kept s) {e : Edit} (valid : e.Valid s.editor.text) (clean : Clean T s (.edit e)) {c : Client ℚ}
    (handled : s.client.handle e = some c) : Kept ⟨c, Editor.input s.editor.text e⟩ := by
  have unitary : Editor.Unitary s.editor.text e := by cases e <;> exact clean.1
  rw [Editor.input_eq valid unitary]
  rw [← kept.shown] at valid ⊢
  cases e with
  | type ch start stop =>
      obtain rfl := unitary.1
      obtain ⟨c', t, typed, kept', text⟩ := kept.client.insertText valid.2 clean.2
      have same : c = c' := by
        rw [Client.handle, typed] at handled
        exact (Option.some.inj handled).symm
      subst same
      refine ⟨kept', by rw [kept'.text_eq, text]; rfl, ?_⟩
      have := length_splice le_rfl valid.2 (Pps.units ch)
      simp only [Editor.caretAfter, Edit.apply]
      have bound := valid.2
      omega
  | backspace start stop =>
      obtain ⟨le, bound⟩ := valid
      obtain ⟨kept', text⟩ := kept.client.deleteText le bound clean.2
      obtain rfl := Option.some.inj handled
      refine ⟨kept', by rw [kept'.text_eq, text], ?_⟩
      simp only [Editor.caretAfter, Edit.apply]
      split
      · have := length_splice (Nat.sub_le start 1) (le.trans bound) ([] : Text)
        rw [List.length_nil] at this
        omega
      · have := length_splice le bound ([] : Text)
        rw [List.length_nil] at this
        omega

/-- **A clean paste.** -/
theorem paste (kept : Kept s) {start : Nat} {text : Text} (valid : start ≤ s.editor.text.length)
    (clean : Clean T s (.paste start text)) {page : Client ℚ × List ℚ}
    (pasted : s.client.pasteText start (start + text.length) text = some page) :
    Kept ⟨page.1, ⟨splice s.editor.text start start text, start + text.length⟩⟩ := by
  rw [← kept.shown] at valid ⊢
  obtain ⟨nonzero, lands⟩ := clean
  obtain ⟨c', tags, ran, kept', shows⟩ := kept.client.pasteFrom nonzero valid lands
  rw [Client.pasteText, Nat.add_sub_cancel_left, if_pos le_rfl, List.take_length, ran] at pasted
  obtain rfl := Option.some.inj pasted
  refine ⟨kept', by rw [kept'.text_eq, shows], ?_⟩
  have := length_splice le_rfl valid text
  dsimp only
  omega

/-- **A clean entry of a reply.** -/
theorem receive (kept : Kept s) {tag : ℚ} {ch : CharCode} (between : ch ≠ 0 → Between tag)
    (clean : Clean T s (.receive tag ch)) : Kept (Desk.receive T s tag ch) := by
  have framed := kept.client.sound.framed
  -- the editor deletes a unit, as in `Editor.attach`
  have units : Editor.attachBy Editor.deleteInDirection T s.client.doc s.editor tag ch =
      Editor.attach T s.client.doc s.editor tag ch := by
    refine Editor.attachBy_eq T _ _ tag ch fun zero => ?_
    rw [Clean, if_neg (not_not.2 zero)] at clean
    exact Editor.deleteInDirection_eq (T.place_le _ _ kept.inside) clean.2
  have follows : Pps.Follows T s.client.doc s.editor tag ch := by
    rw [Clean] at clean
    split at clean
    · rename_i ne
      exact (framed.follows_insert_iff kept.synced (between ne) ne).2 (.inl clean)
    · rename_i zero
      rw [not_not.1 zero]
      exact clean.1
  rw [Desk.receive, units]
  refine ⟨?_, (Pps.attach_follows_iff framed.ended kept.synced kept.inside tag ch).2 follows, ?_⟩
  · dsimp only
    rw [Editor.attach_fst]
    by_cases zero : ch = 0
    · subst zero
      exact ⟨kept.client.sound.attach_zero tag, kept.client.strict, kept.client.nonneg, kept.client.less⟩
    · rw [Clean, if_pos zero] at clean
      have sound := kept.client.sound.attach (between zero) ch
      refine ⟨sound, SortedList.strict_of_nodup sound.framed.sorted ?_, kept.client.nonneg, kept.client.less⟩
      rw [Pps.attach_of_ne _ tag zero, Pps.push_ppsTags]
      refine (List.perm_insertionSort (· ≤ ·) _).nodup_iff.2 (List.nodup_append.2 ?_)
      refine ⟨kept.client.strict.imp ne_of_lt, List.nodup_singleton tag, ?_⟩
      rintro t member u single rfl
      exact clean (List.mem_singleton.1 single ▸ member)
  · by_cases zero : ch = 0
    · subst zero
      exact (Editor.attach_delete_caret T s.client.doc kept.inside tag).1
    · exact (Editor.attach_insert_caret T s.client.doc kept.inside tag zero).1

/-- **One clean step.** -/
theorem step {s' : Desk} {a : Action} {evs : List (Desk × Action)} (kept : Kept s) (clean : ∀ e ∈ evs, Clean T e.1 e.2)
    (taken : Desk.step T s a = some (s', evs)) : Kept s' := by
  obtain ⟨after, done, same⟩ := Option.map_eq_some_iff.1 taken
  obtain ⟨rfl, rfl⟩ := Prod.mk.inj same
  have clean := clean (s, a) (List.mem_singleton_self _)
  cases a with
  | edit e =>
      rw [Desk.step.after] at done
      split at done
      · rename_i valid
        obtain ⟨c, handled, rfl⟩ := Option.map_eq_some_iff.1 done
        exact kept.edit valid clean handled
      · cases done
  | paste start text =>
      rw [Desk.step.after] at done
      split at done
      · rename_i valid
        obtain ⟨page, pasted, rfl⟩ := Option.map_eq_some_iff.1 done
        exact kept.paste valid clean pasted
      · cases done
  | receive tag ch =>
      rw [Desk.step.after] at done
      split at done
      · rename_i between
        obtain rfl := Option.some.inj done
        exact kept.receive (fun ne => between.resolve_left ne) clean
      · cases done
  | share userCount userPosition =>
      rw [Desk.step.after] at done
      split at done
      · rename_i place
        obtain rfl := Option.some.inj done
        exact kept.congr rfl rfl place.1 place.2
      · cases done
  | send =>
      obtain ⟨⟨c, batch⟩, sent, rfl⟩ := Option.map_eq_some_iff.1 done
      unfold Client.send at sent
      split at sent
      · cases sent
        exact kept.congr rfl rfl kept.client.nonneg kept.client.less
      · cases sent
  | sendSuccess =>
      obtain rfl := Option.some.inj done
      exact kept.congr rfl rfl kept.client.nonneg kept.client.less

end Kept

end Desk

end ColabEdit.Browser
