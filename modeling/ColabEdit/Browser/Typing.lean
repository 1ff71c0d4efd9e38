/-
# ColabEdit.Browser.Typing -- one client against a plain string buffer

The handler calls of one page that hears of nobody else, run beside a buffer
that is just a string (`Edit.apply`).  `PPS.insert` and `PPS.delete` count
visible characters and then index the list with the count, so a tombstone before
the caret shifts the edit to the left; a selection is not replaced by typing.

`Faithful` says, on the state before a call, that the shift does not show.
`typing_refines_iff`: the page and the buffer agree after every call of a run
exactly if every call of the run is faithful.

Pole: `shifted_insertion`, where `X` typed behind `bc` lands between `b` and `c`.
-/
import ColabEdit.Browser.Burst
import ColabEdit.Theory.Splice

namespace ColabEdit.Browser

open BigTag
open ColabEdit.Theory
open Pps (Burst Framed)

set_option autoImplicit false

/-- A handler call with the selection `[start, stop)`; a caret is an empty one. -/
inductive Edit where
  | type (ch : CharCode) (start stop : Nat)
  | backspace (start stop : Nat)

namespace Edit

/-- The edit on a plain string.  A key press of code `0` carries no character. -/
def apply (T : Text) : Edit → Text
  | .type ch start stop => splice T start stop (Pps.units ch)
  | .backspace start stop =>
      if stop = start then splice T (start - 1) start [] else splice T start stop []

def applyAll (edits : List Edit) (T : Text) : Text := edits.foldl apply T

def Valid (T : Text) : Edit → Prop
  | .type _ start stop | .backspace start stop => start ≤ stop ∧ stop ≤ T.length

/-- Every edit is at valid offsets of the string it finds. -/
def ValidAll (T : Text) : List Edit → Prop
  | [] => True
  | e :: rest => e.Valid T ∧ ValidAll (e.apply T) rest

theorem ValidAll.at {T : Text} {edits : List Edit} (valid : ValidAll T edits) {done rest : List Edit}
    {e : Edit} (shape : edits = done ++ e :: rest) : e.Valid (applyAll done T) := by
  induction done generalizing T edits with
  | nil =>
      subst shape
      exact valid.1
  | cons d done ih =>
      subst shape
      exact ih valid.2 rfl

end Edit

/-- The handler of an edit.  `insertText` reads the start of the selection only. -/
def Client.handle {Tag Num : Type} [LinearOrder Tag] [BigNum Num] [BigTag Tag Num]
    (c : Client Tag) : Edit → Option (Client Tag)
  | .type ch start _ => (c.insertText start ch).map Prod.fst
  | .backspace start stop => some (c.deleteText start stop)

def Client.handleAll {Tag Num : Type} [LinearOrder Tag] [BigNum Num] [BigTag Tag Num]
    (c : Client Tag) (edits : List Edit) : Option (Client Tag) := edits.foldlM Client.handle c

/-- The text of the page. -/
abbrev Client.shownText {Tag : Type} (c : Client Tag) : Text := c.doc.textOf c.doc.ppsTags

namespace Pps

section Order

variable {Tag : Type}

/-- The number of visible tags among the first `p + 1`: the offset at which an
edit for position `p` happens. -/
def offset (s : Pps Tag) (p : Nat) : Nat := (s.ppsTags.take (p + 1)).countP s.shown

/-- The edit happens where the caret is, or what lies between the two offsets
makes no difference.  A selection is typed over only if it is empty, and only
visible characters are removed by a backspace. -/
def Faithful (s : Pps Tag) : Edit → Prop
  | .type ch start stop =>
      stop = start ∧
        (ch = 0 ∨ ∀ u ∈ ((s.textOf s.ppsTags).drop (s.offset start)).take (start - s.offset start),
          u = fromCharCode ch)
  | .backspace start stop =>
      let p := if stop = start then start - 1 else start
      let v := s.offset p
      (∀ t ∈ (s.ppsTags.drop (p + 1)).take (stop - p), s.shown t) ∧
        ((s.textOf s.ppsTags).drop v).take (p - v) =
          ((s.textOf s.ppsTags).drop (v + (stop - p))).take (p - v)

instance (s : Pps Tag) : (e : Edit) → Decidable (s.Faithful e)
  | .type ch start stop =>
      have : Decidable (∀ u ∈ ((s.textOf s.ppsTags).drop (s.offset start)).take (start - s.offset start),
          u = fromCharCode ch) := List.decidableBAll _ _
      inferInstanceAs (Decidable (stop = start ∧ (ch = 0 ∨ ∀ u ∈ List.take _ _, u = _)))
  | .backspace _ _ => inferInstanceAs (Decidable ((∀ t ∈ List.take _ _, s.shown t) ∧ _ = List.take _ _))

theorem textOf_take_length (s : Pps Tag) (p : Nat) :
    (s.textOf (s.ppsTags.take (p + 1))).length = s.offset p := length_textOf _ _

theorem offset_le (s : Pps Tag) (p : Nat) {t : Tag} {rest : List Tag} (first : s.ppsTags = t :: rest)
    (hidden : s.shown t = false) : s.offset p ≤ p := by
  rw [offset, first, List.take_succ_cons, List.countP_cons_of_neg (by simp [hidden])]
  exact List.countP_le_length.trans (by simp)

theorem offset_add (s : Pps Tag) (p m : Nat) :
    s.offset p + ((s.ppsTags.drop (p + 1)).take m).countP s.shown = s.offset (p + m) := by
  unfold offset
  rw [← List.countP_append, ← List.take_add, Nat.add_right_comm]

theorem offset_le_length (s : Pps Tag) (p : Nat) : s.offset p ≤ (s.textOf s.ppsTags).length := by
  rw [length_textOf]
  exact (List.take_sublist _ _).countP_le

/-- Up to the offset the text is that of the first tags. -/
theorem take_offset (s : Pps Tag) (p : Nat) :
    (s.textOf s.ppsTags).take (s.offset p) = s.textOf (s.ppsTags.take (p + 1)) := by
  conv_lhs => rw [← List.take_append_drop (p + 1) s.ppsTags, textOf_append]
  exact List.take_left' (s.textOf_take_length p)

theorem drop_offset (s : Pps Tag) (p : Nat) :
    (s.textOf s.ppsTags).drop (s.offset p) = s.textOf (s.ppsTags.drop (p + 1)) := by
  conv_lhs => rw [← List.take_append_drop (p + 1) s.ppsTags, textOf_append]
  exact List.drop_left' (s.textOf_take_length p)

end Order

/-! ## Hiding the tags of a selection -/

section Linear

variable {Tag Num : Type} [LinearOrder Tag]

theorem hideAll_spec (s : Pps Tag) (tags : List Tag) :
    (tags.foldl hide s).ppsTags = s.ppsTags ∧
      ∀ t, (tags.foldl hide s).pps t = if t ∈ tags then some 0 else s.pps t := by
  induction tags generalizing s with
  | nil => exact ⟨rfl, fun t => by simp⟩
  | cons u rest ih =>
      obtain ⟨same, marks⟩ := ih (s.hide u)
      refine ⟨same, fun t => ?_⟩
      rw [List.foldl_cons, marks]
      by_cases later : t ∈ rest
      · simp [later]
      · by_cases eq : t = u
        · subst eq
          simp [hide]
        · simp [later, eq, hide]

/-- Hiding a stretch of the list removes its text. -/
theorem textOf_hideAll {s : Pps Tag} {P D R : List Tag} (shape : s.ppsTags = P ++ (D ++ R))
    (nodup : s.ppsTags.Nodup) :
    (D.foldl hide s).textOf (D.foldl hide s).ppsTags = s.textOf P ++ s.textOf R := by
  obtain ⟨tags, marks⟩ := hideAll_spec s D
  rw [shape] at nodup
  obtain ⟨-, inner, outer⟩ := List.nodup_append.1 nodup
  obtain ⟨-, -, back⟩ := List.nodup_append.1 inner
  have kept : ∀ A : List Tag, (∀ t ∈ A, t ∉ D) → (D.foldl hide s).textOf A = s.textOf A :=
    fun A apart => textOf_congr fun t member => by rw [marks, if_neg (apart t member)]
  have gone : (D.foldl hide s).textOf D = [] := by
    have none_shown : D.filter (D.foldl hide s).shown = [] :=
      List.filter_eq_nil_iff.2 fun t member => by simp [Pps.shown, marks, member]
    simp [textOf, none_shown]
  rw [tags, shape, textOf_append, textOf_append, gone, List.nil_append,
    kept P fun t inP inD => outer t inP t (by simp [inD]) rfl,
    kept R fun t inR inD => back t inD t inR rfl]

variable [BigTag Tag Num]

/-- The tags of a selection are a stretch of the list. -/
theorem selected {s : Pps Tag} (framed : Framed s) {p m : Nat} (valid : p + m ≤ s.visible.length) :
    (List.range' (p + 1) m).filterMap s.delete = (s.ppsTags.drop (p + 1)).take m := by
  induction m generalizing p with
  | zero => simp
  | succ m ih =>
      have room := framed.length_lt
      have inside : p + 1 < s.ppsTags.length := by omega
      have first : s.delete (p + 1) = some s.ppsTags[p + 1] := by
        rw [framed.delete_eq (by omega), List.getElem?_eq_getElem inside]
      rw [List.range'_succ, List.filterMap_cons_some first, ih (by omega),
        List.drop_eq_getElem_cons inside, List.take_succ_cons]

end Linear

end Pps

/-! ## One handler call -/

/-- A page that heard of nobody else: every tag between `0` and `1` is its own. -/
structure Solo (n i : Int) (c : Client ℚ) : Prop where
  position : c.userPosition = i
  count : c.userCount = n
  burst : Burst [0, 1] i n c.doc

namespace Solo

variable {n i : Int} {c : Client ℚ}

theorem visible_length (c : Client ℚ) : c.doc.visible.length = c.shownText.length := by
  simp [Pps.visible, List.countP_eq_length_filter]

theorem offset_le (solo : Solo n i c) (p : Nat) : c.doc.offset p ≤ p := by
  obtain ⟨mid, ends, -⟩ := solo.burst.framed.ends
  exact c.doc.offset_le p ends (Pps.shown_eq_false.2 solo.burst.framed.hidden0)

theorem insertText (solo : Solo n i c) (nonneg : 0 ≤ i) (less : i < n) {start : Nat}
    (valid : start ≤ c.shownText.length) (ch : CharCode) :
    ∃ c' t, c.insertText start ch = some (c', t) ∧ Solo n i c' ∧
      c'.shownText = splice c.shownText (c.doc.offset start) (c.doc.offset start) (Pps.units ch) := by
  obtain ⟨A, l, r, B, t, inserted, shape, index, tags, fresh, burst⟩ :=
    solo.burst.insert (by simp) nonneg less ((visible_length c).symm ▸ valid) ch
  refine ⟨{ c with doc := c.doc.push t ch false, pendingChanges := c.pendingChanges.insert t ch }, t,
    ?_, ⟨solo.position, solo.count, burst⟩, ?_⟩
  · rw [Client.insertText, solo.position, solo.count, inserted]
  · have grouped : c.doc.ppsTags = (A ++ [l]) ++ r :: B := by simp [shape]
    have front : c.doc.ppsTags.take (start + 1) = A ++ [l] := by
      rw [grouped, List.take_left' (by simp [index])]
    have back : c.doc.ppsTags.drop (start + 1) = r :: B := by
      rw [grouped, List.drop_left' (by simp [index])]
    unfold splice
    rw [Pps.take_offset, Pps.drop_offset, front, back]
    exact Pps.textOf_push_between shape tags fresh

theorem deletePositions (solo : Solo n i c) {p m : Nat}
    (valid : p + m ≤ c.shownText.length) :
    Solo n i (c.deletePositions (List.range' (p + 1) m)) ∧
      (c.deletePositions (List.range' (p + 1) m)).shownText =
        splice c.shownText (c.doc.offset p) (c.doc.offset (p + m)) [] := by
  have chosen : c.deleteTags (List.range' (p + 1) m) = (c.doc.ppsTags.drop (p + 1)).take m :=
    Pps.selected solo.burst.framed ((visible_length c).symm ▸ valid)
  have room := solo.burst.framed.length_lt
  rw [visible_length] at room
  obtain ⟨mid, ends, inside⟩ := solo.burst.framed.ends
  have within : (c.doc.ppsTags.drop (p + 1)).take m = (mid.drop p).take m := by
    have short : p + m ≤ mid.length := by
      have := congrArg List.length ends
      simp only [List.length_cons, List.length_append, List.length_nil] at this
      omega
    rw [ends, List.drop_succ_cons, List.drop_append_of_le_length (by omega),
      List.take_append_of_le_length (by simp only [List.length_drop]; omega)]
  have rest := List.take_append_drop m (c.doc.ppsTags.drop (p + 1))
  rw [List.drop_drop] at rest
  have shape : c.doc.ppsTags = c.doc.ppsTags.take (p + 1) ++
      ((c.doc.ppsTags.drop (p + 1)).take m ++ c.doc.ppsTags.drop (p + 1 + m)) := by
    rw [rest, List.take_append_drop]
  have text := Pps.textOf_hideAll shape (solo.burst.strict.imp ne_of_lt)
  rw [Client.deletePositions, chosen, Client.hideAll_eq]
  refine ⟨⟨solo.position, solo.count, ?_⟩, ?_⟩
  · refine solo.burst.hideAll fun t member => ?_
    rw [within] at member
    have := inside t (List.mem_of_mem_drop (List.mem_of_mem_take member))
    simp only [List.mem_cons, List.not_mem_nil, or_false, not_or]
    exact ⟨this.1.ne', this.2.ne⟩
  · have halves := congrArg c.doc.textOf rest
    rw [Pps.textOf_append] at halves
    have back : c.shownText.drop (c.doc.offset (p + m)) =
        c.doc.textOf (c.doc.ppsTags.drop (p + 1 + m)) := by
      rw [Pps.drop_offset, Nat.add_right_comm]
    unfold Client.shownText at back ⊢
    rw [text, splice, Pps.take_offset, back, List.append_nil]

/-- **One handler call.**  It succeeds, and the page shows what the buffer has
exactly if the call is faithful. -/
theorem handle (solo : Solo n i c) (nonneg : 0 ≤ i) (less : i < n) {e : Edit}
    (valid : e.Valid c.shownText) :
    ∃ c', c.handle e = some c' ∧ Solo n i c' ∧
      (c'.shownText = e.apply c.shownText ↔ c.doc.Faithful e) := by
  cases e with
  | type ch start stop =>
      obtain ⟨le, bound⟩ := valid
      obtain ⟨c', t, typed, solo', text⟩ := solo.insertText nonneg less (le.trans bound) ch
      refine ⟨c', by simp [Client.handle, typed], solo', ?_⟩
      have shift := solo.offset_le start
      have inside : c.doc.offset start ≤ c.shownText.length := c.doc.offset_le_length start
      rw [text, Edit.apply, Pps.Faithful]
      constructor
      · intro same
        have lengths := length_splice le bound (Pps.units ch)
        rw [← same] at lengths
        have := length_splice le_rfl inside (Pps.units ch)
        obtain rfl : stop = start := by omega
        refine ⟨rfl, or_iff_not_imp_left.2 fun visible => ?_⟩
        rw [Pps.units, if_neg visible] at same
        exact (splice_insert_eq_iff _ shift _).1 same
      · rintro ⟨rfl, rfl | copies⟩
        · simp [Pps.units]
        · by_cases zero : ch = 0
          · simp [Pps.units, zero]
          · rw [Pps.units, if_neg zero]
            exact (splice_insert_eq_iff _ shift _).2 copies
  | backspace start stop =>
      obtain ⟨le, bound⟩ := valid
      -- both forms of a backspace delete the block from `p` up to `stop`
      generalize block : (if stop = start then start - 1 else start) = p
      have range : Client.backspaced start stop = List.range' (p + 1) (stop - p) := by
        subst block
        unfold Client.backspaced
        by_cases caret : stop = start
        · subst caret
          cases stop with
          | zero => simp
          | succ q => simp
        · rw [if_neg (by simp [caret]), if_pos (by omega), if_neg caret]
      have short : p ≤ stop := by
        subst block
        split <;> omega
      have expected : (Edit.backspace start stop).apply c.shownText =
          splice c.shownText p (p + (stop - p)) [] := by
        subst block
        rw [Edit.apply]
        by_cases caret : stop = start
        · rw [if_pos caret, if_pos caret, caret, Nat.add_sub_cancel' (by omega)]
        · rw [if_neg caret, if_neg caret, Nat.add_sub_cancel' le]
      have within : p + (stop - p) ≤ c.shownText.length := by omega
      obtain ⟨solo', text⟩ := solo.deletePositions within
      refine ⟨_, rfl, by rwa [Client.deleteText, range], ?_⟩
      rw [Client.deleteText, range, text, expected, Pps.Faithful, block]
      have shift := solo.offset_le p
      have inside : c.doc.offset (p + (stop - p)) ≤ c.shownText.length :=
        c.doc.offset_le_length _
      rw [← c.doc.offset_add p (stop - p)] at inside ⊢
      have chosen : ((c.doc.ppsTags.drop (p + 1)).take (stop - p)).length = stop - p := by
        have room := solo.burst.framed.length_lt
        rw [visible_length] at room
        simp only [List.length_take, List.length_drop]
        omega
      generalize (c.doc.ppsTags.drop (p + 1)).take (stop - p) = tags at inside chosen ⊢
      rw [← List.countP_eq_length]
      constructor
      · intro same
        have lengths := congrArg List.length same
        have left := length_splice (Nat.le_add_right _ _) inside []
        have right := length_splice (Nat.le_add_right p (stop - p)) within []
        have all : tags.countP c.doc.shown = stop - p := by
          simp only [List.length_nil] at left right
          omega
        rw [all] at same
        exact ⟨all.trans chosen.symm, (splice_delete_eq_iff _ shift _).1 same⟩
      · rintro ⟨all, repeats⟩
        rw [all, chosen]
        exact (splice_delete_eq_iff _ shift _).2 repeats

theorem start (n i : Int) : Solo n i (Client.start n i) :=
  ⟨rfl, rfl, Pps.loaded_fresh.burst i n⟩

theorem text_eq (solo : Solo n i c) : c.doc.text = some c.shownText := solo.burst.framed.text_eq

end Solo

/-! ## Runs of handler calls -/

section Runs

variable {n i : Int} {edits : List Edit}

theorem handleAll_concat (c : Client ℚ) (done : List Edit) (e : Edit) :
    c.handleAll (done ++ [e]) = (c.handleAll done).bind fun c => c.handle e := by
  simp only [Client.handleAll, List.foldlM_append, List.foldlM_cons, List.foldlM_nil, bind_pure]
  rfl

/-- Where each call of the run does to the page what it does to the buffer, the
two agree after every prefix. -/
theorem Solo.reach (nonneg : 0 ≤ i) (less : i < n) (valid : Edit.ValidAll [] edits)
    (kept : ∀ done e rest c c', edits = done ++ e :: rest →
      (Client.start n i : Client ℚ).handleAll done = some c → c.handle e = some c' →
      (c'.shownText = e.apply c.shownText ↔ c.doc.Faithful e) →
      c.shownText = Edit.applyAll done [] → Solo n i c' → c'.shownText = e.apply c.shownText)
    (done : List Edit) : ∀ rest, edits = done ++ rest →
      ∃ c, (Client.start n i : Client ℚ).handleAll done = some c ∧ Solo n i c ∧
        c.shownText = Edit.applyAll done [] := by
  induction done using List.reverseRecOn with
  | nil => exact fun _ _ => ⟨_, rfl, Solo.start n i, by simp [Client.start, Pps.fresh, Pps.textOf, Edit.applyAll]⟩
  | append_singleton done e ih =>
      intro rest shape
      have shape' : edits = done ++ e :: rest := by simpa using shape
      obtain ⟨c, reached, solo, text⟩ := ih (e :: rest) shape'
      obtain ⟨c', handled, solo', iff⟩ := solo.handle nonneg less (text ▸ valid.at shape')
      refine ⟨c', by rw [handleAll_concat, reached]; exact handled, solo', ?_⟩
      rw [kept done e rest c c' shape' reached handled iff text solo', text]
      simp [Edit.applyAll]

/-- **Local editing refines a string buffer exactly in faithful runs.**  After
every prefix of the calls the page shows the text of the buffer if and only if
every call is faithful in the state it finds. -/
theorem typing_refines_iff {n i : Int} (nonneg : 0 ≤ i) (less : i < n) (edits : List Edit)
    (valid : Edit.ValidAll [] edits) :
    (∀ done rest, edits = done ++ rest →
        ∃ c, (Client.start n i : Client ℚ).handleAll done = some c ∧
          c.doc.text = some (Edit.applyAll done [])) ↔
      ∀ done e rest, edits = done ++ e :: rest →
        ∀ c, (Client.start n i : Client ℚ).handleAll done = some c → c.doc.Faithful e := by
  constructor
  · intro agree
    have kept : ∀ done e rest c c', edits = done ++ e :: rest →
        (Client.start n i : Client ℚ).handleAll done = some c → c.handle e = some c' →
        c.shownText = Edit.applyAll done [] → Solo n i c' → c'.shownText = e.apply c.shownText := by
      intro done e rest c c' shape reached handled text solo'
      obtain ⟨d, ran, shown⟩ := agree (done ++ [e]) rest (by simpa using shape)
      rw [handleAll_concat, reached] at ran
      cases handled.symm.trans ran
      rw [solo'.text_eq, Option.some.injEq] at shown
      rw [shown, text]
      simp [Edit.applyAll]
    intro done e rest shape c reached
    obtain ⟨d, ran, solo, text⟩ := Solo.reach nonneg less valid
      (fun done e rest c c' shape reached handled _ text solo' =>
        kept done e rest c c' shape reached handled text solo') done (e :: rest) shape
    cases reached.symm.trans ran
    obtain ⟨c', handled, solo', iff⟩ := solo.handle nonneg less (text ▸ valid.at shape)
    exact iff.1 (kept done e rest c c' shape reached handled text solo')
  · intro faithful done rest shape
    obtain ⟨c, reached, solo, text⟩ := Solo.reach nonneg less valid
      (fun done e rest c c' shape reached _ iff _ _ =>
        iff.2 (faithful done e rest shape c reached)) done rest shape
    exact ⟨c, reached, by rw [solo.text_eq, text]⟩

/-- The last position of two types `ab` and takes the `b` back. -/
theorem typing_refines_two_keys :
    ∃ c, (Client.start 2 1 : Client ℚ).handleAll [.type 97 0 0, .type 98 1 1, .backspace 2 2] = some c ∧
      c.doc.text = some [97] := by
  have valid : Edit.ValidAll [] [.type 97 0 0, .type 98 1 1, .backspace 2 2] :=
    ⟨⟨by decide, by decide⟩, ⟨by decide, by decide⟩, ⟨by decide, by decide⟩, trivial⟩
  refine (typing_refines_iff (n := 2) (i := 1) (by decide) (by decide) _ valid).2
    (fun done e rest shape c reached => ?_) _ [] rfl
  have each : ∀ k < 3, ∀ c ∈ (Client.start 2 1 : Client ℚ).handleAll
      ([Edit.type 97 0 0, .type 98 1 1, .backspace 2 2].take k),
      ∀ e ∈ [Edit.type 97 0 0, .type 98 1 1, .backspace 2 2][k]?, c.doc.Faithful e := by decide +kernel
  have short : done.length < 3 := by
    have lengths := congrArg List.length shape
    simp only [List.length_append, List.length_cons, List.length_nil] at lengths
    omega
  refine each done.length short c ?_ e ?_ <;> rw [shape]
  · rwa [List.take_left]
  · simp

/-- `a` is deleted from `abc`; `X` typed behind `bc` lands between them. -/
theorem shifted_insertion :
    let edits := [Edit.type 97 0 0, .type 98 1 1, .type 99 2 2, .backspace 1 1, .type 88 2 2]
    ((Client.start 1 0 : Client ℚ).handleAll edits).bind (fun c => c.doc.text) =
        some [98, 88, 99] ∧
      Edit.applyAll edits [] = [98, 99, 88] := by
  decide +kernel

end Runs

end ColabEdit.Browser
