/-
# ColabEdit.Browser.Paste -- pasting a text

The loop of `pasteText` calls `PPS.insert` at one offset after the other.  The
first tag goes between two neighbours with any flags, each later one between the
tag before it and the same right neighbour.

A page that was loaded and then only typed and pasted is `Composing`: its own
tags lie in its part of a gap of the loaded list (`Pps.Burst`) and all show a
character (`Pps.Plain`).  `Composing.insertText` is one turn of the loop,
`Composing.pasteFrom` the loop, and `paste_in_order` what a paste does to a page
reached in this way.
-/
import ColabEdit.Browser.Burst
import ColabEdit.Browser.Intention

namespace ColabEdit.Browser

open BigTag
open ColabEdit.Theory
open Pps (Between Burst Loaded Plain)

set_option autoImplicit false

/-! ## Units and codes -/

theorem fromCharCode_toUInt32 (unit : UInt16) : fromCharCode unit.toUInt32 = unit :=
  UInt16.toUInt16_toUInt32 unit

theorem toUInt32_ne_zero {unit : UInt16} (ne : unit ≠ 0) : unit.toUInt32 ≠ 0 := fun zero => by
  apply ne
  rw [← fromCharCode_toUInt32 unit, zero]
  rfl

/-! ## A page that only types and pastes -/

namespace Client

structure Composing (L : List ℚ) (n i : Int) (c : Client ℚ) : Prop where
  burst : Burst L i n c.doc
  plain : Plain c.doc
  userCount : c.userCount = n
  userPosition : c.userPosition = i

variable {L : List ℚ} {n i : Int} {c c' : Client ℚ} {pos : Nat} {ch : CharCode}

namespace Composing

/-- The text is that of the whole list. -/
theorem text_eq (composing : Composing L n i c) : c.doc.text = some (c.doc.textOf c.doc.ppsTags) :=
  composing.plain.framed.text_eq

/-- Every offset of the text has its two neighbours. -/
theorem exists_neighbours (composing : Composing L n i c) (valid : pos ≤ c.doc.visible.length) :
    ∃ A l r B, c.doc.ppsTags = A ++ l :: r :: B ∧ A.length = pos := by
  obtain ⟨A, B, l, r, _, _, place⟩ :=
    Pps.exists_place composing.plain.framed composing.plain.flagged valid
  exact ⟨A, l, r, B, place.shape, place.index⟩

/-- The offset between two neighbours is one of the text. -/
theorem valid_of_shape (composing : Composing L n i c) {A B : List ℚ} {l r : ℚ}
    (shape : c.doc.ppsTags = A ++ l :: r :: B) : A.length ≤ c.doc.visible.length := by
  have lengths := congrArg List.length (composing.plain.visible_eq.symm.trans shape)
  simp only [List.length_cons, List.length_append, List.length_nil] at lengths
  omega

/-- **One character of a page that is composing.**  It goes between the neighbours
of its offset, in the list and in the text. -/
theorem insertText (composing : Composing L n i c) (strict : L.Pairwise (· < ·)) (nonneg : 0 ≤ i)
    (less : i < n) {A B : List ℚ} {l r : ℚ} (shape : c.doc.ppsTags = A ++ l :: r :: B) (ne : ch ≠ 0) :
    ∃ c' t, c.insertText A.length ch = some (c', t) ∧ Composing L n i c' ∧
      c'.doc.ppsTags = A ++ l :: t :: r :: B ∧ t ∉ c.doc.ppsTags ∧
      c'.doc.textOf c'.doc.ppsTags =
        splice (c.doc.textOf c.doc.ppsTags) A.length A.length [fromCharCode ch] ∧
      c'.pendingChanges = c.pendingChanges.insert t ch := by
  obtain ⟨burst, plain, rfl, rfl⟩ := composing
  obtain ⟨A', l', r', B', t, inserted, shape', index, tags, fresh, burst'⟩ :=
    burst.insert strict nonneg less (valid_of_shape ⟨burst, plain, rfl, rfl⟩ shape) ch
  -- the neighbours are those of the offset
  obtain ⟨rfl, rest⟩ := List.append_inj (shape'.symm.trans shape) index
  simp only [List.cons.injEq] at rest
  obtain ⟨rfl, rfl, rfl⟩ := rest
  have between : Between t :=
    plain.framed.between_of_fresh burst'.framed (Pps.mem_push.2 (Or.inr rfl)) fresh
  obtain ⟨before, behind⟩ := plain.take_text shape rfl
  refine ⟨{ c with doc := c.doc.push t ch false, pendingChanges := c.pendingChanges.insert t ch }, t, ?_,
    ⟨burst', plain.push between ne false, rfl, rfl⟩, tags, fresh, ?_, rfl⟩
  · simp only [Client.insertText, inserted]
  · show (c.doc.push t ch false).textOf (c.doc.push t ch false).ppsTags = _
    rw [Pps.textOf_push_between shape tags fresh, splice, before, behind]
    simp [Pps.units, ne]

/-- What a paste of `units` behind the left neighbour `l` leaves: the tags in the
list, the units in the text, and both in `pendingChanges`. -/
structure Pasted (c c' : Client ℚ) (A : List ℚ) (l r : ℚ) (B : List ℚ) (units : Text) (tags : List ℚ) :
    Prop where
  list : c'.doc.ppsTags = A ++ l :: (tags ++ r :: B)
  length : tags.length = units.length
  fresh : ∀ t ∈ tags, t ∉ c.doc.ppsTags
  text : c'.doc.textOf c'.doc.ppsTags = splice (c.doc.textOf c.doc.ppsTags) A.length A.length units
  pending : ∀ e ∈ tags.zip units, c'.pendingChanges.lookup e.1 = some e.2.toUInt32
  others : ∀ t, t ∉ tags → c'.pendingChanges.lookup t = c.pendingChanges.lookup t

/-- **The loop of a paste.**  The induction is on the units: the tag of one is the
left neighbour of the next. -/
theorem pasteFrom (composing : Composing L n i c) (strict : L.Pairwise (· < ·)) (nonneg : 0 ≤ i)
    (less : i < n) {units : Text} (nonzero : ∀ unit ∈ units, unit ≠ 0) {A B : List ℚ} {l r : ℚ}
    (shape : c.doc.ppsTags = A ++ l :: r :: B) :
    ∃ c' tags, c.pasteFrom A.length units = some (c', tags) ∧ Composing L n i c' ∧
      Pasted c c' A l r B units tags := by
  induction units generalizing c A l with
  | nil =>
      refine ⟨c, [], rfl, composing, shape, rfl, by simp, ?_, by simp, fun _ _ => rfl⟩
      exact (splice_nil_self _ _).symm
  | cons unit rest ih =>
      obtain ⟨first, t, typed, composing₁, list₁, fresh₁, text₁, pending₁⟩ :=
        composing.insertText strict nonneg less shape (toUInt32_ne_zero (nonzero unit (by simp)))
      have shape₁ : first.doc.ppsTags = (A ++ [l]) ++ t :: r :: B := by simp [list₁]
      obtain ⟨c', tags, ran, composing', pasted⟩ :=
        ih composing₁ (fun u member => nonzero u (by simp [member])) shape₁
      have advanced : (A ++ [l]).length = A.length + 1 := by simp
      rw [advanced] at ran
      have later : t ∉ tags := fun member => pasted.fresh t member (by simp [list₁])
      refine ⟨c', t :: tags, ?_, composing', ?_, ?_, ?_, ?_, ?_, ?_⟩
      · simp [Client.pasteFrom, typed, ran]
      · simpa using pasted.list
      · simpa using pasted.length
      · intro u member
        rcases List.mem_cons.1 member with rfl | member
        · exact fresh₁
        · intro old
          refine pasted.fresh u member ?_
          rw [shape] at old
          rw [list₁]
          simp only [List.mem_append, List.mem_cons] at old ⊢
          tauto
      · have bound : A.length ≤ (c.doc.textOf c.doc.ppsTags).length :=
          (composing.valid_of_shape shape).trans_eq (composing.plain.framed.length_text composing.text_eq).symm
        rw [pasted.text, text₁, fromCharCode_toUInt32, advanced, splice_cons bound]
      · intro e member
        rw [List.zip_cons_cons, List.mem_cons] at member
        rcases member with rfl | member
        · rw [pasted.others t later, pending₁, AList.lookup_insert]
        · exact pasted.pending e member
      · intro u absent
        rw [List.mem_cons, not_or] at absent
        rw [pasted.others u absent.2, pending₁, AList.lookup_insert_ne absent.1]

end Composing

/-! ## The pages reached by typing and pasting -/

/-- The pages reached from a loaded document by characters and pastes, with the
requests that carry them to the server. -/
inductive Composed (L : List ℚ) (n i : Int) : Client ℚ → Prop
  | load {c : Client ℚ} (loaded : Loaded L c.doc) (shown : ∀ t ∈ L, Between t → c.doc.shown t)
      (userCount : c.userCount = n) (userPosition : c.userPosition = i) : Composed L n i c
  | type {c c' : Client ℚ} {pos : Nat} {ch : CharCode} {t : ℚ} (before : Composed L n i c)
      (valid : pos ≤ c.doc.visible.length) (ne : ch ≠ 0) (typed : c.insertText pos ch = some (c', t)) :
      Composed L n i c'
  | paste {c c' : Client ℚ} {start stop : Nat} {text : Text} {tags : List ℚ} (before : Composed L n i c)
      (valid : start ≤ c.doc.visible.length) (nonzero : ∀ unit ∈ text, unit ≠ 0)
      (pasted : c.pasteText start stop text = some (c', tags)) : Composed L n i c'
  | send {c c' : Client ℚ} {sent : Batch ℚ} (before : Composed L n i c) (taken : c.send = some (c', sent)) :
      Composed L n i c'
  | acknowledge {c : Client ℚ} (before : Composed L n i c) : Composed L n i c.sendSuccess

theorem Composed.strict (composed : Composed L n i c) : L.Pairwise (· < ·) := by
  induction composed with
  | load loaded => exact loaded.strict
  | type _ _ _ _ ih => exact ih
  | paste _ _ _ _ ih => exact ih
  | send _ _ ih => exact ih
  | acknowledge _ ih => exact ih

/-- Every page reached is composing. -/
theorem Composed.composing (nonneg : 0 ≤ i) (less : i < n) (composed : Composed L n i c) :
    Composing L n i c := by
  have strict := composed.strict
  induction composed with
  | load loaded shown userCount userPosition =>
      have burst := loaded.burst i n
      exact ⟨burst, ⟨loaded.framed, burst.flagged, loaded.tags.symm ▸ shown⟩, userCount, userPosition⟩
  | type before valid ne typed ih =>
      obtain ⟨A, l, r, B, shape, rfl⟩ := ih.exists_neighbours valid
      obtain ⟨c₁, t₁, typed₁, composing, -⟩ := ih.insertText strict nonneg less shape ne
      cases typed.symm.trans typed₁
      exact composing
  | paste before valid nonzero pasted ih =>
      obtain ⟨A, l, r, B, shape, rfl⟩ := ih.exists_neighbours valid
      unfold pasteText at pasted
      split at pasted
      · obtain ⟨c₁, tags₁, ran, composing, -⟩ := ih.pasteFrom strict nonneg less
          (fun unit member => nonzero unit (List.mem_of_mem_take member)) shape
        cases pasted.symm.trans ran
        exact composing
      · cases pasted
  | send before taken ih =>
      unfold Client.send at taken
      split at taken
      · cases taken
        exact ⟨ih.burst, ih.plain, ih.userCount, ih.userPosition⟩
      · cases taken
  | acknowledge before ih => exact ⟨ih.burst, ih.plain, ih.userCount, ih.userPosition⟩

/-- **A paste inserts the whole text in order.**  The text of the page gets `s` at
the offset, the new tags ascend from the left to the right neighbour there, and
`pendingChanges` gets each of them with its unit. -/
theorem paste_in_order (nonneg : 0 ≤ i) (less : i < n) (composed : Composed L n i c) {T : Text}
    (text : c.doc.text = some T) {p : Nat} (valid : p ≤ T.length) {s : Text} (nonzero : ∀ unit ∈ s, unit ≠ 0) :
    ∃ c' tags l r, c.pasteText p (p + s.length) s = some (c', tags) ∧
      c'.doc.text = some (T.take p ++ s ++ T.drop p) ∧
      (tag0 :: c.doc.visible)[p]? = some l ∧ (c.doc.visible ++ [tag1])[p]? = some r ∧
      tags.length = s.length ∧ (l :: (tags ++ [r])).Pairwise (· < ·) ∧ (∀ t ∈ tags, t ∉ c.doc.ppsTags) ∧
      (∀ e ∈ tags.zip s, c'.pendingChanges.lookup e.1 = some e.2.toUInt32) ∧
      ∀ t, t ∉ tags → c'.pendingChanges.lookup t = c.pendingChanges.lookup t := by
  have composing := composed.composing nonneg less
  obtain rfl := Option.some.inj (composing.text_eq.symm.trans text)
  rw [composing.plain.framed.length_text composing.text_eq] at valid
  obtain ⟨A, l, r, B, shape, rfl⟩ := composing.exists_neighbours valid
  obtain ⟨left, right⟩ := composing.plain.neighbours shape rfl
  obtain ⟨c', tags, ran, composing', pasted⟩ :=
    composing.pasteFrom composed.strict nonneg less nonzero shape
  refine ⟨c', tags, l, r, ?_, ?_, left, right, pasted.length, ?_, pasted.fresh, pasted.pending,
    pasted.others⟩
  · rw [pasteText, Nat.add_sub_cancel_left, if_pos le_rfl, List.take_length]
    exact ran
  · rw [composing'.text_eq, pasted.text, splice]
  · have ascending := composing'.burst.strict
    rw [pasted.list] at ascending
    refine ascending.sublist ?_
    have stretch : (l :: (tags ++ [r])) <:+: A ++ l :: (tags ++ r :: B) := ⟨A, B, by simp⟩
    exact stretch.sublist

theorem composed_start (n i : Int) : Composed [0, 1] n i (Client.start n i) :=
  .load Pps.loaded_fresh (fun t member between => Pps.plain_fresh.shown t member between) rfl rfl

/-- The second of two clients pastes `ac` into the empty page and `bb` between. -/
theorem paste_in_order_between :
    ∃ (c c' : Client ℚ) (tags : List ℚ), c.doc.text = some [97, 99] ∧
      c.pasteText 1 3 [98, 98] = some (c', tags) ∧ c'.doc.text = some [97, 98, 98, 99] := by
  obtain ⟨⟨c, made⟩, pasted, text⟩ := (Option.any_eq_true _ _).1
    (show ((Client.start 2 1 : Client ℚ).pasteText 0 2 [97, 99]).any
      (fun page => page.1.doc.text = some [97, 99]) = true by decide +kernel)
  have composed : Composed [0, 1] 2 1 c :=
    .paste (composed_start 2 1) (Nat.zero_le _) (by simp) pasted
  obtain ⟨c', tags, -, -, ran, shows, -⟩ := paste_in_order (by decide) (by decide) composed
    (of_decide_eq_true text) (p := 1) (by decide) (s := [98, 98]) (by simp)
  exact ⟨c, c', tags, of_decide_eq_true text, ran, shows⟩

end Client

end ColabEdit.Browser
