/-
# ColabEdit.Browser.Intention -- when a character lands where it was typed

`PPS.insert` on a tag list without hidden characters (`Plain`), in exact
arithmetic.  The character lands between its two neighbours exactly where there
is room (`intends_iff`): the neighbours differ, and where one of them is
unacknowledged and the other is not, the unacknowledged one lies on the right
side of the border of the client's own part (`Roomy`).  A tag that arrived since
the neighbour was made moves that border.
-/
import ColabEdit.Browser.Client
import ColabEdit.Browser.Gap
import ColabEdit.Theory.Splice

namespace ColabEdit.Browser

open BigTag
open ColabEdit.Theory

set_option autoImplicit false

namespace Pps

/-! ## Tag lists without hidden characters -/

section Plain

variable {Tag Num : Type} [LinearOrder Tag] [BigTag Tag Num] {s : Pps Tag} {t : Tag} {ch : CharCode}

theorem Flagged.mark (flagged : Flagged s) (between : Between t) (ch : CharCode) (ack : Bool) :
    Flagged (s.mark t ch ack) where
  flag := by
    intro u member
    by_cases same : u = t
    · subst same
      exact ⟨ack, mark_ppsAck_self s u ch ack⟩
    · rw [mark_ppsAck_ne s same]
      exact flagged.flag u member
  zero := (mark_ppsAck_ne s between.1.ne ch ack).trans flagged.zero
  one := (mark_ppsAck_ne s between.2.ne' ch ack).trans flagged.one

theorem Flagged.push (flagged : Flagged s) (between : Between t) (ch : CharCode) (ack : Bool) :
    Flagged (s.push t ch ack) where
  flag := by
    intro u member
    rw [push_ppsAck]
    by_cases same : u = t
    · subst same
      exact ⟨ack, mark_ppsAck_self s u ch ack⟩
    · rw [mark_ppsAck_ne s same]
      exact flagged.flag u ((mem_push.1 member).resolve_right same)
  zero := (flagged.mark between ch ack).zero
  one := (flagged.mark between ch ack).one

theorem flagged_fresh : Flagged (fresh : Pps Tag) where
  flag := fun u member => ⟨true, if_pos (by simpa [fresh] using member)⟩
  zero := by simp [fresh]
  one := by simp [fresh]

/-- Framed, flagged and without a hidden tag other than `'0'` and `'1'`. -/
structure Plain (s : Pps Tag) : Prop where
  framed : Framed s
  flagged : Flagged s
  shown : ∀ t ∈ s.ppsTags, Between t → s.shown t

theorem plain_fresh : Plain (fresh : Pps Tag) where
  framed := framed_fresh
  flagged := flagged_fresh
  shown := by
    intro u member between
    rcases List.mem_cons.1 member with rfl | member
    · exact absurd between.1 (lt_irrefl _)
    · rw [List.mem_singleton.1 member] at between
      exact absurd between.2 (lt_irrefl _)

theorem Plain.push (plain : Plain s) (between : Between t) (ne : ch ≠ 0) (ack : Bool) :
    Plain (s.push t ch ack) where
  framed := plain.framed.push between ch ack
  flagged := plain.flagged.push between ch ack
  shown := by
    intro u member inside
    rw [shown_eq_true, push_pps]
    by_cases same : u = t
    · subst same
      simpa using ne
    · rw [mark_pps_ne s same, ← shown_eq_true]
      exact plain.shown u ((mem_push.1 member).resolve_right same) inside

theorem Plain.attach (plain : Plain s) (between : Between t) (ne : ch ≠ 0) : Plain (s.attach t ch) := by
  rw [attach_of_ne s t ne]
  exact plain.push between ne true

/-- The visible tags are all but the ends. -/
theorem Plain.visible_eq (plain : Plain s) : s.ppsTags = tag0 :: (s.visible ++ [tag1]) := by
  obtain ⟨mid, shape, inside⟩ := plain.framed.ends
  have hidden0 : s.shown tag0 = false := shown_eq_false.2 plain.framed.hidden0
  have hidden1 : s.shown tag1 = false := shown_eq_false.2 plain.framed.hidden1
  have all : mid.filter s.shown = mid :=
    List.filter_eq_self.2 fun u member => plain.shown u (by simp [shape, member]) (inside u member)
  simp [visible, shape, hidden0, hidden1, List.filter_append, all]

/-- The neighbours at a position are the tags of the visible characters there. -/
theorem Plain.neighbours (plain : Plain s) {A B : List Tag} {l r : Tag} {pos : Nat}
    (shape : s.ppsTags = A ++ l :: r :: B) (index : A.length = pos) :
    (tag0 :: s.visible)[pos]? = some l ∧ (s.visible ++ [tag1])[pos]? = some r := by
  have both := plain.visible_eq.symm.trans shape
  constructor
  · have front : tag0 :: s.visible = A ++ l :: (r :: B).dropLast := by
      have := congrArg List.dropLast both
      rwa [← List.cons_append, List.dropLast_concat, List.dropLast_append_of_ne_nil (by simp),
        List.dropLast_cons_of_ne_nil (by simp)] at this
    rw [front, ← index]
    simp
  · have back : s.visible ++ [tag1] = (A ++ l :: r :: B).tail := (congrArg List.tail both)
    rw [back, List.getElem?_tail, ← index]
    simp

/-- The text left of a position. -/
theorem Plain.take_text (plain : Plain s) {A B : List Tag} {l r : Tag} {pos : Nat}
    (shape : s.ppsTags = A ++ l :: r :: B) (index : A.length = pos) :
    (s.textOf s.ppsTags).take pos = s.textOf (A ++ [l]) ∧
      (s.textOf s.ppsTags).drop pos = s.textOf (r :: B) := by
  have grouped : s.ppsTags = (A ++ [l]) ++ (r :: B) := by simp [shape]
  have length : (s.textOf (A ++ [l])).length = pos := by
    have front : A ++ [l] = (tag0 :: s.visible).take (pos + 1) := by
      have taken : (A ++ [l]) = s.ppsTags.take (pos + 1) := by
        rw [grouped, List.take_left' (by simp [index])]
      have room : pos + 1 ≤ (tag0 :: s.visible).length := by
        have lengths := congrArg List.length (plain.visible_eq.symm.trans shape)
        simp only [List.length_cons, List.length_append, List.length_nil] at lengths ⊢
        omega
      rw [taken, plain.visible_eq, ← List.cons_append, List.take_append_of_le_length room]
    have room : pos ≤ s.visible.length := by
      have := congrArg List.length front
      simp only [List.length_append, List.length_take, List.length_cons, List.length_nil] at this
      omega
    have hidden : s.shown tag0 = false := shown_eq_false.2 plain.framed.hidden0
    have counted : (s.visible.take pos).countP s.shown = (s.visible.take pos).length :=
      List.countP_eq_length.2 fun u member => (List.mem_filter.1 (List.mem_of_mem_take member)).2
    rw [front, List.take_succ_cons, length_textOf, List.countP_cons_of_neg (by simp [hidden]),
      counted, List.length_take, min_eq_left room]
  rw [grouped, textOf_append]
  exact ⟨List.take_left' length, List.drop_left' length⟩

end Plain

/-! ## Room for a character -/

section Exact

variable {s : Pps ℚ} {pos : Nat} {A B : List ℚ} {l r a b : ℚ}

/-- There is room at a position for client `index` of `numClients`: the neighbours
differ, an unacknowledged left neighbour of an acknowledged tag lies before the end
of the client's part of the gap, and an unacknowledged right neighbour of an
acknowledged tag behind the start of it. -/
def Roomy (s : Pps ℚ) (index numClients : Int) (pos : Nat) : Prop :=
  ∀ g ∈ s.gapAt pos,
    g.left < g.right ∧
      (s.ppsAck g.left = some false → s.ppsAck g.right = some true →
        g.left < cut g.start g.stop numClients (index + 1)) ∧
      (s.ppsAck g.left = some true → s.ppsAck g.right = some false →
        cut g.start g.stop numClients index < g.right)

instance (s : Pps ℚ) (index numClients : Int) (pos : Nat) : Decidable (s.Roomy index numClients pos) :=
  inferInstanceAs (Decidable (∀ g ∈ s.gapAt pos, _ ∧ (_ → _ → _) ∧ (_ → _ → _)))

theorem Place.roomy_iff (place : Place s pos A B l r a b) {index numClients : Int} :
    s.Roomy index numClients pos ↔ l < r ∧
      (s.ppsAck l = some false → s.ppsAck r = some true → l < cut a b numClients (index + 1)) ∧
      (s.ppsAck l = some true → s.ppsAck r = some false → cut a b numClients index < r) := by
  simp only [Roomy, place.gapAt, Option.mem_def, Option.some.injEq, forall_eq']

/-- The tag of an insertion lies strictly between its neighbours where there is room. -/
theorem strict_iff_roomy (framed : Framed s) (flagged : Flagged s) (place : Place s pos A B l r a b)
    {index numClients : Int} (nonneg : 0 ≤ index) (less : index < numClients) :
    l < s.middle index numClients l r a b ∧ s.middle index numClients l r a b < r ↔
      s.Roomy index numClients pos := by
  have positive : 0 < numClients := by omega
  obtain ⟨fl, flag_l⟩ := flagged.flag l place.left_mem
  obtain ⟨fr, flag_r⟩ := flagged.flag r place.right_mem
  have a_l := place.le_a framed
  have r_b := place.le_b framed
  have gap := place.gap_le framed
  have low := le_cut gap positive nonneg
  have high := cut_le gap positive (show index + 1 ≤ numClients by omega)
  rw [place.roomy_iff]
  unfold middle lower upper
  cases fl with
  | true =>
      have at_a := place.a_eq flag_l
      cases fr with
      | true =>
          have at_b := place.b_eq flag_r
          simp only [flag_l, flag_r, if_true, Option.some.injEq, false_implies, implies_true, and_true,
            Bool.true_eq_false]
          constructor
          · rintro ⟨left, right⟩
            linarith
          · intro lt
            have : cut a b numClients index < cut a b numClients (index + 1) :=
              cut_lt_cut (by linarith) positive (by omega)
            constructor <;> linarith
      | false =>
          simp only [flag_l, flag_r, if_true, if_false, Option.some.injEq, forall_const, false_implies,
            true_and, Bool.true_eq_false, Bool.false_eq_true]
          constructor
          · rintro ⟨left, right⟩
            constructor <;> linarith
          · rintro ⟨lt, right⟩
            constructor <;> linarith
  | false =>
      cases fr with
      | true =>
          have at_b := place.b_eq flag_r
          simp only [flag_l, flag_r, if_true, if_false, Option.some.injEq, forall_const, false_implies,
            and_true, Bool.false_eq_true]
          constructor
          · rintro ⟨left, right⟩
            constructor <;> linarith
          · rintro ⟨lt, left⟩
            constructor <;> linarith
      | false =>
          simp only [flag_l, flag_r, if_false, Option.some.injEq, forall_const, false_implies, and_true,
            Bool.false_eq_true]
          constructor
          · rintro ⟨left, right⟩
            linarith
          · intro lt
            constructor <;> linarith

end Exact

end Pps

/-! ## The character typed -/

/-- Typing `ch` at `pos` puts a tag strictly between the tags of the characters
around `pos` (or `'0'` and `'1'`), and the text `T` becomes `T` with `ch` there. -/
def Client.Intends {Tag Num : Type} [LinearOrder Tag] [BigNum Num] [BigTag Tag Num] (c : Client Tag)
    (T : Text) (pos : Nat) (ch : CharCode) : Prop :=
  ∃ c' t l r, c.insertText pos ch = some (c', t) ∧ (tag0 :: c.doc.visible)[pos]? = some l ∧
    (c.doc.visible ++ [tag1])[pos]? = some r ∧ l < t ∧ t < r ∧
      c'.doc.text = some (splice T pos pos [fromCharCode ch])

/-- **When a character lands where it was typed.** -/
theorem Client.intends_iff {c : Client ℚ} (plain : c.doc.Plain) (nonneg : 0 ≤ c.userPosition)
    (less : c.userPosition < c.userCount) {T : Text} (text : c.doc.text = some T) {pos : Nat}
    (valid : pos ≤ T.length) (ch : CharCode) :
    c.Intends T pos ch ↔ ch ≠ 0 ∧ c.doc.Roomy c.userPosition c.userCount pos := by
  have framed := plain.framed
  have same : c.doc.textOf c.doc.ppsTags = T := Option.some.inj (framed.text_eq.symm.trans text)
  have inside : pos ≤ c.doc.visible.length := framed.length_text text ▸ valid
  obtain ⟨A, B, l, r, a, b, place⟩ := Pps.exists_place framed plain.flagged inside
  obtain ⟨at_l, at_r⟩ := plain.neighbours place.shape place.index
  obtain ⟨before, behind⟩ := plain.take_text place.shape place.index
  rw [same] at before behind
  have inserted := Pps.insert_at framed plain.flagged inside place c.userPosition c.userCount ch
  rw [← Pps.strict_iff_roomy framed plain.flagged place nonneg less]
  generalize c.doc.middle c.userPosition c.userCount l r a b = t at inserted ⊢
  have typed : c.insertText pos ch = some ({ c with
      doc := c.doc.push t ch false, pendingChanges := c.pendingChanges.insert t ch }, t) := by
    simp only [insertText, inserted]
  -- strictly between its neighbours the tag is new, and its character goes between the two texts
  have landed : l < t → t < r →
      (c.doc.push t ch false).text = some (T.take pos ++ Pps.units ch ++ T.drop pos) := by
    intro left right
    have fresh : t ∉ c.doc.ppsTags := fun member => by
      have sorted := framed.sorted
      rw [place.shape] at sorted member
      rcases SortedList.not_between sorted member with low | high
      · exact absurd left (not_lt.2 low)
      · exact absurd right (not_lt.2 high)
    have pushed := Pps.push_between framed.sorted place.shape left.le right.le
    have between : Pps.Between t :=
      ⟨(framed.mem_bounds place.left_mem).1.trans_lt left,
        right.trans_le (framed.mem_bounds place.right_mem).2⟩
    rw [(framed.push between ch false).text_eq, Pps.textOf_push_between place.shape pushed fresh, before,
      behind]
  constructor
  · rintro ⟨c', t', l', r', typed', at_l', at_r', left, right, shows⟩
    cases typed.symm.trans typed'
    cases at_l.symm.trans at_l'
    cases at_r.symm.trans at_r'
    refine ⟨fun zero => ?_, left, right⟩
    have lengths := congrArg List.length (Option.some.inj ((landed left right).symm.trans shows))
    simp only [zero, Pps.units, splice, if_true, List.length_append, List.length_cons,
      List.length_nil] at lengths
    omega
  · rintro ⟨ne, left, right⟩
    refine ⟨_, t, l, r, typed, at_l, at_r, left, right, (landed left right).trans ?_⟩
    simp [Pps.units, ne, splice]

end ColabEdit.Browser
