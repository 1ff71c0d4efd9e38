/-
# ColabEdit.Browser.Sentinels -- the ends of the list, and edits that never fail

`PPS.insert` indexes the list at `lB` and `lB + 1` and uses what its two searches
found without a test.  A page whose runs mix its own edits at valid positions,
changes of others strictly between `0` and `1`, with repeated tags and any codes,
and new values of `(n, i)` keeps `'0'` first and `'1'` last (`Guarded`), so every
insertion finds its position and what it searches for (`Inserts`), and every
deletion names a tag that is not an end.

`sentinels_hold` states it for every reached page, in exact arithmetic.
-/
import ColabEdit.Browser.Intention

namespace ColabEdit.Browser

open BigTag
open Pps (Between Flagged Framed Place)

set_option autoImplicit false

/-- The pages reached from a login, with `n` clients and the position `i < n`. -/
inductive Client.Reached : Client ℚ → Prop
  | start {n i : Int} (nonneg : 0 ≤ i) (less : i < n) : Reached (Client.start n i)
  | type {c c' : Client ℚ} {pos : Nat} {ch : CharCode} {t : ℚ} (before : Reached c)
      (valid : pos ≤ c.doc.visible.length) (typed : c.insertText pos ch = some (c', t)) : Reached c'
  | erase {c : Client ℚ} {positions : List Nat} (before : Reached c)
      (valid : ∀ pos ∈ positions, 1 ≤ pos ∧ pos ≤ c.doc.visible.length) :
      Reached (c.deletePositions positions)
  | receive {c : Client ℚ} {t : ℚ} {ch : CharCode} (before : Reached c) (between : 0 < t ∧ t < 1) :
      Reached { c with doc := c.doc.attach t ch }
  | share {c : Client ℚ} {n i : Int} (before : Reached c) (nonneg : 0 ≤ i) (less : i < n) :
      Reached { c with userCount := n, userPosition := i }

namespace Pps

/-- The ends of the list, and the entries of every tag. -/
structure Guarded (s : Pps ℚ) : Prop where
  first : s.ppsTags.head? = some 0
  last : s.ppsTags.getLast? = some 1
  once : s.ppsTags.count 0 = 1 ∧ s.ppsTags.count 1 = 1
  hidden : s.shown 0 = false ∧ s.shown 1 = false
  acked : s.ppsAck 0 = some true ∧ s.ppsAck 1 = some true
  entries : ∀ t ∈ s.ppsTags, (s.pps t).isSome ∧ (s.ppsAck t).isSome

/-- `insert` finds everything it uses: the position, both neighbours with their
flags, so that one of its four tests holds, and the acknowledged tag of each
search that it makes. -/
structure Inserts (s : Pps ℚ) (index numClients : Int) (pos : Nat) (ch : CharCode) : Prop where
  found : s.countTo pos s.ppsTags 0 = (pos, true)
  reads : ∃ l r, s.ppsTags[pos]? = some l ∧ s.ppsTags[pos + 1]? = some r ∧
    (s.ppsAck l).isSome ∧ (s.ppsAck r).isSome ∧
    (s.ppsAck l = some false → (s.firstAck (s.ppsTags.take pos).reverse).isSome) ∧
    (s.ppsAck r = some false → (s.firstAck (s.ppsTags.drop (pos + 1 + 1))).isSome)
  returns : ∃ s' t, s.insert index numClients pos ch = some (s', some t) ∧ 0 < t ∧ t < 1

/-- What every page keeps of its document. -/
structure Sound (s : Pps ℚ) : Prop where
  framed : Framed s
  flagged : Flagged s
  known : ∀ t ∈ s.ppsTags, (s.pps t).isSome

namespace Sound

variable {s : Pps ℚ}

theorem fresh : Sound (Pps.fresh : Pps ℚ) where
  framed := framed_fresh
  flagged := flagged_fresh
  known := by
    intro t member
    have ends : t = tag0 ∨ t = tag1 := by simpa [Pps.fresh] using member
    simp [Pps.fresh, ends]

/-- A written tag has an entry. -/
theorem known_mark (sound : Sound s) (t : ℚ) (ch : CharCode) (ack : Bool) :
    ∀ u, u ∈ s.ppsTags ∨ u = t → ((s.mark t ch ack).pps u).isSome := by
  intro u member
  by_cases same : u = t
  · subst same
    simp
  · rw [mark_pps_ne s same]
    exact sound.known u (member.resolve_right same)

theorem hide (sound : Sound s) {t : ℚ} (between : Between t) : Sound (s.hide t) where
  framed := sound.framed.hide t
  flagged := sound.flagged.mark between 0 false
  known := fun u member => sound.known_mark t 0 false u (Or.inl member)

theorem hideAll (sound : Sound s) {tags : List ℚ} (between : ∀ t ∈ tags, Between t) :
    Sound (tags.foldl Pps.hide s) := by
  induction tags generalizing s with
  | nil => exact sound
  | cons t rest ih => exact ih (sound.hide (between t (by simp))) fun u hu => between u (by simp [hu])

theorem push (sound : Sound s) {t : ℚ} (between : Between t) (ch : CharCode) (ack : Bool) :
    Sound (s.push t ch ack) where
  framed := sound.framed.push between ch ack
  flagged := sound.flagged.push between ch ack
  known := fun u member => sound.known_mark t ch ack u (mem_push.1 member)

theorem attach (sound : Sound s) {t : ℚ} (between : Between t) (ch : CharCode) :
    Sound (s.attach t ch) := by
  by_cases zero : ch = 0
  · subst zero
    exact
      { framed := sound.framed.attach between 0
        flagged := sound.flagged.mark between 0 true
        known := fun u member => sound.known_mark t 0 true u (Or.inl member) }
  · rw [attach_of_ne s t zero]
    exact sound.push between ch true

/-- The ends stand where the ends of the list are, and nowhere else. -/
theorem guarded (sound : Sound s) : Guarded s := by
  obtain ⟨mid, shape, inside⟩ := sound.framed.ends
  have no_zero : mid.count 0 = 0 :=
    List.count_eq_zero.2 fun member => lt_irrefl (0 : ℚ) (inside 0 member).1
  have no_one : mid.count 1 = 0 :=
    List.count_eq_zero.2 fun member => lt_irrefl (1 : ℚ) (inside 1 member).2
  have ends : s.ppsTags = 0 :: (mid ++ [1]) := shape
  refine ⟨by rw [ends]; rfl, ?_, ?_, ?_, ⟨sound.flagged.zero, sound.flagged.one⟩, ?_⟩
  · rw [ends, ← List.cons_append]
    exact List.getLast?_concat
  · rw [ends]
    simp [no_zero, no_one]
  · exact ⟨shown_eq_false.2 sound.framed.hidden0, shown_eq_false.2 sound.framed.hidden1⟩
  · intro t member
    obtain ⟨b, flag⟩ := sound.flagged.flag t member
    exact ⟨sound.known t member, by simp [flag]⟩

theorem inserts (sound : Sound s) {index numClients : Int} (nonneg : 0 ≤ index)
    (less : index < numClients) {pos : Nat} (valid : pos ≤ s.visible.length) (ch : CharCode) :
    Inserts s index numClients pos ch := by
  obtain ⟨A, B, l, r, a, b, place⟩ := exists_place sound.framed sound.flagged valid
  obtain ⟨fl, flag_l⟩ := sound.flagged.flag l place.left_mem
  obtain ⟨fr, flag_r⟩ := sound.flagged.flag r place.right_mem
  refine ⟨sound.framed.countTo_found valid, ⟨l, r, place.at_left, place.at_right, by simp [flag_l],
    by simp [flag_r], ?_, ?_⟩, ?_⟩
  · -- the search from `l` on passes `l`
    intro unacked
    have search := place.left
    rw [firstAck, List.find?_cons_of_neg (by simp [unacked])] at search
    rw [place.taken, firstAck, search]
    rfl
  · intro unacked
    have search := place.right
    rw [firstAck, List.find?_cons_of_neg (by simp [unacked])] at search
    rw [place.dropped, firstAck, search]
    rfl
  · have between := middle_between sound.framed place nonneg less
    exact ⟨_, _, insert_at sound.framed sound.flagged valid place index numClients ch, between.1, between.2⟩

/-- A valid deletion names a tag between the ends. -/
theorem delete_between (sound : Sound s) {pos : Nat} (positive : 1 ≤ pos)
    (valid : pos ≤ s.visible.length) : ∃ t, s.delete pos = some t ∧ Between t := by
  obtain ⟨mid, shape, inside⟩ := sound.framed.ends
  have room := sound.framed.length_lt
  have bound : pos - 1 < mid.length := by
    rw [shape, List.length_cons, List.length_append, List.length_singleton] at room
    omega
  refine ⟨mid[pos - 1], ?_, inside _ (List.getElem_mem bound)⟩
  rw [sound.framed.delete_eq valid, shape, List.getElem?_cons, if_neg (by omega),
    List.getElem?_append_left bound, List.getElem?_eq_getElem bound]

end Sound

end Pps

namespace Client

theorem Reached.sound {c : Client ℚ} (reached : Reached c) :
    Pps.Sound c.doc ∧ 0 ≤ c.userPosition ∧ c.userPosition < c.userCount := by
  induction reached with
  | start nonneg less => exact ⟨.fresh, nonneg, less⟩
  | @type c c' pos ch t _ valid typed ih =>
      obtain ⟨sound, nonneg, less⟩ := ih
      obtain ⟨doc, inserted, rfl⟩ := insertText_spec typed
      have between := Pps.insert_between sound.framed nonneg less inserted
      obtain rfl := Pps.insert_push sound.framed.sorted inserted
      exact ⟨sound.push between ch false, nonneg, less⟩
  | @erase c positions _ valid ih =>
      obtain ⟨sound, nonneg, less⟩ := ih
      rw [deletePositions, hideAll_eq]
      refine ⟨sound.hideAll fun t member => ?_, nonneg, less⟩
      obtain ⟨pos, here, found⟩ := List.mem_filterMap.1 member
      obtain ⟨u, found', between⟩ := sound.delete_between (valid pos here).1 (valid pos here).2
      cases found.symm.trans found'
      exact between
  | @receive c t ch _ between ih =>
      obtain ⟨sound, nonneg, less⟩ := ih
      exact ⟨sound.attach between ch, nonneg, less⟩
  | share _ nonneg less ih => exact ⟨ih.1, nonneg, less⟩

/-- **The ends hold and edits never fail**, on every page that is reached. -/
theorem sentinels_hold {c : Client ℚ} (reached : Reached c) :
    c.doc.Guarded ∧
      (∀ pos ch, pos ≤ c.doc.visible.length →
        c.doc.Inserts c.userPosition c.userCount pos ch) ∧
      ∀ pos, 1 ≤ pos → pos ≤ c.doc.visible.length →
        ∃ t, c.doc.delete pos = some t ∧ t ≠ 0 ∧ t ≠ 1 := by
  obtain ⟨sound, nonneg, less⟩ := reached.sound
  refine ⟨sound.guarded, fun pos ch valid => sound.inserts nonneg less valid ch, ?_⟩
  intro pos positive valid
  obtain ⟨t, found, between⟩ := sound.delete_between positive valid
  exact ⟨t, found, between.1.ne', between.2.ne⟩

/-- The first page of two, with a tag that was inserted twice. -/
theorem sentinels_hold_repeated :
    let c := { (start 2 0 : Client ℚ) with doc := (Pps.fresh.attach (1 / 2) 97).attach (1 / 2) 98 }
    c.doc.Guarded ∧
      (∀ pos ch, pos ≤ c.doc.visible.length →
        c.doc.Inserts c.userPosition c.userCount pos ch) ∧
      ∀ pos, 1 ≤ pos → pos ≤ c.doc.visible.length →
        ∃ t, c.doc.delete pos = some t ∧ t ≠ 0 ∧ t ≠ 1 :=
  sentinels_hold (.receive (.receive (.start (by decide) (by decide)) (by norm_num)) (by norm_num))

end Client

end ColabEdit.Browser
