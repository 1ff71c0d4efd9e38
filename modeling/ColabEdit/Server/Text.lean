/-
# ColabEdit.Server.Text -- the text of the server's document

`PPS.piece` of `app/model/pps.py`, lines 116 to 127.

`piece_eq`: over a list in which every tag has a field, a piece is the shown
strings of the tags from the left one to below the right one, one after the
other.  A field `'0'` shows nothing, whoever wrote it.
-/
import ColabEdit.Server.Handlers
import ColabEdit.Theory.SortedList

namespace ColabEdit.Server

open ColabEdit.Theory

set_option autoImplicit false

namespace PPS

/-! ## `piece` -/

/-- The loop of `piece`; `none` is the `KeyError` of a tag without a field. -/
def pieceFrom (d : DocStore) (left right : Nat) : List String → Nat → String → Option String
  | [], _, curDoc => some curDoc
  | tag :: rest, count, curDoc =>
      if left ≤ count ∧ count < right then
        match d.pps.lookup tag with
        | some x => pieceFrom d left right rest (count + 1) (if x ≠ "0" then curDoc ++ x else curDoc)
        | none => none
      else pieceFrom d left right rest (count + 1) curDoc

def piece (d : DocStore) (posStampLeft posStampRight : String) : Option String :=
  match d.tags.idxOf? posStampLeft, d.tags.idxOf? posStampRight with
  | some left, some right => pieceFrom d left right d.tags 0 ""
  | _, _ => some ""

/-- What a field adds to the text. -/
def shown (x : String) : String := if x ≠ "0" then x else ""

/-- The loop over a list of which every tag in reach has a field. -/
theorem pieceFrom_eq {d : DocStore} {read : String → String} {left right : Nat} (le : left ≤ right)
    (tags : List String) (count : Nat) (curDoc : String)
    (fields : ∀ t ∈ (tags.take (right - count)).drop (left - count), d.pps.lookup t = some (read t)) :
    ∃ text, pieceFrom d left right tags count curDoc = some text ∧
      text.toList = curDoc.toList ++
        ((tags.take (right - count)).drop (left - count)).flatMap fun t => (shown (read t)).toList := by
  induction tags generalizing count curDoc with
  | nil => exact ⟨curDoc, rfl, by simp⟩
  | cons tag rest ih =>
      rw [pieceFrom]
      by_cases before : count < left
      · -- the slice starts behind this tag
        have slice : ((tag :: rest).take (right - count)).drop (left - count) =
            (rest.take (right - (count + 1))).drop (left - (count + 1)) := by
          rw [show right - count = right - (count + 1) + 1 by omega,
            show left - count = left - (count + 1) + 1 by omega, List.take_succ_cons, List.drop_succ_cons]
        rw [if_neg (by omega), slice]
        rw [slice] at fields
        exact ih _ curDoc fields
      by_cases inside : count < right
      · have slice : ((tag :: rest).take (right - count)).drop (left - count) =
            tag :: (rest.take (right - (count + 1))).drop (left - (count + 1)) := by
          rw [show right - count = right - (count + 1) + 1 by omega, show left - count = 0 by omega,
            show left - (count + 1) = 0 by omega, List.take_succ_cons, List.drop_zero, List.drop_zero]
        rw [slice] at fields ⊢
        rw [if_pos ⟨by omega, inside⟩, fields tag (by simp)]
        obtain ⟨text, looped, is⟩ := ih _ (if read tag ≠ "0" then curDoc ++ read tag else curDoc)
          fun t member => fields t (List.mem_cons_of_mem _ member)
        refine ⟨text, looped, ?_⟩
        rw [is, List.flatMap_cons, ← List.append_assoc]
        congr 1
        unfold shown
        split <;> simp
      · -- the slice is over
        have slice : ∀ l : List String, ∀ n, n ≤ count + 1 → count ≤ n →
            (l.take (right - n)).drop (left - n) = [] := fun l n _ _ => by
          rw [show right - n = 0 by omega, List.take_zero, List.drop_nil]
        rw [if_neg (by omega), slice _ count (by omega) le_rfl]
        obtain ⟨text, looped, is⟩ := ih (count + 1) curDoc
          (by rw [slice _ (count + 1) le_rfl (by omega)]; simp)
        rw [slice _ (count + 1) le_rfl (by omega)] at is
        exact ⟨text, looped, is⟩

/-- A piece between two tags of a sorted list. -/
theorem piece_eq {d : DocStore} {read : String → String} (sorted : d.tags.Pairwise (· ≤ ·))
    (fields : ∀ t ∈ d.tags, d.pps.lookup t = some (read t)) {l r : String} (left : l ∈ d.tags)
    (right : r ∈ d.tags) (le : l ≤ r) :
    ∃ text, piece d l r = some text ∧
      text.toList = (d.tags.filter fun t => l ≤ t ∧ t < r).flatMap fun t => (shown (read t)).toList := by
  obtain ⟨i, first⟩ := SortedList.exists_idxOf left
  obtain ⟨j, last⟩ := SortedList.exists_idxOf right
  obtain ⟨text, looped, is⟩ := pieceFrom_eq (SortedList.idxOf_le sorted le first last) d.tags 0 ""
    fun t member => fields t (List.mem_of_mem_take (List.mem_of_mem_drop member))
  refine ⟨text, ?_, ?_⟩
  · simp only [piece, first, last]
    exact looped
  · rw [is, Nat.sub_zero, Nat.sub_zero, SortedList.slice_eq sorted le first last]
    rfl

end PPS

end ColabEdit.Server
