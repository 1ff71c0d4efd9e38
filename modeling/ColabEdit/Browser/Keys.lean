/-
# ColabEdit.Browser.Keys -- the keys of a batch are written numbers

A page gets its tags from `'0'` and `'1'`, from `Big` numbers that it writes
itself, and from the batches of other pages; it writes the tags of its list and
of its insertions into `pendingChanges`.  So every key that a page sends is a
number as `Big` writes it (`built_of_run` of `ColabEdit.Session.Arithmetic`), in
particular none of the words that the server looks for (`IsNumber.ne`).
-/
import ColabEdit.Browser.Big
import ColabEdit.Browser.Client

namespace ColabEdit.Browser

set_option autoImplicit false

/-- The string is what `Big` writes for a number. -/
def IsNumber (t : String) : Prop := ∃ x : Big, x.toString = t

/-- No word that `Big` does not read. -/
theorem IsNumber.ne {t word : String} (number : IsNumber t) (unread : Big.parse word = none) : t ≠ word := by
  rintro rfl
  obtain ⟨x, rfl⟩ := number
  rw [Big.parse_toString] at unread
  cases unread

/-- Every key of the batch is a number. -/
def Built (b : Batch String) : Prop := ∀ t ∈ b.keys, IsNumber t

theorem isNumber_zero : IsNumber "0" := ⟨.ofInt 0, by decide +kernel⟩

theorem isNumber_one : IsNumber "1" := ⟨.ofInt 1, by decide +kernel⟩

/-- `insert` adds at most the tag it returns, a written number. -/
theorem Pps.insert_written {s s' : Pps String} {index numClients : Int} {pos : Nat} {ch : CharCode}
    {t : String} (inserted : s.insert index numClients pos ch = some (s', some t)) :
    IsNumber t ∧ ∀ u ∈ s'.ppsTags, u ∈ s.ppsTags ∨ u = t := by
  simp only [Pps.insert] at inserted
  split at inserted
  · split at inserted
    · cases inserted
    · split at inserted
      · cases inserted
        refine ⟨⟨_, rfl⟩, fun u member => ?_⟩
        rw [Pps.add, Pps.sort, List.mem_insertionSort, List.mem_append, Pps.sort,
          List.mem_insertionSort, List.mem_singleton] at member
        exact member
      · cases inserted
  · split at inserted <;> cases inserted

end ColabEdit.Browser
