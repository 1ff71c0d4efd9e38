/-
# ColabEdit.Session.Screen -- the screen of a page in a run of the session

In every run of the session, with tags and arithmetic of any kind, every page has a
sorted tag list with both ends (`ended_of_run`).  Whatever change such a page meets
while its screen shows its document, the screen shows the document after it exactly
where the change `Follows` (`screen_follows_iff`).  In exact arithmetic, and for what
other pages pushed, that says little more than that an inserted tag is new and a
deleted one visible (`screen_follows_exact_iff`).

Pole: `deleted_twice` is a run in which two pages delete the same character; the
second deletion to arrive removes the neighbour from the screen.
-/
import ColabEdit.Browser.Editor
import ColabEdit.Session.Documents
import ColabEdit.Session.Trace

namespace ColabEdit.Session

open ColabEdit.Browser ColabEdit.Server ColabEdit.Theory

set_option autoImplicit false

section Screen

variable {C Name Tag Num : Type} [DecidableEq C] [DecidableEq Name] [LinearOrder Tag] [BigNum Num]
  [BigTag Tag Num] {userName : C → Name} {lower : Name → Name} {τ : List (Event C Tag)}
  {S : System C Name Tag}

omit [DecidableEq C] in
/-- Every operation keeps a list sorted and its ends in it. -/
theorem upholds_ended : Upholds (C := C) (fun _ => True) (fun (_ : Tag) _ => True) Pps.Ended where
  start := Pps.ended_fresh
  insert := by
    intro c client client' pos ch t _ ended _ _ typed
    obtain ⟨doc, inserted, rfl⟩ := Client.insertText_spec typed
    refine ⟨?_, trivial⟩
    change Pps.Ended doc
    rw [Pps.insert_push ended.sorted inserted]
    exact ended.push t ch false
  hide := fun _ _ t _ _ ended => ⟨ended.mark t 0 false, trivial⟩
  attach := fun _ t ch ended _ => ended.attach t ch

theorem ended_of_run (run : System.Run userName lower τ S) {c : C} {page : Page Tag}
    (opened : S.pages c = some page) : page.client.doc.Ended :=
  (upholds_ended.run run fun _ _ => trivial).docs c page opened

/-- **When the screen follows a change**, whoever pushed it and whatever it is. -/
theorem screen_follows_iff (run : System.Run userName lower τ S) {c : C} {page : Page Tag}
    (opened : S.pages c = some page) (T : Trix) {e : Editor} (synced : page.client.doc.text = some e.text)
    (caret : e.caret ≤ e.text.length) (tag : Tag) (ch : CharCode) :
    (Editor.attach T page.client.doc e tag ch).1.text =
        some (Editor.attach T page.client.doc e tag ch).2.text ↔
      Pps.Follows T page.client.doc e tag ch :=
  Pps.attach_follows_iff (ended_of_run run opened) synced caret tag ch

end Screen

/-- **In exact arithmetic**, for every change that anyone pushed: an insertion has a
tag that is new to the page or shows the same character; a deletion has a visible tag
that is there once, or one for which the editor removes nothing. -/
theorem screen_follows_exact_iff {C Name : Type} [DecidableEq C] [DecidableEq Name] {userName : C → Name}
    {lower : Name → Name} {τ : List (Event C ℚ)} {S : System C Name ℚ} (run : System.Run userName lower τ S)
    {c : C} {page : Page ℚ} (opened : S.pages c = some page) (T : Trix) {e : Editor}
    (synced : page.client.doc.text = some e.text) (caret : e.caret ≤ e.text.length)
    {u : C} {id : Nat} {batch : Batch ℚ} (stored : Event.stored u id batch ∈ τ) {tag : ℚ} {ch : CharCode}
    (entry : batch.lookup tag = some ch) :
    (Editor.attach T page.client.doc e tag ch).1.text =
        some (Editor.attach T page.client.doc e tag ch).2.text ↔
      (ch ≠ 0 → tag ∉ page.client.doc.ppsTags ∨
        page.client.doc.shown tag ∧ page.client.doc.char tag = fromCharCode ch) ∧
      (ch = 0 → tag ∈ page.client.doc.ppsTags ∧ page.client.doc.shown tag → page.client.doc.ppsTags.count tag = 1) ∧
      (ch = 0 → ¬ (tag ∈ page.client.doc.ppsTags ∧ page.client.doc.shown tag) →
        T.place e (page.client.doc.index tag + 1) = 0) := by
  have upheld := framed_of_run run (inside_of_run run)
  have framed := upheld.docs c page opened
  rw [screen_follows_iff run opened T synced caret]
  by_cases zero : ch = 0
  · subst zero
    simpa using framed.follows_delete_iff synced tag
  · have between := upheld.stored u id batch stored tag ch entry zero
    simpa [zero] using framed.follows_insert_iff synced between zero

/-- The screen of an empty page follows the first character another page pushed. -/
theorem screen_follows_first : ∃ (τ : List (Event Bool ℚ)) (S : System Bool Bool ℚ) (page : Page ℚ),
    System.Run id id τ S ∧ S.pages true = some page ∧
      (∃ stored ∈ storedBy τ false, stored.2.lookup (1 / 2) = some 97) ∧
      let after := Editor.attach Trix.clamped page.client.doc { text := [], caret := 0 } (1 / 2) 97
      after.1.text = some after.2.text := by
  obtain ⟨τ, S, run, stored, shows⟩ : ∃ (τ : List (Event Bool ℚ)) (S : System Bool Bool ℚ),
      System.Run id id τ S ∧
        (∃ stored ∈ storedBy τ false, stored.2.lookup (1 / 2) = some 97) ∧
        ((S.pages true).any fun page =>
          page.client.doc.text = some [] ∧
            page.client.doc.Follows Trix.clamped { text := [], caret := 0 } (1 / 2) 97) = true :=
    Machine.Run.of_replay (show ((System.machine id id).exec
        [.login false, .login true, .type false 0 97, .send false, .handlePush false]
        ([], System.init)).any _ = true by
      decide +kernel)
  obtain ⟨page, opened, shows⟩ := (Option.any_eq_true _ _).1 shows
  obtain ⟨empty, follows⟩ := of_decide_eq_true shows
  exact ⟨τ, S, page, run, opened, stored,
    (screen_follows_iff run opened Trix.clamped (e := { text := [], caret := 0 }) empty le_rfl (1 / 2) 97).2 follows⟩

/-- Two pages share `ab`; both delete `a`, and the first deletion is pushed. -/
def bothDelete : List (Action Bool ℚ) :=
  [.login false, .login true, .type false 0 97, .type false 1 98, .send false, .handlePush false,
    .endPush false, .beat true, .handleBeat true, .endBeat true [(1, [(1 / 2, 97), (3 / 4, 98)])],
    .erase true [1], .erase false [1], .send false, .handlePush false]

/-- The page of `true` shows `b` and deletes the `a` it deleted before: its
document still is `b`, its screen is empty. -/
theorem deleted_twice : ∃ (τ : List (Event Bool ℚ)) (S : System Bool Bool ℚ),
    System.Run id id τ S ∧
      (∃ stored ∈ storedBy τ false, stored.2.lookup (1 / 2) = some 0) ∧
      (S.pages true).any fun page =>
        let after := Editor.attach Trix.clamped page.client.doc { text := [98], caret := 1 } (1 / 2) 0
        page.client.doc.text = some [98] ∧ after.1.text = some [98] ∧ after.2.text = [] :=
  Machine.Run.of_replay (show ((System.machine id id).exec bothDelete ([], System.init)).any _ = true by
    decide +kernel)

end ColabEdit.Session
