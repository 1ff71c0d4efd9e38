/-
# ColabEdit.Session.Documents -- what holds of every tag list and every change

A property `Q` of tag lists and a property `P` of changes that belong together:
insertions and deletions of a list with `Q` make changes with `P`, and a list with
`Q` keeps it under its own edits and under changes with `P`.  `Upholds` is what
has to be shown of the operations, under a condition `E` on the events of the
run; then every page, every batch and every insertion of the run has its property
(`Upholds.run`).

The first use is `framed_of_run`: where every inserted tag lies between `'0'` and
`'1'`, every page has a framed tag list.  In exact arithmetic every run is such a
run (`inside_of_run`).
-/
import ColabEdit.Browser.Gap
import ColabEdit.Session.Roster

namespace ColabEdit.Session

open ColabEdit.Browser ColabEdit.Browser.BigTag ColabEdit.Server ColabEdit.Theory

set_option autoImplicit false
set_option linter.unusedSectionVars false

/-- Every entry of the batch has the property. -/
def Entries {Tag : Type} [DecidableEq Tag] (P : Tag → CharCode → Prop) (b : Batch Tag) : Prop :=
  ∀ t ch, b.lookup t = some ch → P t ch

namespace Entries

variable {Tag : Type} [DecidableEq Tag] {P : Tag → CharCode → Prop} {b : Batch Tag}

theorem empty : Entries P ∅ := fun t ch found => by
  rw [AList.lookup_empty] at found
  cases found

theorem insert (each : Entries P b) {t : Tag} {ch : CharCode} (holds : P t ch) :
    Entries P (b.insert t ch) := by
  intro u x found
  by_cases same : u = t
  · subst same
    rw [AList.lookup_insert] at found
    cases found
    exact holds
  · rw [AList.lookup_insert_ne same] at found
    exact each u x found

end Entries

section Defs

variable {C Name Tag Num : Type} [LinearOrder Tag] [BigNum Num] [BigTag Tag Num]

/-- The operations of a page uphold `P` and `Q` in runs of events with `E`. -/
structure Upholds (E : Event C Tag → Prop) (P : Tag → CharCode → Prop) (Q : Pps Tag → Prop) :
    Prop where
  start : Q Pps.fresh
  insert : ∀ (c : C) (client client' : Client Tag) pos ch t, E (.inserted c client pos ch t) →
    Q client.doc → 0 ≤ client.userPosition → client.userPosition < client.userCount →
    client.insertText pos ch = some (client', t) → Q client'.doc ∧ P t ch
  hide : ∀ (c : C) s t, E (.deleted c t) → t ∈ s.ppsTags → Q s → Q (s.hide t) ∧ P t 0
  attach : ∀ s t ch, Q s → P t ch → Q (s.attach t ch)

/-- `P` and `Q` hold all over a run. -/
structure Upheld (P : Tag → CharCode → Prop) (Q : Pps Tag → Prop) (τ : List (Event C Tag))
    (S : System C Name Tag) : Prop where
  docs : ∀ c page, S.pages c = some page → Q page.client.doc
  pending : ∀ c page, S.pages c = some page → Entries P page.client.pendingChanges
  sent : ∀ c page batch, S.pages c = some page → page.push = .sent batch → Entries P batch
  stored : ∀ c id batch, Event.stored c id batch ∈ τ → Entries P batch
  inserted : ∀ c client pos ch t, Event.inserted c client pos ch t ∈ τ →
    Q client.doc ∧ 0 ≤ client.userPosition ∧ client.userPosition < client.userCount ∧
      ∃ client', client.insertText pos ch = some (client', t)

end Defs

section Runs

variable {C Name Tag Num : Type} [DecidableEq C] [DecidableEq Name] [LinearOrder Tag] [BigNum Num]
  [BigTag Tag Num] {userName : C → Name} {lower : Name → Name} {τ : List (Event C Tag)}
  {S S' : System C Name Tag} {evs : List (Event C Tag)} {E : Event C Tag → Prop}
  {P : Tag → CharCode → Prop} {Q : Pps Tag → Prop}

theorem Upheld.setPage (upheld : Upheld P Q τ S) {redis : Redis Name (Batch Tag)} {c : C}
    {page' : Page Tag} (doc : Q page'.client.doc) (pending : Entries P page'.client.pendingChanges)
    (sent : ∀ batch, page'.push = .sent batch → Entries P batch)
    (stored : ∀ u id batch, Event.stored u id batch ∈ evs → Entries P batch)
    (inserted : ∀ u client pos ch t, Event.inserted u client pos ch t ∈ evs →
      Q client.doc ∧ 0 ≤ client.userPosition ∧ client.userPosition < client.userCount ∧
        ∃ client', client.insertText pos ch = some (client', t)) :
    Upheld P Q (τ ++ evs) (({ S with redis := redis } : System C Name Tag).setPage c page') where
  docs := by
    intro c' other opened
    rcases setPage_cases opened with ⟨rfl, rfl⟩ | ⟨-, opened⟩
    · exact doc
    · exact upheld.docs c' other opened
  pending := by
    intro c' other opened
    rcases setPage_cases opened with ⟨rfl, rfl⟩ | ⟨-, opened⟩
    · exact pending
    · exact upheld.pending c' other opened
  sent := by
    intro c' other batch opened flying
    rcases setPage_cases opened with ⟨rfl, rfl⟩ | ⟨-, opened⟩
    · exact sent batch flying
    · exact upheld.sent c' other batch opened flying
  stored := by
    intro u id batch member
    rcases List.mem_append.1 member with old | new
    · exact upheld.stored u id batch old
    · exact stored u id batch new
  inserted := by
    intro u client pos ch t member
    rcases List.mem_append.1 member with old | new
    · exact upheld.inserted u client pos ch t old
    · exact inserted u client pos ch t new

/-- The tags of a deletion are hidden one after the other. -/
theorem Upholds.hideAll (upholds : Upholds E P Q) (c : C) (tags : List Tag) {client : Client Tag}
    (each : ∀ t ∈ tags, E (.deleted c t)) (listed : ∀ t ∈ tags, t ∈ client.doc.ppsTags)
    (doc : Q client.doc) (pending : Entries P client.pendingChanges) :
    Q (tags.foldl Client.hideTag client).doc ∧
      Entries P (tags.foldl Client.hideTag client).pendingChanges := by
  induction tags generalizing client with
  | nil => exact ⟨doc, pending⟩
  | cons t rest ih =>
      obtain ⟨hidden, deletion⟩ := upholds.hide c client.doc t (each t (by simp)) (listed t (by simp)) doc
      exact ih (fun u member => each u (by simp [member])) (fun u member => listed u (by simp [member]))
        hidden (pending.insert deletion)

theorem Upholds.attachAll (upholds : Upholds E P Q) {s : Pps Tag} {entries : List (Tag × CharCode)}
    (holds : Q s) (each : ∀ e ∈ entries, P e.1 e.2) : Q (s.attachAll entries) := by
  induction entries generalizing s with
  | nil => exact holds
  | cons e rest ih =>
      exact ih (upholds.attach s e.1 e.2 holds (each e (by simp))) fun d member =>
        each d (by simp [member])

theorem Upholds.step (upholds : Upholds E P Q) (sound : Sound userName lower τ S)
    (each : ∀ e ∈ τ ++ evs, E e) (upheld : Upheld P Q τ S) (step : Step userName lower S evs S') :
    Upheld P Q (τ ++ evs) S' := by
  have here : ∀ e ∈ evs, E e := fun e member => each e (List.mem_append_right _ member)
  cases step with
  | invalid => simpa using upheld
  | login c closed free =>
      exact upheld.setPage upholds.start Entries.empty (by simp) (by simp) (by simp)
  | type c page client pos ch tag opened typed =>
      have doc := upheld.docs c page opened
      obtain ⟨position, -, is⟩ := sound.roster.user c page opened
      have low : 0 ≤ page.client.userPosition := by omega
      have high := sound.roster.counted c page opened
      obtain ⟨kept, entry⟩ := upholds.insert c page.client client pos ch tag
        (here _ (List.mem_singleton_self _)) doc low high typed
      refine upheld.setPage kept ?_ (fun batch => upheld.sent c page batch opened) (by simp) ?_
      · obtain ⟨d, -, rfl⟩ := Client.insertText_spec typed
        exact (upheld.pending c page opened).insert entry
      · intro u other p x t member
        cases List.mem_singleton.1 member
        exact ⟨doc, low, high, client, typed⟩
  | erase c page positions opened =>
      have listed : ∀ t ∈ page.client.deleteTags positions, t ∈ page.client.doc.ppsTags := by
        intro t member
        obtain ⟨pos, -, found⟩ := List.mem_filterMap.1 member
        exact Pps.delete_mem found
      obtain ⟨doc, pending⟩ := upholds.hideAll c (page.client.deleteTags positions)
        (fun t member => here _ (List.mem_map_of_mem member)) listed (upheld.docs c page opened)
        (upheld.pending c page opened)
      exact upheld.setPage doc pending
        (fun batch flying => upheld.sent c page batch opened flying) (by simp) (by simp)
  | send c page opened ready =>
      refine upheld.setPage (upheld.docs c page opened) Entries.empty (fun batch flying => ?_) (by simp)
        (by simp)
      cases flying
      exact upheld.pending c page opened
  | handlePush c page batch ids d opened sent listed =>
      refine upheld.setPage (upheld.docs c page opened) (upheld.pending c page opened) (by simp)
        (fun u id b member => ?_) (by simp)
      cases List.mem_singleton.1 member
      exact upheld.sent c page batch opened sent
  | endPush c page id opened answered =>
      exact upheld.setPage (upheld.docs c page opened) (upheld.pending c page opened) (by simp) (by simp)
        (by simp)
  | beat c page opened =>
      exact upheld.setPage (upheld.docs c page opened) (upheld.pending c page opened)
        (fun batch => upheld.sent c page batch opened) (by simp) (by simp)
  | handleBeat c page last reply position ids own opened sent user listed parsed count place new read =>
      exact upheld.setPage (upheld.docs c page opened) (upheld.pending c page opened)
        (fun batch => upheld.sent c page batch opened) (by simp) (by simp)
  | endBeat c page reply transactions opened answered reordered =>
      obtain ⟨doc, pending, -⟩ := Client.applyBatches_spec
        { page.client with userCount := reply.userCount, userPosition := reply.userPosition } transactions
      obtain ⟨-, mailed⟩ := sound.mail.answered c page reply opened answered
      refine upheld.setPage ?_ ?_ (fun batch => upheld.sent c page batch opened) (by simp) (by simp)
      · rw [Client.applyReply, doc]
        refine upholds.attachAll (upheld.docs c page opened) fun e member => ?_
        obtain ⟨b, inReply, entry⟩ := List.mem_flatMap.1 member
        obtain ⟨stored, logged, -, perm⟩ := reordered.source inReply
        obtain ⟨-, u, -, logged⟩ := mailed stored logged
        exact upheld.stored u stored.1 stored.2 logged e.1 e.2
          (Batch.mem_pairs.1 (perm.mem_iff.1 entry))
      · rw [Client.applyReply, pending]
        exact upheld.pending c page opened

/-- **What the operations uphold holds all over every run.** -/
theorem Upholds.run (upholds : Upholds E P Q) (run : System.Run userName lower τ S)
    (each : ∀ e ∈ τ, E e) : Upheld P Q τ S := by
  refine Run.induct (P := fun τ => ∀ e ∈ τ, E e)
    (fun each e member => each e (List.mem_append_left _ member)) ?_
    (fun sound each upheld step => upholds.step sound each upheld step) run each
  constructor <;> simp [System.init]

/-! ## Framed tag lists -/

/-- The event is no insertion of a tag outside `'0'` and `'1'`. -/
def Event.Inside : Event C Tag → Prop
  | .inserted _ _ _ _ t => Pps.Between t
  | _ => True

/-- Framed lists stay framed where every insertion lands inside. -/
theorem upholds_framed (inside : ∀ (c : C) (client client' : Client Tag) pos ch t,
      E (.inserted c client pos ch t) → client.doc.Framed → 0 ≤ client.userPosition →
      client.userPosition < client.userCount → client.insertText pos ch = some (client', t) →
      Pps.Between t) :
    Upholds E (fun t ch => ch ≠ 0 → Pps.Between t) Pps.Framed where
  start := Pps.framed_fresh
  insert := by
    intro c client client' pos ch t meets framed low high typed
    have between := inside c client client' pos ch t meets framed low high typed
    obtain ⟨doc, inserted, rfl⟩ := Client.insertText_spec typed
    refine ⟨?_, fun _ => between⟩
    change Pps.Framed doc
    rw [Pps.insert_push framed.sorted inserted]
    exact framed.push between ch false
  hide := fun c s t _ _ framed => ⟨framed.hide t, fun ne => absurd rfl ne⟩
  attach := by
    intro s t ch framed between
    by_cases zero : ch = 0
    · subst zero
      exact framed.mark_zero t true
    · exact framed.attach (between zero) ch

/-- Every tag list of a run is framed, and what anyone pushed lies inside. -/
theorem framed_of_run (run : System.Run userName lower τ S) (inside : ∀ e ∈ τ, e.Inside) :
    Upheld (fun t ch => ch ≠ 0 → Pps.Between t) Pps.Framed τ S :=
  (upholds_framed fun _ _ _ _ _ _ inside _ _ _ _ => inside).run run inside

end Runs

section Exact

variable {C Name : Type} [DecidableEq C] [DecidableEq Name] {userName : C → Name}
  {lower : Name → Name} {τ : List (Event C ℚ)} {S : System C Name ℚ}

/-- **In exact arithmetic every insertion of every run lands inside.** -/
theorem inside_of_run (run : System.Run userName lower τ S) : ∀ e ∈ τ, e.Inside := by
  have between : ∀ (client client' : Client ℚ) pos ch t, client.doc.Framed → 0 ≤ client.userPosition →
      client.userPosition < client.userCount → client.insertText pos ch = some (client', t) →
      Pps.Between t := by
    intro client client' pos ch t framed low high typed
    obtain ⟨doc, inserted, -⟩ := Client.insertText_spec typed
    exact Pps.insert_between framed low high inserted
  have upheld := (upholds_framed (E := fun _ : Event C ℚ => True)
    fun _ client client' pos ch t _ => between client client' pos ch t).run run fun _ _ => trivial
  intro e member
  cases e with
  | inserted c client pos ch t =>
      obtain ⟨framed, low, high, client', typed⟩ := upheld.inserted c client pos ch t member
      exact between client client' pos ch t framed low high typed
  | deleted => trivial
  | stored => trivial
  | applied => trivial

end Exact

end ColabEdit.Session
