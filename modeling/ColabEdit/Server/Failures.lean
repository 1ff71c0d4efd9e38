/-
# ColabEdit.Server.Failures -- what a push that raises leaves behind

`insertText` edits the server's document, takes an id and stores the batch before
it looks for the user, and it reads each entry of the object only when its turn
comes.  `Unchanged` compares the keys before and after by what a reader finds
there, up to the document that `PPS()` makes once.

`raised_unchanged_iff`: a push that raises leaves no trace exactly if everything
before the exception is without effect (`Traceless`): deletions of tags that the
document does not hold or holds as deleted, and, where the user is unknown, an id
and a batch that are there already.

Pole: `unknown_user_stored`, a push under a name that never logged in.
-/
import ColabEdit.Server.Handlers
import ColabEdit.Server.Json

namespace ColabEdit.Server

open ColabEdit.Theory

set_option autoImplicit false

/-! ## The document after the edits before an exception -/

namespace DocStore

/-- Two documents that no reader tells apart. -/
structure Same (d d' : DocStore) : Prop where
  tags : d'.tags = d.tags
  pps : ∀ t, d'.pps.lookup t = d.pps.lookup t
  persist : ∀ t, d'.persist.lookup t = d.persist.lookup t

/-- The edit changes nothing: the tag has no field, or is deleted already. -/
def Silent (d : DocStore) : DocEdit → Prop
  | .attach _ _ => False
  | .hide tag => tag ∈ d.pps → d.pps.lookup tag = some "0" ∧ d.persist.lookup tag = some .no
  | .malformed => True

theorem Same.mem {d d' : DocStore} (same : Same d d') (t : String) : t ∈ d'.pps ↔ t ∈ d.pps := by
  rw [← AList.lookup_isSome, ← AList.lookup_isSome, same.pps]

end DocStore

namespace PPS

open DocStore

/-- A silent edit keeps the document as it was. -/
theorem edited_same {d d' : DocStore} {e : DocEdit} (silent : Silent d e) (same : Same d d') :
    Same d (edited d' e) := by
  cases e with
  | attach tag x => exact silent.elim
  | malformed => exact same
  | hide tag =>
      show Same d (hidden d' tag)
      unfold hidden
      split
      · rename_i present
        obtain ⟨nothing, deleted⟩ := silent ((same.mem tag).1 present)
        refine ⟨same.tags, fun t => ?_, fun t => ?_⟩
        · exact (Hash.lookup_insert_same_iff.2 ((same.pps tag).trans nothing) t).trans (same.pps t)
        · exact (Hash.lookup_insert_same_iff.2 ((same.persist tag).trans deleted) t).trans (same.persist t)
      · exact same

/-- The tags grow with each insertion. -/
theorem foldl_edited_tags (edits : List DocEdit) (d : DocStore) :
    d.tags.length ≤ (edits.foldl edited d).tags.length ∧
      ((∃ tag x, DocEdit.attach tag x ∈ edits) → d.tags.length < (edits.foldl edited d).tags.length) := by
  induction edits generalizing d with
  | nil => simp
  | cons e rest ih =>
      obtain ⟨grows, more⟩ := ih (edited d e)
      rw [List.foldl_cons]
      cases e with
      | attach tag x =>
          have one : (edited d (.attach tag x)).tags.length = d.tags.length + 1 := by
            show ((d.tags ++ [tag]).insertionSort (· ≤ ·)).length = _
            rw [List.length_insertionSort, List.length_append, List.length_singleton]
          exact ⟨by omega, fun _ => by omega⟩
      | hide tag =>
          have none : (edited d (.hide tag)).tags = d.tags := by
            show (hidden d tag).tags = _
            unfold hidden
            split <;> rfl
          rw [none] at grows more
          exact ⟨grows, fun ⟨tag', x, member⟩ => more ⟨tag', x, by simpa using member⟩⟩
      | malformed => exact ⟨grows, fun ⟨tag', x, member⟩ => more ⟨tag', x, by simpa using member⟩⟩

/-- A field of a tag, deleted, stays so as long as nothing is inserted. -/
theorem foldl_edited_deleted {edits : List DocEdit} (noAttach : ∀ tag x, DocEdit.attach tag x ∉ edits)
    {d : DocStore} {tag : String} (present : tag ∈ d.pps)
    (deleted : .hide tag ∈ edits ∨ d.pps.lookup tag = some "0" ∧ d.persist.lookup tag = some .no) :
    (edits.foldl edited d).pps.lookup tag = some "0" ∧
      (edits.foldl edited d).persist.lookup tag = some .no := by
  induction edits generalizing d with
  | nil => simpa using deleted
  | cons e rest ih =>
      have later : ∀ tag x, DocEdit.attach tag x ∉ rest := fun tag x member =>
        noAttach tag x (List.mem_cons_of_mem _ member)
      rw [List.foldl_cons]
      cases e with
      | attach tag' x => exact absurd List.mem_cons_self (noAttach tag' x)
      | malformed => exact ih later present (by simpa [edited] using deleted)
      | hide tag' =>
          have kept : tag ∈ (hidden d tag').pps := by
            unfold hidden
            split
            · exact (AList.mem_insert _).2 (Or.inr present)
            · exact present
          refine ih later kept ?_
          by_cases here : tag = tag'
          · subst here
            refine Or.inr ?_
            simp only [edited, hidden, if_pos present, AList.lookup_insert, and_self]
          · rcases deleted with member | deleted
            · exact Or.inl ((List.mem_cons.1 member).resolve_left fun same => here (DocEdit.hide.inj same))
            · refine Or.inr ?_
              simp only [edited, hidden]
              split
              · simpa only [AList.lookup_insert_ne here] using deleted
              · exact deleted

/-- **The edits leave no trace exactly if each of them is silent.** -/
theorem foldl_edited_same_iff {edits : List DocEdit} {d : DocStore} :
    Same d (edits.foldl edited d) ↔ ∀ e ∈ edits, Silent d e := by
  constructor
  · intro same e member
    have noAttach : ∀ tag x, DocEdit.attach tag x ∉ edits := fun tag x attached => by
      have := (foldl_edited_tags edits d).2 ⟨tag, x, attached⟩
      rw [same.tags] at this
      omega
    cases e with
    | attach tag x => exact absurd member (noAttach tag x)
    | malformed => trivial
    | hide tag =>
        intro present
        rw [← same.pps, ← same.persist]
        exact foldl_edited_deleted noAttach present (Or.inl member)
  · intro silent
    have run : ∀ d', Same d d' → Same d (edits.foldl edited d') := by
      induction edits with
      | nil => exact fun d' same => same
      | cons e rest ih =>
          intro d' same
          exact ih (fun e member => silent e (List.mem_cons_of_mem _ member)) _
            (edited_same (silent e List.mem_cons_self) same)
    exact run d ⟨rfl, fun _ => rfl, fun _ => rfl⟩

end PPS

/-! ## The handler -/

section Push

variable {Name Batch : Type} [DecidableEq Name] (lower : Name → Name)

/-- The store after a request is as before, but for the document that `PPS()` makes. -/
structure Unchanged (s s' : Redis Name Batch) : Prop where
  id : s'.id = s.id
  changes : ∀ i, s'.changes.lookup i = s.changes.lookup i
  userChanges : ∀ user, s'.userChanges.lookup user = s.userChanges.lookup user
  doc : DocStore.Same (PPS.made s.doc) s'.doc

/-- Where a push raises, what it has done before is without effect: the edits
before the first malformed entry, or all edits, the counter and the batch. -/
def Traceless [Changes Batch] (s : Redis Name Batch) (user : Name) (batch : Batch) : Prop :=
  (.malformed ∈ Changes.edits batch →
    ∀ e ∈ PPS.carried (Changes.edits batch), DocStore.Silent (PPS.made s.doc) e) ∧
  (.malformed ∉ Changes.edits batch → s.userChanges.lookup user = none →
    (∀ e ∈ Changes.edits batch, DocStore.Silent (PPS.made s.doc) e) ∧
      s.id = some (intValue s.id + 1) ∧ s.changes.lookup (intValue s.id) = some batch)

/-- **A push that raises leaves no trace** exactly if it has done nothing before. -/
theorem raised_unchanged_iff (s : Redis Name PushedObject) (username : Name) (object : PushedObject) :
    (((insertText lower UserOrder.getChangeId username object).run Cmd.exec s).1 = none →
      Unchanged s ((insertText lower UserOrder.getChangeId username object).run Cmd.exec s).2) ↔
      Traceless s (lower username) object := by
  obtain ⟨malformed, ran⟩ | ⟨wellFormed, absent, ran⟩ | ⟨wellFormed, ids, present, ran⟩ :=
    insertText_ends lower s username object
  · rw [ran]
    constructor
    · intro unchanged
      have same := (unchanged rfl).doc
      exact ⟨fun _ => PPS.foldl_edited_same_iff.1 same, fun wellFormed => absurd malformed wellFormed⟩
    · intro traceless _
      exact ⟨rfl, fun _ => rfl, fun _ => rfl, PPS.foldl_edited_same_iff.2 (traceless.1 malformed)⟩
  · rw [ran]
    constructor
    · intro unchanged
      obtain ⟨counter, stored, -, same⟩ := unchanged rfl
      refine ⟨fun malformed => absurd malformed wellFormed, fun _ _ =>
        ⟨PPS.foldl_edited_same_iff.1 same, counter.symm, ?_⟩⟩
      have there := Hash.lookup_insert_same_iff.1 stored
      rwa [show some (intValue s.id + 1) = s.id from counter] at there
    · intro traceless _
      obtain ⟨silent, counter, stored⟩ := traceless.2 wellFormed absent
      refine ⟨counter.symm, Hash.lookup_insert_same_iff.2 ?_, fun _ => rfl,
        PPS.foldl_edited_same_iff.2 silent⟩
      rwa [← counter]
  · rw [ran]
    refine ⟨fun _ => ⟨fun malformed => absurd malformed wellFormed, fun _ absent => ?_⟩, nofun⟩
    rw [present] at absent
    cases absent

end Push

/-! ## Pole -/

/-- `A` has logged in.  A push under the name `b` raises, and its object is stored
under the id 1, where every heartbeat finds it. -/
theorem unknown_user_stored :
    let s : Redis Char PushedObject := ((initialize_ Char.toLower 'A').run Cmd.exec Redis.empty).2
    let object : PushedObject := ⟨AList.singleton "0.5" (.int 97)⟩
    let pushed := (insertText Char.toLower UserOrder.getChangeId 'b' object).run Cmd.exec s
    pushed.1 = none ∧ pushed.2.id = some 1 ∧ pushed.2.changes.lookup 1 = some object ∧
      ¬ Unchanged s pushed.2 := by
  refine ⟨by decide +kernel, by decide +kernel, rfl, fun unchanged => ?_⟩
  have counter := unchanged.id
  revert counter
  decide +kernel

end ColabEdit.Server
