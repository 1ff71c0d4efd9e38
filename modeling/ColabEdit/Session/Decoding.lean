/-
# ColabEdit.Session.Decoding -- what the server's document makes of a batch

A page encodes its changes as one object from tags to codes
(`startSendChanges` of `colab.js`); `insertText` of `app/control/router.py` looks
for the keys `'insert'` and `'delete'` (`dispatch`).  No key of a page is one of
them (`edits_of_run`), so a push leaves the server's document as `PPS()` makes it
(`document_of_run`), with nothing to show.

`decoded_iff`: the server's text is that of a page that attached the pushed
batches exactly while every tag from `'0'` to `'1'` was last pushed as deleted.

Pole: `decoded_nothing`, the first insertion.
-/
import ColabEdit.Server.Phases
import ColabEdit.Server.Requests
import ColabEdit.Session.Arithmetic
import ColabEdit.Session.Pieces

namespace ColabEdit.Session

open ColabEdit.Browser ColabEdit.Server
open ColabEdit.Server.Requests (Run)
open ColabEdit.Theory

set_option autoImplicit false

/-- `changesToBePushed` as the server reads it from the request. -/
structure SentChanges where
  changes : Batch String

/-- One turn of the loop over the keys.  The code of a tag is a number: it has no
entries `0` and `1` to attach, and is hidden as a string. -/
def dispatch (e : String × CharCode) : Option DocEdit :=
  if e.1 = "insert" then some .malformed
  else if e.1 = "delete" then some (.hide (.ofList (str e.2.toNat)))
  else none

instance : Changes SentChanges where
  edits := fun sent => sent.changes.pairs.filterMap dispatch

/-- **A page's batch says nothing to the server.** -/
theorem edits_of_built {sent : SentChanges} (built : Built sent.changes) : Changes.edits sent = [] := by
  refine List.filterMap_eq_nil_iff.2 fun e member => ?_
  have key : e.1 ∈ sent.changes.keys := by
    rw [← AList.mem_keys, ← AList.lookup_isSome, Batch.mem_pairs.1 member]
    rfl
  rw [dispatch, if_neg ((built _ key).ne (by decide +kernel)), if_neg ((built _ key).ne (by decide +kernel))]

/-- Whatever the session, what its pages send is such a batch. -/
theorem edits_of_run {C Name : Type} [DecidableEq C] [DecidableEq Name] {userName : C → Name}
    {lower : Name → Name} {τ : List (Event C String)} {S : System C Name String}
    (run : System.Run userName lower τ S) {c : C} {page : Page String} {batch : Batch String}
    (opened : S.pages c = some page) (sends : page.push = .sent batch) :
    Changes.edits (SentChanges.mk batch) = [] :=
  edits_of_built (built_of_run run opened sends)

section Runs

variable {Name : Type} [DecidableEq Name] {lower : Name → Name} {empty : Name}
variable {τ evs : List (Requests.Event Name SentChanges)} {s s' : Redis Name SentChanges}

/-- The batches that were pushed, in order. -/
def sent (τ : List (Requests.Event Name SentChanges)) : List (Batch String) :=
  τ.filterMap fun
    | .sendChanges _ batch _ => some batch.changes
    | _ => none

/-- Their entries, in order. -/
def sentEntries (τ : List (Requests.Event Name SentChanges)) : List (String × CharCode) :=
  (sent τ).flatMap Batch.pairs

/-- The page that attaches the batches. -/
def follower (τ : List (Requests.Event Name SentChanges)) : Pps String :=
  Pps.fresh.attachAll (sentEntries τ)

omit [DecidableEq Name] in
theorem sent_append : sent (τ ++ evs) = sent τ ++ sent evs := List.filterMap_append

/-! ## The server's document -/

/-- The command is not one on the keys of the document. -/
def KeepsDoc (c : Cmd Name SentChanges) : Prop := ¬ IsDoc c

theorem KeepsDoc.exec {c : Cmd Name SentChanges} (keeps : KeepsDoc c) (s : Redis Name SentChanges) :
    (c.exec s).2.doc = s.doc := by
  cases c <;> first | rfl | exact absurd trivial keeps

/-- A push of nothing to attach or hide makes the document, if it is not there. -/
theorem insertText_document {username : Name} {batch : SentChanges} (nothing : Changes.edits batch = [])
    (s : Redis Name SentChanges) :
    ((insertText lower UserOrder.getChangeId username batch).run Cmd.exec s).2.doc = PPS.made s.doc := by
  have owner : ∀ i, (recordOwner lower username i : Handler Name SentChanges Nat).Only KeepsDoc :=
    recordOwner_only lower id fun _ => id
  simp only [insertText, Prog.run_bind, PPS.init_made, nothing, getChangeId_run, Prog.op_bind, Prog.run_call]
  exact (owner _).same (f := fun t : Redis Name SentChanges => t.doc) (fun _ t keeps => keeps.exec t) _

theorem step_document {r : Request Name SentChanges} (taken : Requests.step lower empty s r = some (s', evs))
    (built : ∀ b ∈ sent evs, Built b) : s'.doc = s.doc ∨ s'.doc = PPS.made s.doc := by
  cases r with
  | login username =>
      cases taken
      refine Or.inl ?_
      rcases initialize_cases lower s username with ⟨-, ran⟩ | ⟨-, ran⟩ <;> rw [ran]
  | sendChanges username batch =>
      cases taken
      exact Or.inr (insertText_document (edits_of_built (built _ (List.mem_singleton_self _))) s)
  | heartbeat username last =>
      cases taken
      refine Or.inl ?_
      show ((heartbeat id (lower username) last).run Cmd.exec s).2.doc = s.doc
      exact (heartbeat_only _ last).same (f := fun t : Redis Name SentChanges => t.doc)
        (fun _ t isRead => congrArg Redis.doc (isRead.exec t)) s
  | deinitializeCall username =>
      cases taken
      rw [deinitialize_run]
      exact Or.inl rfl

/-- **The document never changes once it is made.** -/
theorem document_of_run (run : Run lower empty τ s) (built : ∀ b ∈ sent τ, Built b) :
    s.doc = (Redis.empty : Redis Name SentChanges).doc ∨
      s.doc = PPS.made (Redis.empty : Redis Name SentChanges).doc := by
  refine Machine.Run.guarded (C := fun τ => ∀ b ∈ sent τ, Built b)
    (I := fun _ s => s.doc = (Redis.empty : Redis Name SentChanges).doc ∨
      s.doc = PPS.made (Redis.empty : Redis Name SentChanges).doc) ?_ (Or.inl rfl) ?_ run built
  · intro τ evs built b member
    exact built b (sent_append ▸ List.mem_append_left _ member)
  · rintro τ s r s' evs - built made taken
    have now : ∀ b ∈ sent evs, Built b := fun b member =>
      built b (sent_append ▸ List.mem_append_right _ member)
    have again : PPS.made (PPS.made (Redis.empty : Redis Name SentChanges).doc) =
        PPS.made (Redis.empty : Redis Name SentChanges).doc := rfl
    rcases step_document taken now with same | next
    · rw [same]
      exact made
    · refine Or.inr ?_
      rcases made with before | before <;> rw [next, before]
      exact again

/-! ## The two texts -/

/-- The server shows nothing. -/
theorem server_text (run : Run lower empty τ s) (built : ∀ b ∈ sent τ, Built b) :
    PPS.piece s.doc "0" "1" = some "" := by
  rcases document_of_run run built with is | is <;> rw [is] <;> rfl

/-- A page shows nothing exactly if its tags from `'0'` to `'1'` do not. -/
theorem text_eq_nil_iff (entries : List (String × CharCode)) :
    (Pps.fresh.attachAll entries : Pps String).text = some [] ↔
      ∀ t, "0" ≤ t → t ≤ "1" → lastCode entries t = 0 := by
  have remembers : Pps.Remembers entries (Pps.fresh.attachAll entries : Pps String) := Pps.remembers entries
  have code : ∀ ch : CharCode, Pps.units ch = [] ↔ ch = 0 := fun ch => by
    unfold Pps.units
    split <;> simp_all
  rw [Pps.text, Pps.piece_eq remembers.sorted remembers.zero remembers.one (by decide),
    remembers.textOf_eq fun t member => (List.mem_filter.1 member).1,
    remembers.textOf_eq (by simpa using remembers.one), Option.some.injEq, List.append_eq_nil_iff,
    List.flatMap_eq_nil_iff, List.flatMap_eq_nil_iff]
  simp only [code, List.mem_singleton, forall_eq, List.mem_filter, decide_eq_true_eq]
  constructor
  · rintro ⟨below, last⟩ t low high
    rcases high.lt_or_eq with lt | rfl
    · by_contra shows
      exact shows (below t ⟨remembers.shown t shows, low, lt⟩)
    · exact last
  · intro nothing
    exact ⟨fun t inside => nothing t inside.2.1 inside.2.2.le, nothing "1" (by decide) le_rfl⟩

/-- **The server decodes the batches exactly while they leave nothing to see**: every
tag from `'0'` to `'1'` was last pushed as deleted. -/
theorem decoded_iff (run : Run lower empty τ s) (built : ∀ b ∈ sent τ, Built b) :
    (PPS.piece s.doc "0" "1").map decoded = (follower τ).text ↔
      ∀ t, "0" ≤ t → t ≤ "1" → lastCode (sentEntries τ) t = 0 := by
  rw [server_text run built, ← text_eq_nil_iff]
  exact eq_comm

end Runs

theorem isNumber_half : IsNumber "0.5" := ⟨.div (.ofInt 1) (.ofInt 2), by decide +kernel⟩

/-- `a` logs in, pushes an insertion, and pushes its deletion. -/
theorem decoded_iff_deleted : ∃ (τ : List (Requests.Event Char SentChanges)) (s : Redis Char SentChanges),
    Run Char.toLower ' ' τ s ∧ sentEntries τ = [("0.5", 97), ("0.5", 0)] ∧
      (PPS.piece s.doc "0" "1").map decoded = (follower τ).text := by
  obtain ⟨τ, s, run, entries, keys⟩ :
      ∃ (τ : List (Requests.Event Char SentChanges)) (s : Redis Char SentChanges),
      Run Char.toLower ' ' τ s ∧ sentEntries τ = [("0.5", 97), ("0.5", 0)] ∧
        ∀ b ∈ sent τ, ∀ t ∈ b.keys, t = "0.5" :=
    Machine.Run.of_replay (show ((Requests.machine Char.toLower ' ').exec
      [.login 'A', .sendChanges 'a' ⟨AList.singleton "0.5" 97⟩,
        .sendChanges 'A' ⟨AList.singleton "0.5" 0⟩] ([], Redis.empty)).any _ = true by decide +kernel)
  have built : ∀ b ∈ sent τ, Built b := fun b member t key => by
    rw [keys b member t key]
    exact isNumber_half
  refine ⟨τ, s, run, entries, (decoded_iff run built).2 ?_⟩
  rw [entries]
  exact (text_eq_nil_iff _).1 (by decide +kernel)

/-! ## Pole -/

/-- `a` logs in and pushes an insertion: a page shows it, the server does not. -/
theorem decoded_nothing : ∃ (τ : List (Requests.Event Char SentChanges)) (s : Redis Char SentChanges),
    Run Char.toLower ' ' τ s ∧ Machine.Each (Requests.Allowed Char.toLower) [] τ ∧
      (∀ b ∈ sent τ, Built b) ∧
      PPS.piece s.doc "0" "1" = some "" ∧ (follower τ).text = some [97] ∧
      (PPS.piece s.doc "0" "1").map decoded ≠ (follower τ).text := by
  obtain ⟨τ, s, run, allowed, keys, server, client⟩ :
      ∃ (τ : List (Requests.Event Char SentChanges)) (s : Redis Char SentChanges),
        Run Char.toLower ' ' τ s ∧ Machine.Each (Requests.Allowed Char.toLower) [] τ ∧
          (∀ b ∈ sent τ, ∀ t ∈ b.keys, t = "0.5") ∧
          PPS.piece s.doc "0" "1" = some "" ∧ (follower τ).text = some [97] :=
    Machine.Run.of_replay (show ((Requests.machine Char.toLower ' ').exec
      [.login 'A', .sendChanges 'a' ⟨AList.singleton "0.5" 97⟩] ([], Redis.empty)).any _ = true by
        decide +kernel)
  refine ⟨τ, s, run, allowed, fun b member t key => ?_, server, client, ?_⟩
  · rw [keys b member t key]
    exact isNumber_half
  · rw [server, client]
    decide

end ColabEdit.Session
