/-
# ColabEdit.Server.Handlers -- what a handler that runs alone does

One specification for each handler of `ColabEdit.Server.Router` under `Prog.run`:
what it answers and which keys it leaves changed.

* `init_made`, `attach_attached`, `hide_hidden`: the document after a constructor,
  an insertion and a deletion;
* `initialize_run`: a new user gets the number of users as position;
* `insertText_ends`: a push stops at a malformed entry, or stores its batch under
  the allocated id and stops at an unknown user, or appends the id to the user's
  list;
* `heartbeat_run`: a heartbeat changes nothing and answers the stored batches
  with ids above the cursor and outside the user's list.

`ownIds_recorded` is the round trip of the comma-separated list.
-/
import ColabEdit.Server.Router
import Mathlib.Data.List.Basic
import Mathlib.Data.List.TakeWhile

namespace ColabEdit.Server

open ColabEdit.Theory

set_option autoImplicit false

/-! ## The comma-separated list -/

theorem str_ne_nil (n : Nat) : str n ≠ [] := Nat.toDigits_ne_nil

theorem isDigit_of_mem_str {n : Nat} {c : Char} (member : c ∈ str n) : c.isDigit :=
  Nat.isDigit_of_mem_toDigits (by decide) (by decide) member

theorem int_str (n : Nat) : int (str n) = some n := by
  have digits : (str n).all Char.isDigit = true :=
    List.all_eq_true.2 fun c member => isDigit_of_mem_str member
  rw [int, if_pos ⟨str_ne_nil n, digits⟩]
  exact congrArg some Nat.ofDigitChars_ten_toDigits

theorem comma_notMem_str (n : Nat) : ',' ∉ str n := fun member =>
  absurd (isDigit_of_mem_str member) (by decide)

theorem splitOn_str (n : Nat) : (str n).splitOn ',' = [str n] := by
  apply List.splitOnP_eq_singleton
  intro c member
  exact beq_eq_false_iff_ne.2 fun same => comma_notMem_str n (same ▸ member)

theorem ownIds_nil : ownIds [] = some [] := by decide

/-- The list of a user after one more id, where nothing comes in between. -/
def recorded (ids : List Char) (id : Nat) : List Char :=
  if ids = [] then str id else ids ++ ',' :: str id

theorem ownIds_str (id : Nat) : ownIds (str id) = some [id] := by
  simp [ownIds, splitOn_str, str_ne_nil, int_str]

theorem ownIds_comma {ids : List Char} {own : List Nat} (parsed : ownIds ids = some own) (id : Nat) :
    ownIds (ids ++ ',' :: str id) = some (own ++ [id]) := by
  have pieces : (ids ++ ',' :: str id).splitOn ',' = ids.splitOn ',' ++ [str id] := by
    rw [← splitOn_str id]
    exact List.splitOnP_append_cons ids (str id) (by simp)
  have last : ([str id].filter fun piece => decide (piece ≠ [])) = [str id] := by
    simp [str_ne_nil]
  unfold ownIds at parsed ⊢
  rw [pieces, List.filter_append, last, List.mapM_append, parsed]
  simp [int_str]

theorem ownIds_recorded {ids : List Char} {own : List Nat} (parsed : ownIds ids = some own)
    (id : Nat) : ownIds (recorded ids id) = some (own ++ [id]) := by
  unfold recorded
  split
  · rename_i empty
    subst empty
    rw [ownIds_nil] at parsed
    cases parsed
    exact ownIds_str id
  · exact ownIds_comma parsed id

/-! ## The document's commands leave the other keys alone -/

section Document

variable {Name Batch : Type} [DecidableEq Name]

/-- The command is one on the keys of the document. -/
def IsDoc : Cmd Name Batch → Prop
  | .doc _ => True
  | _ => False

deriving instance DecidableEq for DocEdit

namespace PPS

omit [DecidableEq Name] in
theorem init_only : (init Name Batch).Only IsDoc := by
  refine .call trivial fun keys => ?_
  change Prog.Only IsDoc (if List.count key keys = 0 then _ else _)
  split
  · repeat refine .call trivial fun _ => ?_
    exact .ret _
  · exact .ret _

omit [DecidableEq Name] in
theorem edit_only (e : DocEdit) : (edit Name Batch e).Only IsDoc := by
  cases e with
  | attach tag x =>
      refine .call trivial fun _ => .call trivial fun _ => .call trivial fun _ => ?_
      exact .op trivial
  | hide tag =>
      refine .call trivial fun present => ?_
      cases present with
      | true => exact .call trivial fun _ => .op trivial
      | false => exact .ret _
  | malformed => exact .raise

omit [DecidableEq Name] in
theorem editAll_only (edits : List DocEdit) : (editAll Name Batch edits).Only IsDoc := by
  induction edits with
  | nil => exact .ret _
  | cons e rest ih => exact .bind (edit_only e) fun _ => ih

/-- `PPS()` on a store: the document is made where its key is not listed. -/
def made (d : DocStore) : DocStore :=
  if d.keys.count key = 0 then
    { keys := d.keys ++ [key]
      pps := (d.pps.insert "0" "0").insert "1" "0"
      tags := d.tags ++ ["0"] ++ ["1"]
      persist := (d.persist.insert "0" .yes).insert "1" .yes }
  else d

def attached (d : DocStore) (tag x : String) : DocStore :=
  { d with
    pps := d.pps.insert tag x
    tags := (d.tags ++ [tag]).insertionSort (· ≤ ·)
    persist := d.persist.insert tag .yes }

def hidden (d : DocStore) (tag : String) : DocStore :=
  if tag ∈ d.pps then { d with pps := d.pps.insert tag "0", persist := d.persist.insert tag .no } else d

theorem init_made (s : Redis Name Batch) :
    (init Name Batch).run Cmd.exec s = (some (), { s with doc := made s.doc }) := by
  show Prog.run Cmd.exec (if s.doc.keys.count key = 0 then _ else _ : Handler Name Batch Unit) s = _
  unfold made
  by_cases missing : s.doc.keys.count key = 0
  · rw [if_pos missing, if_pos missing]
    simp only [docOp, Prog.op, Prog.call_bind, Prog.ret_bind, Prog.run_call, Prog.run_ret, Cmd.exec,
      DocCmd.exec]
  · rw [if_neg missing, if_neg missing]
    rfl

theorem attach_attached (s : Redis Name Batch) (tag x : String) :
    (attach Name Batch tag x).run Cmd.exec s = (some (), { s with doc := attached s.doc tag x }) := rfl

theorem hide_hidden (s : Redis Name Batch) (tag : String) :
    (hide Name Batch tag).run Cmd.exec s = (some (), { s with doc := hidden s.doc tag }) := by
  simp only [hide, Prog.op_bind, Prog.run_call, hidden, Cmd.exec, DocCmd.exec]
  by_cases present : tag ∈ s.doc.pps
  · simp only [present, decide_true, if_true]
    rfl
  · simp only [present, decide_false, if_false]
    rfl

/-- One turn of the loop over a batch. -/
def edited (d : DocStore) : DocEdit → DocStore
  | .attach tag x => attached d tag x
  | .hide tag => hidden d tag
  | .malformed => d

/-- The edits before the first malformed entry. -/
def carried (edits : List DocEdit) : List DocEdit := edits.takeWhile (· ≠ .malformed)

theorem carried_of_wellFormed {edits : List DocEdit} (wellFormed : .malformed ∉ edits) :
    carried edits = edits :=
  List.takeWhile_eq_self_iff.2 fun _ member => decide_eq_true fun same => wellFormed (same ▸ member)

/-- The loop over a batch carries out the edits before the first malformed entry,
and ends there with an exception. -/
theorem editAll_carried (edits : List DocEdit) (s : Redis Name Batch) :
    (editAll Name Batch edits).run Cmd.exec s =
      (if .malformed ∈ edits then none else some (),
        { s with doc := (carried edits).foldl edited s.doc }) := by
  induction edits generalizing s with
  | nil => rfl
  | cons e rest ih =>
      rw [editAll, Prog.run_bind]
      cases e with
      | attach tag x =>
          rw [edit, attach_attached]
          simpa [carried, edited] using ih _
      | hide tag =>
          rw [edit, hide_hidden]
          simpa [carried, edited] using ih _
      | malformed => rfl

/-- The loop over a batch without a malformed entry. -/
theorem editAll_edited {edits : List DocEdit} (wellFormed : .malformed ∉ edits) (s : Redis Name Batch) :
    (editAll Name Batch edits).run Cmd.exec s = (some (), { s with doc := edits.foldl edited s.doc }) := by
  rw [editAll_carried, if_neg wellFormed, carried_of_wellFormed wellFormed]

end PPS

end Document

/-! ## The handlers -/

section Handlers

variable {Name Batch : Type} [DecidableEq Name] (lower : Name → Name)

theorem index_run_absent {s : Redis Name Batch} {user : Name} (absent : user ∉ s.users.keys) :
    (UserOrder.index user : Handler Name Batch Int).run Cmd.exec s = (some (-1), s) := by
  change Prog.run Cmd.exec (if user ∈ s.users.keys then _ else _) s = _
  rw [if_neg absent]
  rfl

theorem index_run_present {s : Redis Name Batch} {user : Name} {position : Nat}
    (present : s.users.lookup user = some position) :
    (UserOrder.index user : Handler Name Batch Int).run Cmd.exec s = (some (position : Int), s) := by
  have member : user ∈ s.users.keys :=
    AList.mem_keys.1 (AList.lookup_isSome.1 (by simp [present]))
  change Prog.run Cmd.exec (if user ∈ s.users.keys then _ else _) s = _
  rw [if_pos member]
  simp only [Prog.call_bind, Prog.run_call, Cmd.exec, present]
  rfl

theorem getChangeId_run (s : Redis Name Batch) :
    (UserOrder.getChangeId : Handler Name Batch Nat).run Cmd.exec s =
      (some (intValue (some (intValue s.id + 1))), { s with id := some (intValue s.id + 1) }) := rfl

/-- The atomic allocation is `get_change_id` run alone. -/
theorem allocate_eq_getChangeId (s : Redis Name Batch) :
    ((Prog.op Cmd.allocate : Handler Name Batch Nat).run Cmd.exec s) =
      (UserOrder.getChangeId : Handler Name Batch Nat).run Cmd.exec s := rfl

/-- A login of a new name appends it at the end. -/
theorem initialize_run {s : Redis Name Batch} {username : Name}
    (absent : lower username ∉ s.users.keys) :
    (initialize_ lower username : Handler Name Batch (Option (Nat × Int))).run Cmd.exec s =
      (some (some (s.users.keys.length + 1, (s.users.keys.length : Int))),
        { s with
          users := s.users.insert (lower username) s.users.keys.length
          userChanges := s.userChanges.insert (lower username) [] }) := by
  have erased : s.users.keys.erase (lower username) = s.users.keys := List.erase_of_not_mem absent
  simp only [initialize_, Prog.run_bind, index_run_absent absent]
  simp only [if_true, Prog.run_bind, UserOrder.add, Prog.op_bind, Prog.run_call, Cmd.exec]
  simp only [Prog.op, Prog.run_call, Prog.run_ret, Cmd.exec, UserOrder.count, List.length_map]
  have items : s.users.entries.length = s.users.keys.length := by
    simp [AList.keys, List.keys]
  rw [items, index_run_present (AList.lookup_insert _)]
  simp only [Prog.pure_eq, Prog.run_ret]
  rw [AList.keys_insert, erased, List.length_cons]

/-- A login of a name that is there is refused. -/
theorem initialize_run_present {s : Redis Name Batch} {username : Name} {position : Nat}
    (present : s.users.lookup (lower username) = some position) :
    (initialize_ lower username : Handler Name Batch (Option (Nat × Int))).run Cmd.exec s =
      (some none, s) := by
  simp only [initialize_, Prog.run_bind, index_run_present present]
  rw [if_neg (by omega)]
  rfl

/-- **The two ends of a login.** -/
theorem initialize_cases (s : Redis Name Batch) (username : Name) :
    (lower username ∈ s.users.keys ∧
        (initialize_ lower username : Handler Name Batch (Option (Nat × Int))).run Cmd.exec s =
          (some none, s)) ∨
      (lower username ∉ s.users.keys ∧
        (initialize_ lower username : Handler Name Batch (Option (Nat × Int))).run Cmd.exec s =
          (some (some (s.users.keys.length + 1, (s.users.keys.length : Int))),
            { s with
              users := s.users.insert (lower username) s.users.keys.length
              userChanges := s.userChanges.insert (lower username) [] })) := by
  by_cases present : lower username ∈ s.users.keys
  · obtain ⟨position, found⟩ := Hash.exists_lookup present
    exact Or.inl ⟨present, initialize_run_present lower found⟩
  · exact Or.inr ⟨present, initialize_run lower present⟩

/-- A logout changes nothing: `remove` raises before it sends a command. -/
theorem deinitialize_run (empty username : Name) (s : Redis Name Batch) :
    (deinitialize_ empty username : Handler Name Batch Unit).run Cmd.exec s = (some (), s) := by
  by_cases named : username ≠ empty
  · simp only [deinitialize_, if_pos named, UserOrder.remove, Prog.attempt]
    rfl
  · simp only [deinitialize_, if_neg named]
    rfl

theorem hgetUserChanges_run {s : Redis Name Batch} {user : Name} {ids : List Char}
    (present : s.userChanges.lookup user = some ids) :
    (hgetUserChanges user : Handler Name Batch (List Char)).run Cmd.exec s = (some ids, s) := by
  simp only [hgetUserChanges, Prog.run_call, Cmd.exec, present]
  rfl

omit [DecidableEq Name] in
theorem hgetUserChanges_only {p : Cmd Name Batch → Prop} {user : Name} (get : p (.hgetUserChanges user)) :
    (hgetUserChanges user : Handler Name Batch (List Char)).Only p := by
  refine .call get fun ids => ?_
  cases ids with
  | none => exact .raise
  | some ids => exact .ret _

omit [DecidableEq Name] in
/-- `recordOwner` reads and writes the list of its user. -/
theorem recordOwner_only {p : Cmd Name Batch → Prop} {username : Name}
    (get : p (.hgetUserChanges (lower username))) (set : ∀ ids, p (.hsetUserChanges (lower username) ids))
    (id : Nat) : (recordOwner lower username id : Handler Name Batch Nat).Only p := by
  refine .bind (hgetUserChanges_only get) fun ids => ?_
  split
  · exact .bind (hgetUserChanges_only get) fun _ => .call (set _) fun _ => .ret _
  · exact .bind (hgetUserChanges_only get) fun _ => .call (set _) fun _ => .ret _

theorem recordOwner_run {s : Redis Name Batch} {username : Name} {ids : List Char} (id : Nat)
    (present : s.userChanges.lookup (lower username) = some ids) :
    (recordOwner lower username id : Handler Name Batch Nat).run Cmd.exec s =
      (some id, { s with
        userChanges := s.userChanges.insert (lower username) (recorded ids id) }) := by
  simp only [recordOwner, Prog.run_bind, hgetUserChanges_run present]
  by_cases empty : ids = []
  · subst empty
    simp only [if_true, Prog.run_bind, hgetUserChanges_run present]
    rfl
  · simp only [empty, if_false, Prog.run_bind, hgetUserChanges_run present]
    simp only [Prog.op, Prog.run_call, Prog.run_ret, Prog.pure_eq, Cmd.exec, recorded, empty,
      if_false]

/-- A user without a list is a `KeyError` of `recordOwner`. -/
theorem recordOwner_run_absent {s : Redis Name Batch} {username : Name}
    (absent : s.userChanges.lookup (lower username) = none) (id : Nat) :
    (recordOwner lower username id : Handler Name Batch Nat).run Cmd.exec s = (none, s) := by
  simp only [recordOwner, hgetUserChanges, Prog.call_bind, Prog.run_call, Cmd.exec, absent, Prog.orRaise,
    Prog.raise_bind, Prog.run_raise]

/-- What a push of a logged-in user leaves behind once its loop has ended. -/
def afterPush (s : Redis Name Batch) (username : Name) (ids : List Char) (batch : Batch) (d : DocStore) :
    Redis Name Batch :=
  { s with
    id := some (intValue s.id + 1)
    changes := s.changes.insert (intValue (some (intValue s.id + 1))) batch
    userChanges := s.userChanges.insert (lower username)
      (recorded ids (intValue (some (intValue s.id + 1))))
    doc := d }

/-- **The three ends of a push**: a malformed entry, a user without a list, an answer. -/
theorem insertText_ends [Changes Batch] (s : Redis Name Batch) (username : Name) (batch : Batch) :
    (.malformed ∈ Changes.edits batch ∧
        (insertText lower UserOrder.getChangeId username batch).run Cmd.exec s =
          (none, { s with doc := (PPS.carried (Changes.edits batch)).foldl PPS.edited (PPS.made s.doc) })) ∨
      (.malformed ∉ Changes.edits batch ∧ s.userChanges.lookup (lower username) = none ∧
        (insertText lower UserOrder.getChangeId username batch).run Cmd.exec s =
          (none, { s with
            id := some (intValue s.id + 1)
            changes := s.changes.insert (intValue (some (intValue s.id + 1))) batch
            doc := (Changes.edits batch).foldl PPS.edited (PPS.made s.doc) })) ∨
      (.malformed ∉ Changes.edits batch ∧ ∃ ids, s.userChanges.lookup (lower username) = some ids ∧
        (insertText lower UserOrder.getChangeId username batch).run Cmd.exec s =
          (some (intValue (some (intValue s.id + 1))), afterPush lower s username ids batch
            ((Changes.edits batch).foldl PPS.edited (PPS.made s.doc)))) := by
  by_cases malformed : .malformed ∈ Changes.edits batch
  · refine Or.inl ⟨malformed, ?_⟩
    simp only [insertText, Prog.run_bind, PPS.init_made, PPS.editAll_carried, if_pos malformed]
  refine Or.inr ?_
  cases found : s.userChanges.lookup (lower username) with
  | none =>
      refine Or.inl ⟨malformed, rfl, ?_⟩
      simp only [insertText, Prog.run_bind, PPS.init_made, PPS.editAll_edited malformed, getChangeId_run,
        Prog.op_bind, Prog.run_call, Cmd.exec]
      refine recordOwner_run_absent lower ?_ _
      exact found
  | some ids =>
      refine Or.inr ⟨malformed, ids, rfl, ?_⟩
      simp only [insertText, Prog.run_bind, PPS.init_made, PPS.editAll_edited malformed, getChangeId_run,
        Prog.op_bind, Prog.run_call, Cmd.exec]
      exact recordOwner_run lower _ found

/-- A push of a logged-in user, handled alone: it stops at a malformed entry or
stores its batch. -/
theorem insertText_cases [Changes Batch] {s : Redis Name Batch} {username : Name} {ids : List Char}
    (batch : Batch) (present : s.userChanges.lookup (lower username) = some ids) :
    ∃ d, (insertText lower UserOrder.getChangeId username batch).run Cmd.exec s =
        (some (intValue (some (intValue s.id + 1))), afterPush lower s username ids batch d) ∨
      .malformed ∈ Changes.edits batch ∧
        (insertText lower UserOrder.getChangeId username batch).run Cmd.exec s =
          (none, { s with doc := d }) := by
  obtain ⟨malformed, ran⟩ | ⟨-, absent, -⟩ | ⟨-, ids', present', ran⟩ := insertText_ends lower s username batch
  · exact ⟨_, Or.inr ⟨malformed, ran⟩⟩
  · rw [present] at absent
    cases absent
  · rw [present] at present'
    cases present'
    exact ⟨_, Or.inl ran⟩

/-- A push of a logged-in user, handled alone. -/
theorem insertText_run [Changes Batch] {s : Redis Name Batch} {username : Name} {batch : Batch}
    {ids : List Char} (edits : Changes.edits batch = [])
    (present : s.userChanges.lookup (lower username) = some ids) :
    ∃ d, (insertText lower UserOrder.getChangeId username batch).run Cmd.exec s =
      (some (intValue (some (intValue s.id + 1))),
        { s with
          id := some (intValue s.id + 1)
          changes := s.changes.insert (intValue (some (intValue s.id + 1))) batch
          userChanges := s.userChanges.insert (lower username)
            (recorded ids (intValue (some (intValue s.id + 1))))
          doc := d }) := by
  obtain ⟨d, ran | ⟨malformed, -⟩⟩ := insertText_cases lower batch present
  · exact ⟨d, ran⟩
  · rw [edits] at malformed
    cases malformed

theorem fetch_run {s : Redis Name Batch} {ids : List Nat} (stored : ∀ id ∈ ids, id ∈ s.changes) :
    ∃ transactions, (fetch ids : Handler Name Batch (List (Nat × Batch))).run Cmd.exec s =
        (some transactions, s) ∧ transactions.map Prod.fst = ids ∧
        ∀ e ∈ transactions, s.changes.lookup e.1 = some e.2 := by
  induction ids with
  | nil => exact ⟨[], rfl, rfl, by simp⟩
  | cons id rest ih =>
      obtain ⟨transactions, ran, firsts, reads⟩ := ih fun i hi => stored i (by simp [hi])
      obtain ⟨batch, found⟩ := Option.isSome_iff_exists.1
        (AList.lookup_isSome.2 (stored id (by simp)))
      refine ⟨(id, batch) :: transactions, ?_, by simp [firsts], ?_⟩
      · simp only [fetch, Prog.run_bind, Prog.run_call, Cmd.exec, found, Prog.orRaise,
          Prog.run_ret, ran, Prog.pure_eq]
      · intro e member
        rcases List.mem_cons.1 member with rfl | member
        · exact found
        · exact reads e member

theorem mem_newIds {keys own : List Nat} {last : Int} {id : Nat} :
    id ∈ newIds keys last own ↔ id ∈ keys ∧ last < id ∧ id ∉ own := by
  simp [newIds, List.mem_insertionSort, and_assoc]

/-- The ids of a reply ascend. -/
theorem newIds_sorted {keys own : List Nat} {last : Int} (nodup : keys.Nodup) :
    (newIds keys last own).Pairwise (· < ·) := by
  have sorted : ((keys.filter fun (key : Nat) => last < key).insertionSort (· ≤ ·)).Pairwise
      (· ≤ ·) := List.pairwise_insertionSort (· ≤ ·) _
  have distinct : ((keys.filter fun (key : Nat) => last < key).insertionSort (· ≤ ·)).Nodup :=
    (List.perm_insertionSort _ _).nodup_iff.2 (nodup.filter _)
  refine List.Pairwise.filter _ ?_
  exact (sorted.and distinct).imp fun h => lt_of_le_of_ne h.1 h.2

/-- A heartbeat of a logged-in user, handled alone. -/
theorem heartbeat_run {s : Redis Name Batch} {username : Name} {position : Nat} {ids : List Char}
    {own : List Nat} (last : Int) (user : s.users.lookup (lower username) = some position)
    (present : s.userChanges.lookup (lower username) = some ids) (parsed : ownIds ids = some own) :
    ∃ transactions, (heartbeat lower username last).run Cmd.exec s =
        (some { userCount := s.users.keys.length, userPosition := position,
                transactions := transactions }, s) ∧
      transactions.map Prod.fst = newIds s.changes.keys last own ∧
      ∀ e ∈ transactions, s.changes.lookup e.1 = some e.2 := by
  obtain ⟨transactions, ran, firsts, reads⟩ := fetch_run (s := s)
    fun id (member : id ∈ newIds s.changes.keys last own) => AList.mem_keys.2 (mem_newIds.1 member).1
  refine ⟨transactions, ?_, firsts, reads⟩
  simp only [heartbeat, UserOrder.count, Prog.op_bind, Prog.run_call, Cmd.exec, Prog.run_bind,
    index_run_present user, hgetUserChanges_run present, parsed, Prog.orRaise, Prog.run_ret, ran,
    Prog.pure_eq]

end Handlers

end ColabEdit.Server
