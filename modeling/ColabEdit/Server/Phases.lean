/-
# ColabEdit.Server.Phases -- how far a request has come

Between two commands a `/sendChanges` request is in one of the phases of
`PushPhase` and a `/heartbeat` request in one of those of `BeatPhase`.  A phase
carries what the request has read and will use.  `PushPhase.Next` and
`BeatPhase.Next` say once which command a phase runs and which phase the reply
leads to; `PushPhase.next` and `BeatPhase.next` prove that the handlers do nothing
else.
-/
import ColabEdit.Server.Traffic

namespace ColabEdit.Server

open ColabEdit.Theory

set_option autoImplicit false
set_option linter.unusedSectionVars false

section Push

variable {Name Batch : Type} [DecidableEq Name]

/-! ## `/sendChanges` -/

inductive PushPhase (Name Batch : Type) where
  /-- Working on the document of the server. -/
  | editing (p : Handler Name Batch Unit)
  /-- Inside `get_change_id`, or returned from it. -/
  | allocating (q : Handler Name Batch Nat)
  /-- The batch is stored under the id. -/
  | owning (id : Nat)
  /-- The list of the user was read once; this will be appended. -/
  | appending (id : Nat) (tail : List Char)
  | writing (id : Nat) (ids : List Char)
  | answered (id : Nat)
  | failed

/-- What follows `get_change_id`. -/
def storeBatch (user : Name) (batch : Batch) (i : Nat) : Handler Name Batch Nat := do
  Prog.op (Cmd.hsetChanges i batch)
  recordOwner id user i

namespace PushPhase

variable (alloc : Handler Name Batch Nat) (user : Name) (batch : Batch)

/-- What is left of the handler in a phase. -/
def prog : PushPhase Name Batch → Handler Name Batch Nat
  | editing p => p >>= fun _ => alloc >>= storeBatch user batch
  | allocating q => q >>= storeBatch user batch
  | owning i => recordOwner id user i
  | appending i tail => do
      let ids ← hgetUserChanges user
      Prog.op (Cmd.hsetUserChanges user (ids ++ tail))
      return i
  | writing i ids => do
      Prog.op (Cmd.hsetUserChanges user ids)
      return i
  | answered i => .ret i
  | failed => .raise

/-- What is appended to the list that was read. -/
def tail (ids : List Char) (i : Nat) : List Char := if ids = [] then str i else ',' :: str i

/-- One command of a phase, its reply, and the phase after it. -/
inductive Next : PushPhase Name Batch → (c : Cmd Name Batch) → c.Reply → PushPhase Name Batch → Prop
  | edit {c : Cmd Name Batch} {k : c.Reply → Handler Name Batch Unit} (r : c.Reply) :
      Next (editing (.call c k)) c r (editing (k r))
  | begin {c : Cmd Name Batch} {k : c.Reply → Handler Name Batch Nat} (r : c.Reply)
      (first : alloc = .call c k) : Next (editing (.ret ())) c r (allocating (k r))
  | alloc {c : Cmd Name Batch} {k : c.Reply → Handler Name Batch Nat} (r : c.Reply) :
      Next (allocating (.call c k)) c r (allocating (k r))
  | store (i : Nat) : Next (allocating (.ret i)) (.hsetChanges i batch) () (owning i)
  | read (i : Nat) (ids : List Char) :
      Next (owning i) (.hgetUserChanges user) (some ids) (appending i (tail ids i))
  | readMissing (i : Nat) : Next (owning i) (.hgetUserChanges user) none failed
  | reread (i : Nat) (tail ids : List Char) :
      Next (appending i tail) (.hgetUserChanges user) (some ids) (writing i (ids ++ tail))
  | rereadMissing (i : Nat) (tail : List Char) :
      Next (appending i tail) (.hgetUserChanges user) none failed
  | write (i : Nat) (ids : List Char) :
      Next (writing i ids) (.hsetUserChanges user ids) () (answered i)

variable {alloc user batch}

/-- The handler starts with the document. -/
theorem start [Changes Batch] :
    insertText id alloc user batch =
      (editing (PPS.init Name Batch >>= fun _ => PPS.editAll Name Batch (Changes.edits batch))).prog
        alloc user batch :=
  (Prog.bind_assoc _ _ _).symm

/-- **The commands of `/sendChanges`.** -/
theorem next {c₀ : Cmd Name Batch} {k₀ : c₀.Reply → Handler Name Batch Nat} (first : alloc = .call c₀ k₀)
    {phase : PushPhase Name Batch} {c : Cmd Name Batch} {k : c.Reply → Handler Name Batch Nat}
    (here : phase.prog alloc user batch = .call c k) (r : c.Reply) :
    ∃ phase', Next alloc user batch phase c r phase' ∧ k r = phase'.prog alloc user batch := by
  cases phase with
  | editing p =>
      cases p with
      | ret _ =>
          subst first
          cases here
          exact ⟨_, .begin r rfl, rfl⟩
      | raise => cases here
      | call c' k' =>
          cases here
          exact ⟨_, .edit r, rfl⟩
  | allocating q =>
      cases q with
      | ret i =>
          cases here
          exact ⟨_, .store i, rfl⟩
      | raise => cases here
      | call c' k' =>
          cases here
          exact ⟨_, .alloc r, rfl⟩
  | owning i =>
      cases here
      cases r with
      | none => exact ⟨_, .readMissing i, rfl⟩
      | some ids =>
          refine ⟨_, .read i ids, ?_⟩
          by_cases empty : ids = []
          · subst empty
            rfl
          · have later : tail ids i = ',' :: str i := if_neg empty
            rw [later]
            exact if_neg empty
  | appending i tail =>
      cases here
      cases r with
      | none => exact ⟨_, .rereadMissing i tail, rfl⟩
      | some ids => exact ⟨_, .reread i tail ids, rfl⟩
  | writing i ids =>
      cases here
      exact ⟨_, .write i ids, rfl⟩
  | answered i => cases here
  | failed => cases here

end PushPhase

end Push

section Beat

variable {Name Batch : Type} [DecidableEq Name]

/-! ## `/heartbeat` -/

/-- A command that changes nothing. -/
def IsRead : Cmd Name Batch → Prop
  | .hlenUsers | .hkeysUsers | .hgetallUsers | .hgetUsers _ | .getId | .hkeysChanges | .hgetChanges _
  | .hgetUserChanges _ => True
  | _ => False

theorem IsRead.exec {c : Cmd Name Batch} (isRead : IsRead c) (s : Redis Name Batch) :
    (c.exec s).2 = s := by
  cases c <;> first | rfl | exact isRead.elim

/-- A command that `index` sends. -/
def IsUser : Cmd Name Batch → Prop
  | .hkeysUsers | .hgetUsers _ => True
  | _ => False

theorem IsUser.isRead {c : Cmd Name Batch} (isUser : IsUser c) : IsRead c := by
  cases c <;> trivial

inductive BeatPhase (Name Batch : Type) where
  | counting
  /-- Inside `index`, or returned from it. -/
  | indexing (count : Nat) (q : Handler Name Batch Int)
  /-- The keys of `changes` were read. -/
  | owning (count : Nat) (position : Int) (keys : List Nat)
  /-- The list of the user was read; some batches are read, the others are not. -/
  | fetching (count : Nat) (position : Int) (keys own : List Nat) (done : List (Nat × Batch))
      (todo : List Nat)
  | failed

namespace BeatPhase

variable (user : Name) (last : Int)

/-- The reply, once the remaining batches are read. -/
def finish (count : Nat) (position : Int) (done : List (Nat × Batch)) (todo : List Nat) :
    Handler Name Batch (HeartbeatReply Batch) := do
  let transactions ← fetch todo
  return { userCount := count, userPosition := position, transactions := done ++ transactions }

/-- What follows the keys of `changes`. -/
def readOwn (count : Nat) (position : Int) (keys : List Nat) :
    Handler Name Batch (HeartbeatReply Batch) := do
  let own ← hgetUserChanges user
  let curUserIds ← Prog.orRaise (ownIds own)
  finish count position [] (newIds keys last curUserIds)

def prog : BeatPhase Name Batch → Handler Name Batch (HeartbeatReply Batch)
  | counting => heartbeat id user last
  | indexing count q => do
      let position ← q
      let keys : List Nat ← Prog.op Cmd.hkeysChanges
      readOwn user last count position keys
  | owning count position keys => readOwn user last count position keys
  | fetching count position _ _ done todo => finish count position done todo
  | failed => .raise

inductive Next : BeatPhase Name Batch → (c : Cmd Name Batch) → c.Reply → BeatPhase Name Batch → Prop
  | count (n : Nat) : Next counting .hlenUsers n (indexing n (UserOrder.index user))
  | index {count : Nat} {c : Cmd Name Batch} {k : c.Reply → Handler Name Batch Int} (r : c.Reply) :
      Next (indexing count (.call c k)) c r (indexing count (k r))
  | keys {count : Nat} {position : Int} (keys : List Nat) :
      Next (indexing count (.ret position)) .hkeysChanges keys (owning count position keys)
  | own {count : Nat} {position : Int} {keys own : List Nat} (ids : List Char)
      (parsed : ownIds ids = some own) :
      Next (owning count position keys) (.hgetUserChanges user) (some ids)
        (fetching count position keys own [] (newIds keys last own))
  | ownMissing {count : Nat} {position : Int} {keys : List Nat} (r : Option (List Char)) :
      Next (owning count position keys) (.hgetUserChanges user) r failed
  | fetch {count : Nat} {position : Int} {keys own : List Nat} {done : List (Nat × Batch)} (i : Nat)
      (todo : List Nat) (batch : Batch) :
      Next (fetching count position keys own done (i :: todo)) (.hgetChanges i) (some batch)
        (fetching count position keys own (done ++ [(i, batch)]) todo)
  | fetchMissing {count : Nat} {position : Int} {keys own : List Nat} {done : List (Nat × Batch)}
      (i : Nat) (todo : List Nat) :
      Next (fetching count position keys own done (i :: todo)) (.hgetChanges i) none failed

variable {user last}

/-- **The commands of `/heartbeat`.** -/
theorem next {phase : BeatPhase Name Batch} {c : Cmd Name Batch}
    {k : c.Reply → Handler Name Batch (HeartbeatReply Batch)}
    (here : phase.prog user last = .call c k) (r : c.Reply) :
    ∃ phase', Next user last phase c r phase' ∧ k r = phase'.prog user last := by
  cases phase with
  | counting =>
      cases here
      exact ⟨_, .count r, rfl⟩
  | indexing count q =>
      cases q with
      | ret position =>
          cases here
          exact ⟨_, .keys r, rfl⟩
      | raise => cases here
      | call c' k' =>
          cases here
          exact ⟨_, .index r, rfl⟩
  | owning count position keys =>
      cases here
      cases r with
      | none => exact ⟨_, .ownMissing none, rfl⟩
      | some ids =>
          cases parsed : ownIds ids with
          | none =>
              refine ⟨_, .ownMissing (some ids), ?_⟩
              change (Prog.orRaise (ownIds ids) >>= _) = _
              rw [parsed]
              rfl
          | some own =>
              refine ⟨_, .own ids parsed, ?_⟩
              change (Prog.orRaise (ownIds ids) >>= _) = _
              rw [parsed]
              rfl
  | fetching count position keys own done todo =>
      cases todo with
      | nil => cases here
      | cons i todo =>
          cases here
          cases r with
          | none => exact ⟨_, .fetchMissing i todo, rfl⟩
          | some batch =>
              refine ⟨_, .fetch i todo batch, ?_⟩
              change (Server.fetch todo >>= _) >>= _ = _
              rw [Prog.bind_assoc]
              simp only [prog, finish, List.append_assoc, List.singleton_append]
              rfl
  | failed => cases here

/-- A request that has answered has read every batch of its reply. -/
theorem of_answered {phase : BeatPhase Name Batch} {reply : HeartbeatReply Batch}
    (answered : phase.prog user last = .ret reply) :
    ∃ count position keys own done, phase = fetching count position keys own done [] ∧
      reply.transactions = done := by
  cases phase with
  | counting => cases answered
  | indexing count q => cases q <;> cases answered
  | owning count position keys => cases answered
  | fetching count position keys own done todo =>
      cases todo with
      | nil =>
          cases answered
          exact ⟨count, position, keys, own, done, rfl, List.append_nil done⟩
      | cons i todo => cases answered
  | failed => cases answered

end BeatPhase

theorem index_only (user : Name) :
    (UserOrder.index user : Handler Name Batch Int).Only IsUser := by
  refine .call trivial fun keys => ?_
  change Prog.Only IsUser (if user ∈ keys then _ else _)
  split
  · refine .call trivial fun position => ?_
    cases position with
    | none => exact .raise
    | some position => exact .ret _
  · exact .ret _

theorem fetch_only (ids : List Nat) :
    (fetch ids : Handler Name Batch (List (Nat × Batch))).Only IsRead := by
  induction ids with
  | nil => exact .ret _
  | cons i rest ih =>
      refine .call trivial fun batch => ?_
      cases batch with
      | none => exact .raise
      | some batch => exact .bind (.ret batch) fun batch => .bind ih fun transactions => .ret _

/-- A heartbeat changes nothing, wherever its commands fall. -/
theorem heartbeat_only (user : Name) (last : Int) :
    (heartbeat id user last : Handler Name Batch (HeartbeatReply Batch)).Only IsRead := by
  refine .call trivial fun count => .bind (.ret count) fun count => ?_
  refine .bind ((index_only user).imp fun _ => IsUser.isRead) fun position => ?_
  refine .call trivial fun keys => .call trivial fun own => ?_
  cases own with
  | none => exact .raise
  | some own =>
      refine .bind (.ret own) fun own => ?_
      cases ownIds own with
      | none => exact .raise
      | some curUserIds =>
          refine .bind (.ret curUserIds) fun curUserIds => ?_
          exact .bind (fetch_only _) fun transactions => .ret _

end Beat

end ColabEdit.Server
