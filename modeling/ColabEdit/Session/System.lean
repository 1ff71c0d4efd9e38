/-
# ColabEdit.Session.System -- pages, server and the messages between them

Any number of pages and one server, with every handler atomic and no request
lost.  A page has at most one push and one heartbeat outstanding; between the
steps of a request everything else may happen.  The key order of a batch is lost
on its way through the server, so the page that applies a reply meets each batch
in an arbitrary order.

`System.step` runs the handlers of `ColabEdit.Server.Router` and the handlers of
`ColabEdit.Browser.Client`.  `Step` says once what a step can do, with the
effects of the server spelled out; `ColabEdit.Session.Roster` proves that it
covers every step of a run and carries the invariants that need no condition.
-/
import ColabEdit.Browser.Client
import ColabEdit.Server.Handlers
import ColabEdit.Theory.Transition

namespace ColabEdit.Session

open ColabEdit.Browser ColabEdit.Server ColabEdit.Theory

set_option autoImplicit false

/-- The `/sendChanges` request of a page. -/
inductive Push (Tag : Type) where
  | idle
  | sent (batch : Batch Tag)
  | answered (id : Nat)
  deriving DecidableEq

/-- The `/heartbeat` request of a page. -/
inductive Beat (Tag : Type) where
  | idle
  | sent (lastGreatestSequenceNumber : Int)
  | answered (reply : HeartbeatReply (Batch Tag))
  deriving DecidableEq

structure Page (Tag : Type) where
  client : Client Tag
  push : Push Tag
  beat : Beat Tag

structure System (C Name Tag : Type) where
  /-- The open pages; `none` before the login. -/
  pages : C → Option (Page Tag)
  redis : Redis Name (Batch Tag)

inductive Action (C Tag : Type) where
  | login (c : C)
  /-- A key press at a caret. -/
  | type (c : C) (pos : Nat) (ch : CharCode)
  /-- `PPS.delete` of some positions, then `PPS.hide` of the tags found. -/
  | erase (c : C) (positions : List Nat)
  /-- The tick of `startSendChanges`. -/
  | send (c : C)
  | handlePush (c : C)
  /-- The answer of a push arrives. -/
  | endPush (c : C)
  /-- The tick of `heartbeat`. -/
  | beat (c : C)
  | handleBeat (c : C)
  /-- The reply of a heartbeat arrives, its batches in some key order. -/
  | endBeat (c : C) (transactions : List (Nat × List (Tag × CharCode)))

/-- What a step is observed by. -/
inductive Event (C Tag : Type) where
  /-- `PPS.insert` at `pos` of the page `before` returned `tag`. -/
  | inserted (c : C) (before : Client Tag) (pos : Nat) (ch : CharCode) (tag : Tag)
  | deleted (c : C) (tag : Tag)
  /-- The server stored a batch of `c` under an id. -/
  | stored (c : C) (id : Nat) (batch : Batch Tag)
  /-- The page of `c` applied a batch, with its entries in this order. -/
  | applied (c : C) (id : Nat) (entries : List (Tag × CharCode))

namespace System

variable {C Name Tag Num : Type} [DecidableEq C] [DecidableEq Name] [LinearOrder Tag] [BigNum Num]
  [BigTag Tag Num]

def init : System C Name Tag where
  pages := fun _ => none
  redis := Redis.empty

def setPage (S : System C Name Tag) (c : C) (page : Page Tag) : System C Name Tag :=
  { S with pages := Function.update S.pages c (some page) }

/-- The reply has the batches of `transactions`, each in some order. -/
def Reorders (transactions : List (Nat × List (Tag × CharCode)))
    (reply : HeartbeatReply (Batch Tag)) : Prop :=
  List.Forall₂ (fun given stored => given.1 = stored.1 ∧ given.2.Perm stored.2.pairs) transactions
    reply.transactions

instance (transactions : List (Nat × List (Tag × CharCode)))
    (reply : HeartbeatReply (Batch Tag)) : Decidable (Reorders transactions reply) :=
  inferInstanceAs (Decidable (List.Forall₂ _ _ _))

variable (userName : C → Name) (lower : Name → Name)

def step (S : System C Name Tag) : Action C Tag → Option (System C Name Tag × List (Event C Tag))
  | .login c =>
      match S.pages c with
      | some _ => none
      | none =>
          match (initialize_ lower (userName c)).run Cmd.exec S.redis with
          | (some (some (count, position)), redis) =>
              let client := Client.start count position
              some (({ S with redis := redis }).setPage c
                { client := client, push := .idle, beat := .idle }, [])
          | (_, redis) => some ({ S with redis := redis }, [])
  | .type c pos ch =>
      match S.pages c with
      | none => none
      | some page =>
          match page.client.insertText pos ch with
          | none => none
          | some (client, tag) =>
              some (S.setPage c { page with client := client },
                [.inserted c page.client pos ch tag])
  | .erase c positions =>
      match S.pages c with
      | none => none
      | some page =>
          some (S.setPage c { page with client := page.client.deletePositions positions },
            (page.client.deleteTags positions).map fun tag => .deleted c tag)
  | .send c =>
      match S.pages c with
      | none => none
      | some page =>
          match page.client.send with
          | none => none
          | some (client, batch) =>
              some (S.setPage c { page with client := client, push := .sent batch }, [])
  | .handlePush c =>
      match S.pages c with
      | none => none
      | some page =>
          match page.push with
          | .sent batch =>
              -- a page that is open never sees the handler raise
              match (insertText lower UserOrder.getChangeId (userName c) batch).run Cmd.exec S.redis with
              | (none, _) => none
              | (some id, redis) =>
                  some (({ S with redis := redis }).setPage c { page with push := .answered id },
                    [.stored c id batch])
          | _ => none
  | .endPush c =>
      match S.pages c with
      | none => none
      | some page =>
          match page.push with
          | .answered _ =>
              some (S.setPage c { page with client := page.client.sendSuccess, push := .idle }, [])
          | _ => none
  | .beat c =>
      match S.pages c with
      | none => none
      | some page =>
          match page.beat with
          | .idle =>
              let last := page.client.lastReceivedGreatestSeqNum
              some (S.setPage c { page with beat := .sent last }, [])
          | _ => none
  | .handleBeat c =>
      match S.pages c with
      | none => none
      | some page =>
          match page.beat with
          | .sent last =>
              match (heartbeat lower (userName c) last).run Cmd.exec S.redis with
              | (none, _) => none
              | (some reply, redis) =>
                  some (({ S with redis := redis }).setPage c { page with beat := .answered reply }, [])
          | _ => none
  | .endBeat c transactions =>
      match S.pages c with
      | none => none
      | some page =>
          match page.beat with
          | .answered reply =>
              if Reorders transactions reply then
                let client := page.client.applyReply reply.userCount reply.userPosition transactions
                some (S.setPage c { page with client := client, beat := .idle },
                  transactions.map fun t => .applied c t.1 t.2)
              else none
          | _ => none

/-- The session as a machine. -/
def machine : Machine (System C Name Tag) (Action C Tag) (Event C Tag) := ⟨step userName lower⟩

/-- A run from the start, with its trace. -/
abbrev Run (τ : List (Event C Tag)) (S : System C Name Tag) : Prop :=
  (machine userName lower).Run init τ S

end System

/-- In two lists that are paired, every entry of the first has one in the second. -/
theorem exists_paired {α β : Type} {R : α → β → Prop} {l : List α} {l' : List β} (paired : List.Forall₂ R l l')
    {a : α} (member : a ∈ l) : ∃ b ∈ l', R a b := by
  induction paired with
  | nil => cases member
  | cons here _ ih =>
      rcases List.mem_cons.1 member with rfl | later
      · exact ⟨_, List.mem_cons_self, here⟩
      · obtain ⟨b, inList, related⟩ := ih later
        exact ⟨b, List.mem_cons_of_mem _ inList, related⟩

end ColabEdit.Session
