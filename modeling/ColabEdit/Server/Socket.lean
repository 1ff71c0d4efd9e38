/-
# ColabEdit.Server.Socket -- the socket handler beside the routes

`insert` of `app/main.py` with the methods of `app/model/pps.py` it calls, as
programs over the commands of the routes and three reads that only they send.  A
message that is no backspace raises: `PPS.insert` asks the `hot_redis.Dict` of the
users for an `index` it does not have, before its first command.  A backspace hides
`str(float(tag))`, where `tag` is the entry of the list that the page of the sender
would hide; `strFloat` stands for the two conversions.

* `piece_pushed`: whatever requests interleave, every piece of the server's document
  is made of strings that a push attached; logins, heartbeats, logouts and socket
  messages add nothing to it, and neither do the batches of a page.
* `delete_agrees_iff`: a backspace hides for the server what it hides on the page
  exactly if the tag is the string of its float.
-/
import ColabEdit.Browser.Document
import ColabEdit.Server.Json
import ColabEdit.Server.Phases
import ColabEdit.Server.Text
import ColabEdit.Server.Traffic
import ColabEdit.Theory.Pool

namespace ColabEdit.Server

open ColabEdit.Browser ColabEdit.Theory

set_option autoImplicit false
set_option linter.unusedSectionVars false

/-- The commands of all requests. -/
inductive SocketCmd (Name Batch : Type) where
  | route (c : Cmd Name Batch)
  | lrangeTags
  | lindexTags (i : Nat)
  | hgetPps (tag : String)

@[reducible] def SocketCmd.Reply {Name Batch : Type} : SocketCmd Name Batch → Type
  | .route c => c.Reply
  | .lrangeTags => List String
  | .lindexTags _ => Option String
  | .hgetPps _ => Option String

def SocketCmd.exec {Name Batch : Type} [DecidableEq Name] :
    (c : SocketCmd Name Batch) → Redis Name Batch → c.Reply × Redis Name Batch
  | .route c, s => c.exec s
  | .lrangeTags, s => (s.doc.tags, s)
  | .lindexTags i, s => (s.doc.tags[i]?, s)
  | .hgetPps tag, s => (s.doc.pps.lookup tag, s)

namespace Socket

variable {Name Batch : Type} [DecidableEq Name]

abbrev Handler (Name Batch α : Type) := Prog (@SocketCmd.Reply Name Batch) α

/-- The handler of a route. -/
def route {α : Type} (p : Server.Handler Name Batch α) : Handler Name Batch α :=
  p.lift SocketCmd.route fun _ r => r

/-! ## `app/model/pps.py` -/

/-- `self.tags`, read as a whole. -/
abbrev lrangeTags : Handler Name Batch (List String) := Prog.op SocketCmd.lrangeTags

/-- `self.pps[tag]`; a missing field is a `KeyError`. -/
abbrev hgetPps (tag : String) : Handler Name Batch String := Prog.call (.hgetPps tag) Prog.orRaise

/-- The loop of `piece`. -/
def pieceFrom (left right : Nat) : List String → Nat → String → Handler Name Batch String
  | [], _, curDoc => return curDoc
  | tag :: rest, count, curDoc =>
      if left ≤ count ∧ count < right then do
        let x ← hgetPps tag
        if x ≠ "0" then
          let x ← hgetPps tag
          pieceFrom left right rest (count + 1) (curDoc ++ x)
        else pieceFrom left right rest (count + 1) curDoc
      else pieceFrom left right rest (count + 1) curDoc

/-- `piece` reads the list anew for each of its tests. -/
def piece (posStampLeft posStampRight : String) : Handler Name Batch String := do
  let tags ← lrangeTags
  if tags.contains posStampLeft then
    let tags ← lrangeTags
    if tags.contains posStampRight then
      let tags ← lrangeTags
      let left ← Prog.orRaise (tags.idxOf? posStampLeft)
      let tags ← lrangeTags
      let right ← Prog.orRaise (tags.idxOf? posStampRight)
      let tags ← lrangeTags
      pieceFrom left right tags 0 ""
    else return ""
  else return ""

/-- The loop of `delete`: the count it ends with, and `found`. -/
def deleteFrom (pos : Int) : List String → Nat → Handler Name Batch (Nat × Bool)
  | [], count => return (count, false)
  | tag :: rest, count => do
      let x ← hgetPps tag
      let count := if x ≠ "0" then count + 1 else count
      if (count : Int) = pos then return (count, true) else deleteFrom pos rest count

/-- `strFloat tag` is `str(float(tag))`; `none` is a `ValueError`. -/
def delete (strFloat : String → Option String) (pos : Int) : Handler Name Batch Unit := do
  let tags ← lrangeTags
  let counted ← deleteFrom pos tags 0
  if counted.2 then
    let tag : String ← Prog.call (.lindexTags counted.1) Prog.orRaise
    let posStamp ← Prog.orRaise (strFloat tag)
    route (PPS.hide Name Batch posStamp)
    let _ ← piece "0" "1"
    return
  else
    let _ ← piece "0" "1"
    return

/-- `self.user_list.users.index` is an `AttributeError`. -/
def PPS.insert (_user : Name) (_ch _pos : Int) : Handler Name Batch Unit := .raise

/-! ## `app/main.py` -/

/-- A message with the integers that `int` reads from it; `none` is an exception, of
`int` or of a missing key. -/
structure Message (Name : Type) where
  char : Option Int
  pos : Option Int
  userName : Option Name

/-- The handler of `'insert'`.  A result is the event it emits. -/
def insert (strFloat : String → Option String) (message : Message Name) : Handler Name Batch Unit := do
  let ch ← Prog.orRaise message.char
  let pos ← Prog.orRaise message.pos
  let user ← Prog.orRaise message.userName
  route (Server.PPS.init Name Batch)
  if ch = 8 then delete strFloat pos else PPS.insert user ch pos

/-! ## Every request of the server -/

inductive Request (Name Batch : Type) where
  | login (username : Name)
  | sendChanges (username : Name) (batch : Batch)
  | heartbeat (username : Name) (lastGreatestSequenceNumber : Int)
  | deinitializeCall (username : Name)
  | sendUserNames
  | insert (message : Message Name)

variable [Changes Batch] (lower : Name → Name) (empty : Name) (strFloat : String → Option String)

/-- The program of a request; what it answers is left out. -/
def program : Request Name Batch → Handler Name Batch Unit
  | .login username => do
      let _ ← route (initialize_ lower username)
      return
  | .sendChanges username batch => do
      let _ ← route (insertText lower UserOrder.getChangeId username batch)
      return
  | .heartbeat username last => do
      let _ ← route (Server.heartbeat lower username last)
      return
  | .deinitializeCall username => route (deinitialize_ empty username)
  | .sendUserNames => do
      let _ ← Prog.op (SocketCmd.route Cmd.hkeysUsers)
      return
  | .insert message => insert strFloat message

/-- A run of requests, interleaved command by command, from the empty database. -/
abbrev Run {J : Type} [DecidableEq J] (τ : List (Pool.Event J (Request Name Batch) (@SocketCmd.Reply Name Batch)))
    (S : Pool J (Request Name Batch) (Redis Name Batch) (@SocketCmd.Reply Name Batch) Unit) : Prop :=
  Pool.Run SocketCmd.exec (program lower empty strFloat) Redis.empty τ S

/-! ## What a request writes into the document -/

/-- The entries that a request attaches. -/
def Request.attaches : Request Name Batch → List (String × String)
  | .sendChanges _ batch => (Changes.edits batch).filterMap fun
      | .attach tag x => some (tag, x)
      | _ => none
  | _ => []

/-- The commands on the document that add something are those of an attached entry or
of the constructor. -/
def Allows (r : Request Name Batch) : SocketCmd Name Batch → Prop
  | .route (.doc (.hsetPps tag x)) => x = "0" ∨ (tag, x) ∈ r.attaches
  | .route (.doc (.rpushTags tag)) => tag = "0" ∨ tag = "1" ∨ ∃ x, (tag, x) ∈ r.attaches
  | _ => True

/-- The document shows what was attached. -/
structure Attached (rs : List (Request Name Batch)) (d : DocStore) : Prop where
  tags : ∀ t ∈ d.tags, t = "0" ∨ t = "1" ∨ ∃ x, (t, x) ∈ rs.flatMap Request.attaches
  fields : ∀ t x, d.pps.lookup t = some x → x = "0" ∨ (t, x) ∈ rs.flatMap Request.attaches

variable {lower empty strFloat} {r : Request Name Batch} {rs : List (Request Name Batch)}

theorem mem_attaches {username : Name} {batch : Batch} {tag x : String} :
    (tag, x) ∈ (Request.sendChanges username batch).attaches ↔ .attach tag x ∈ Changes.edits batch := by
  simp only [Request.attaches, List.mem_filterMap]
  constructor
  · rintro ⟨e, member, is⟩
    cases e with
    | attach tag' x' =>
        cases is
        exact member
    | hide tag' => cases is
    | malformed => cases is
  · exact fun member => ⟨_, member, rfl⟩

/-- The command reads the document. -/
def Reads : SocketCmd Name Batch → Prop
  | .route _ => False
  | _ => True

theorem Reads.allows {c : SocketCmd Name Batch} (reads : Reads c) : Allows r c := by
  cases c with
  | route c => exact reads.elim
  | _ => trivial

theorem Reads.exec {c : SocketCmd Name Batch} (reads : Reads c) (s : Redis Name Batch) : (c.exec s).2 = s := by
  cases c with
  | route c => exact reads.elim
  | _ => rfl

theorem lrangeTags_only : (lrangeTags : Handler Name Batch (List String)).Only Reads := .op trivial

theorem orRaise_only {α : Type} {p : SocketCmd Name Batch → Prop} (o : Option α) :
    (Prog.orRaise o : Handler Name Batch α).Only p := by
  cases o with
  | none => exact .raise
  | some a => exact .ret a

theorem hgetPps_only (tag : String) : (hgetPps tag : Handler Name Batch String).Only Reads :=
  .call trivial fun x => orRaise_only x

theorem pieceFrom_only (left right : Nat) (tags : List String) (count : Nat) (curDoc : String) :
    (pieceFrom left right tags count curDoc : Handler Name Batch String).Only Reads := by
  induction tags generalizing count curDoc with
  | nil => exact .ret _
  | cons tag rest ih =>
      rw [pieceFrom]
      split
      · apply Prog.Only.bind (hgetPps_only tag)
        intro x
        split
        · exact .bind (hgetPps_only tag) fun x => ih _ _
        · exact ih _ _
      · exact ih _ _

theorem piece_only (left right : String) : (piece left right : Handler Name Batch String).Only Reads := by
  apply Prog.Only.bind lrangeTags_only
  intro tags
  split
  · apply Prog.Only.bind lrangeTags_only
    intro tags
    split
    · apply Prog.Only.bind lrangeTags_only
      intro tags
      apply Prog.Only.bind (orRaise_only _)
      intro left
      apply Prog.Only.bind lrangeTags_only
      intro tags
      apply Prog.Only.bind (orRaise_only _)
      intro right
      exact .bind lrangeTags_only fun tags => pieceFrom_only ..
    · exact .ret _
  · exact .ret _

theorem deleteFrom_only (pos : Int) (tags : List String) (count : Nat) :
    (deleteFrom pos tags count : Handler Name Batch (Nat × Bool)).Only Reads := by
  induction tags generalizing count with
  | nil => exact .ret _
  | cons tag rest ih =>
      apply Prog.Only.bind (hgetPps_only tag)
      intro x
      generalize (if x ≠ "0" then count + 1 else count) = count
      show Prog.Only _ (if _ then _ else _)
      split
      · exact .ret _
      · exact ih count

/-- The handlers of the routes, through the commands they issue. -/
theorem route_only {α : Type} {p : Server.Handler Name Batch α} (only : p.Only fun c => Allows r (.route c)) :
    (route p).Only (Allows r) := only.lift fun _ => id

theorem hide_only (tag : String) : (Server.PPS.hide Name Batch tag).Only fun c => Allows r (.route c) := by
  refine .call trivial fun present => ?_
  cases present with
  | true => exact .call (.inl rfl) fun _ => .op trivial
  | false => exact .ret _

theorem init_only : (Server.PPS.init Name Batch).Only fun c => Allows r (.route c) := by
  refine .call trivial fun keys => ?_
  change Prog.Only _ (if List.count Server.PPS.key keys = 0 then _ else _)
  split
  · refine .call (.inl rfl) fun _ => .call (.inl rfl) fun _ => .call trivial fun _ => .call trivial fun _ => ?_
    exact .call (.inl rfl) fun _ => .call (.inr (.inl rfl)) fun _ => .op trivial
  · exact .ret _

theorem editAll_only {edits : List DocEdit} (all : ∀ tag x, .attach tag x ∈ edits → (tag, x) ∈ r.attaches) :
    (Server.PPS.editAll Name Batch edits).Only fun c => Allows r (.route c) := by
  induction edits with
  | nil => exact .ret _
  | cons e rest ih =>
      refine .bind ?_ fun _ => ih fun tag x member => all tag x (List.mem_cons_of_mem _ member)
      cases e with
      | attach tag x =>
          have here := all tag x List.mem_cons_self
          refine .call (.inr here) fun _ => .call (.inr (.inr ⟨x, here⟩)) fun _ => .call trivial fun _ => ?_
          exact .op trivial
      | hide tag => exact hide_only tag
      | malformed => exact .raise

theorem delete_only (pos : Int) : (delete strFloat pos : Handler Name Batch Unit).Only (Allows r) := by
  have reads : ∀ {α : Type} {p : Handler Name Batch α}, p.Only Reads → p.Only (Allows r) := fun only =>
    only.imp fun _ => Reads.allows
  apply Prog.Only.bind (reads lrangeTags_only)
  intro tags
  apply Prog.Only.bind (reads (deleteFrom_only pos tags 0))
  intro counted
  split
  · refine .bind (.call trivial fun tag => orRaise_only tag) fun tag => ?_
    apply Prog.Only.bind (orRaise_only _)
    intro posStamp
    refine .bind (route_only (hide_only posStamp)) fun _ => ?_
    exact .bind (reads (piece_only ..)) fun _ => .ret _
  · exact .bind (reads (piece_only ..)) fun _ => .ret _

theorem insert_only (message : Message Name) :
    (insert strFloat message : Handler Name Batch Unit).Only (Allows r) := by
  apply Prog.Only.bind (orRaise_only _)
  intro ch
  apply Prog.Only.bind (orRaise_only _)
  intro pos
  apply Prog.Only.bind (orRaise_only _)
  intro user
  refine .bind (route_only init_only) fun _ => ?_
  split
  · exact delete_only pos
  · exact .raise

/-- **Every request keeps to its own entries.** -/
theorem program_only (r : Request Name Batch) : (program lower empty strFloat r).Only (Allows r) := by
  cases r with
  | login username =>
      refine .bind (route_only ((Traffic.initialize_isLogin (lower username)).imp fun c isLogin => ?_)) fun _ => .ret _
      cases c <;> trivial
  | sendChanges username batch =>
      refine .bind (route_only ?_) fun _ => .ret _
      refine .bind init_only fun _ => .bind (editAll_only fun tag x => mem_attaches.2) fun _ => ?_
      have counter : (UserOrder.getChangeId : Server.Handler Name Batch Nat).Only fun c =>
          Allows (.sendChanges username batch) (.route c) :=
        .call trivial fun _ => .call trivial fun _ => .call trivial fun _ => .ret _
      exact .bind counter fun id => .bind (.op trivial) fun _ =>
        recordOwner_only lower trivial (fun _ => trivial) id
  | heartbeat username last =>
      refine .bind (route_only ((heartbeat_only (lower username) last).imp fun c isRead => ?_)) fun _ => .ret _
      cases c <;> trivial
  | deinitializeCall username =>
      apply route_only
      by_cases named : username ≠ empty
      · simp only [deinitialize_, if_pos named, UserOrder.remove, Prog.attempt]
        exact .ret _
      · simp only [deinitialize_, if_neg named]
        exact .ret _
  | sendUserNames => exact .call trivial fun _ => .ret _
  | insert message => exact insert_only message

namespace Attached

variable {d : DocStore}

theorem mono (attached : Attached rs d) (more : List (Request Name Batch)) : Attached (rs ++ more) d := by
  have member : ∀ e ∈ rs.flatMap Request.attaches, e ∈ (rs ++ more).flatMap Request.attaches := fun e here => by
    rw [List.flatMap_append]
    exact List.mem_append_left _ here
  refine ⟨fun t listed => ?_, fun t x found => (attached.fields t x found).imp_right (member _)⟩
  rcases attached.tags t listed with zero | one | ⟨x, here⟩
  · exact .inl zero
  · exact .inr (.inl one)
  · exact .inr (.inr ⟨x, member _ here⟩)

/-- What a command of a request leaves. -/
theorem exec {s : Redis Name Batch} (attached : Attached rs s.doc) (member : r ∈ rs) {c : SocketCmd Name Batch}
    (allows : Allows r c) : Attached rs (c.exec s).2.doc := by
  have mine : ∀ e ∈ r.attaches, e ∈ rs.flatMap Request.attaches := fun e here =>
    List.mem_flatMap.2 ⟨r, member, here⟩
  cases c with
  | lrangeTags => exact attached
  | lindexTags i => exact attached
  | hgetPps tag => exact attached
  | route c =>
      cases c with
      | doc c =>
          cases c with
          | hsetPps tag x =>
              refine ⟨attached.tags, fun t y found => ?_⟩
              by_cases here : t = tag
              · subst here
                obtain rfl := Option.some.inj ((AList.lookup_insert _).symm.trans found)
                exact allows.imp_right (mine _)
              · exact attached.fields t y ((AList.lookup_insert_ne here).symm.trans found)
          | rpushTags tag =>
              refine ⟨fun t listed => ?_, attached.fields⟩
              rcases List.mem_append.1 listed with before | now
              · exact attached.tags t before
              · rw [List.mem_singleton.1 now]
                rcases allows with zero | one | ⟨x, here⟩
                · exact .inl zero
                · exact .inr (.inl one)
                · exact .inr (.inr ⟨x, mine _ here⟩)
          | sortTags =>
              exact ⟨fun t listed => attached.tags t ((List.mem_insertionSort _).1 listed), attached.fields⟩
          | lrangeKeys => exact attached
          | rpushKeys key => exact ⟨attached.tags, attached.fields⟩
          | hexistsPps tag => exact attached
          | hsetPersist tag value => exact ⟨attached.tags, attached.fields⟩
      | _ => exact attached

end Attached

section Runs

variable {J : Type} [DecidableEq J] {τ : List (Pool.Event J (Request Name Batch) (@SocketCmd.Reply Name Batch))}
  {S : Pool J (Request Name Batch) (Redis Name Batch) (@SocketCmd.Reply Name Batch) Unit}

theorem attached_of_run (run : Run lower empty strFloat τ S) :
    Attached ((Pool.spawned τ).map Prod.snd) S.store.doc :=
  (Pool.Run.only (P := Allows) (I := fun rs (s : Redis Name Batch) => Attached rs s.doc) program_only
    ⟨fun t listed => (List.not_mem_nil listed).elim, fun t x found => by cases found⟩ (fun l attached => attached.mono [l])
    (fun member allows attached => attached.exec member allows) run).1

/-- The strings that a piece is made of, with their tags. -/
theorem pieceFrom_parts {d : DocStore} {left right : Nat} {tags : List String} {count : Nat} {curDoc text : String}
    (read : Server.PPS.pieceFrom d left right tags count curDoc = some text) :
    ∃ parts : List (String × String), (∀ part ∈ parts, d.pps.lookup part.1 = some part.2 ∧ part.2 ≠ "0") ∧
      (parts.map Prod.fst).Sublist tags ∧ text.toList = curDoc.toList ++ parts.flatMap fun part => part.2.toList := by
  induction tags generalizing count curDoc with
  | nil =>
      cases read
      exact ⟨[], nofun, .slnil, by simp⟩
  | cons tag rest ih =>
      rw [Server.PPS.pieceFrom] at read
      split at read
      · split at read
        · rename_i x found
          obtain ⟨parts, each, sub, is⟩ := ih read
          by_cases shown : x ≠ "0"
          · refine ⟨(tag, x) :: parts, fun part member => ?_, sub.cons_cons tag, ?_⟩
            · rcases List.mem_cons.1 member with rfl | later
              · exact ⟨found, shown⟩
              · exact each part later
            · rw [is, if_pos shown]
              simp
          · rw [if_neg shown] at is
            exact ⟨parts, each, sub.cons tag, is⟩
        · cases read
      · obtain ⟨parts, each, sub, is⟩ := ih read
        exact ⟨parts, each, sub.cons tag, is⟩

theorem piece_parts (run : Run lower empty strFloat τ S) {left right text : String}
    (shown : Server.PPS.piece S.store.doc left right = some text) :
    ∃ parts : List (String × String), (parts.map Prod.fst).Sublist S.store.doc.tags ∧
      (text.toList = parts.flatMap fun part => part.2.toList) ∧
      ∀ part ∈ parts, part ∈ ((Pool.spawned τ).map Prod.snd).flatMap Request.attaches := by
  unfold Server.PPS.piece at shown
  split at shown
  · obtain ⟨parts, each, sub, is⟩ := pieceFrom_parts shown
    refine ⟨parts, sub, by simpa using is, fun part member => ?_⟩
    obtain ⟨found, ne⟩ := each part member
    exact ((attached_of_run run).fields part.1 part.2 found).resolve_left ne
  · cases shown
    exact ⟨[], List.nil_sublist _, rfl, nofun⟩

/-- **Only pushes write.**  However the commands of logins, heartbeats, logouts,
pushes and socket messages interleave, whatever a piece of the server's document
shows was attached by the entry `'insert'` of a push. -/
theorem piece_pushed (run : Run lower empty strFloat τ S) {left right text : String}
    (shown : Server.PPS.piece S.store.doc left right = some text) :
    ∃ parts : List (String × String), (parts.map Prod.fst).Sublist S.store.doc.tags ∧
      (text.toList = parts.flatMap fun part => part.2.toList) ∧
      ∀ part ∈ parts, ∃ j username batch, (j, .sendChanges username batch) ∈ Pool.spawned τ ∧
        .attach part.1 part.2 ∈ Changes.edits batch := by
  obtain ⟨parts, sub, is, each⟩ := piece_parts run shown
  refine ⟨parts, sub, is, fun part member => ?_⟩
  obtain ⟨request, spawned, here⟩ := List.mem_flatMap.1 (each part member)
  obtain ⟨⟨j, request'⟩, inTrace, rfl⟩ := List.mem_map.1 spawned
  cases request' with
  | sendChanges username batch => exact ⟨j, username, batch, inTrace, mem_attaches.1 here⟩
  | _ => cases here

/-- A push attaches `x`, and a socket message comes in between. -/
theorem piece_pushed_two :
    ∃ (τ : List (Pool.Event Bool (Request Char PushedObject) (@SocketCmd.Reply Char PushedObject)))
      (S : Pool Bool (Request Char PushedObject) (Redis Char PushedObject) (@SocketCmd.Reply Char PushedObject) Unit),
      Run Char.toLower ' ' some τ S ∧ Server.PPS.piece S.store.doc "0" "1" = some "x" ∧
        ∃ parts : List (String × String), "x".toList = (parts.flatMap fun part => part.2.toList) ∧
          ∀ part ∈ parts, ∃ j username batch, (j, .sendChanges username batch) ∈ Pool.spawned τ ∧
            .attach part.1 part.2 ∈ Changes.edits batch := by
  obtain ⟨τ, S, run, shown⟩ :
      ∃ (τ : List (Pool.Event Bool (Request Char PushedObject) (@SocketCmd.Reply Char PushedObject)))
        (S : Pool Bool (Request Char PushedObject) (Redis Char PushedObject) (@SocketCmd.Reply Char PushedObject) Unit),
        Run Char.toLower ' ' some τ S ∧ Server.PPS.piece S.store.doc "0" "1" = some "x" :=
    Machine.Run.of_replay (show ((Pool.machine SocketCmd.exec (program Char.toLower ' ' some)).exec
      ([.spawn false (.sendChanges 'a' ⟨AList.singleton "insert" (.arr [.str "0.5", .str "x"])⟩),
          .spawn true (.insert ⟨some 97, some 1, some 'a'⟩)] ++ List.replicate 9 (.run false) ++ [.run true] ++
        List.replicate 3 (.run false)) ([], Pool.start Redis.empty)).any _ = true by decide +kernel)
  obtain ⟨parts, -, is, each⟩ := piece_pushed run shown
  exact ⟨τ, S, run, shown, parts, is, each⟩

/-- Where no push has an entry `'insert'`, as none of a page has, nothing is shown. -/
theorem piece_silent (run : Run lower empty strFloat τ S)
    (silent : ∀ batch : Batch, ∀ tag x, .attach tag x ∉ Changes.edits batch) {left right text : String}
    (shown : Server.PPS.piece S.store.doc left right = some text) : text = "" := by
  obtain ⟨parts, -, is, each⟩ := piece_parts run shown
  have none : parts = [] := by
    refine List.eq_nil_iff_forall_not_mem.2 fun part member => ?_
    obtain ⟨request, -, here⟩ := List.mem_flatMap.1 (each part member)
    cases request with
    | sendChanges username batch => exact silent batch _ _ (mem_attaches.1 here)
    | _ => cases here
  rw [none] at is
  exact String.toList_eq_nil_iff.1 is

end Runs

/-! ## A backspace on the server and on a page -/

section Backspace

variable {s : Pps String} {d : DocStore} {store : Redis Name Batch} {t : String}

/-- The page has the tags of the server and shows those whose fields are shown. -/
structure Mirrors (s : Pps String) (d : DocStore) : Prop where
  tags : s.ppsTags = d.tags
  sorted : d.tags.Pairwise (· ≤ ·)
  shown : ∀ t ∈ d.tags, ∃ x, d.pps.lookup t = some x ∧ (s.shown t ↔ x ≠ "0")

/-- The loop is the one that `delete` of the page has. -/
theorem deleteFrom_run (pos : Nat) {tags : List String}
    (shown : ∀ t ∈ tags, ∃ x, store.doc.pps.lookup t = some x ∧ (s.shown t ↔ x ≠ "0")) (count : Nat) :
    (deleteFrom pos tags count : Handler Name Batch (Nat × Bool)).run SocketCmd.exec store =
      (some (s.countTo pos tags count), store) := by
  induction tags generalizing count with
  | nil => rfl
  | cons tag rest ih =>
      obtain ⟨x, found, visible⟩ := shown tag List.mem_cons_self
      have step : (if x ≠ "0" then count + 1 else count) = if s.shown tag then count + 1 else count :=
        if_congr visible.symm rfl rfl
      rw [deleteFrom, Pps.countTo, Prog.run_bind]
      simp only [Prog.run_call, SocketCmd.exec, found, Prog.orRaise, Prog.run_ret, step, Int.natCast_inj]
      generalize (if s.shown tag then count + 1 else count) = count
      split
      · rfl
      · exact ih (fun t member => shown t (List.mem_cons_of_mem _ member)) count

theorem piece_run (left right : String) (store : Redis Name Batch) :
    ((piece left right : Handler Name Batch String).run SocketCmd.exec store).2 = store :=
  (piece_only left right).same (f := id) (fun _ s reads => reads.exec s) store

theorem route_run {α : Type} (p : Server.Handler Name Batch α) (store : Redis Name Batch) :
    (route p).run SocketCmd.exec store = p.run Cmd.exec store := Prog.run_lift (fun _ _ => rfl) p store

/-- `delete` hides the string of the float of the tag that the page finds. -/
theorem delete_run (mirrors : Mirrors s store.doc) (pos : Nat) :
    ((delete strFloat pos : Handler Name Batch Unit).run SocketCmd.exec store).2 =
      { store with doc := ((s.delete pos).bind strFloat).elim store.doc (Server.PPS.hidden store.doc) } := by
  have sorted : Pps.sort s.ppsTags = store.doc.tags := by
    rw [mirrors.tags]
    exact SortedList.insertionSort_of_sorted mirrors.sorted
  have counted : (deleteFrom pos store.doc.tags 0 : Handler Name Batch (Nat × Bool)).run SocketCmd.exec store = _ :=
    deleteFrom_run pos mirrors.shown 0
  have rest : ∀ store : Redis Name Batch,
      ((do let _ ← piece "0" "1"; return : Handler Name Batch Unit).run SocketCmd.exec store).2 = store := by
    intro store
    have read := piece_run "0" "1" store
    rw [Prog.run_bind]
    split
    · rename_i ran
      rw [ran] at read
      exact read
    · rename_i ran
      rw [ran] at read
      exact read
  unfold delete Pps.delete
  rw [sorted, Prog.op_bind, Prog.run_call, Prog.run_bind]
  simp only [SocketCmd.exec, counted]
  rcases s.countTo pos store.doc.tags 0 with ⟨count, found⟩
  cases found with
  | false => exact rest store
  | true =>
      simp only [if_true, Prog.run_bind, Prog.run_call, SocketCmd.exec]
      rcases store.doc.tags[count]? with _ | tag
      · rfl
      · rcases is : strFloat tag with _ | posStamp
        · simp [Prog.orRaise, is]
        · simp only [Prog.orRaise, Prog.run_ret, Option.bind_some, is, Option.elim_some, route_run,
            Server.PPS.hide_hidden]
          have tail := rest { store with doc := Server.PPS.hidden store.doc posStamp }
          rw [Prog.run_bind] at tail
          exact tail

/-- To hide another tag, or none, leaves the tag as it was. -/
theorem hidden_other (d : DocStore) {t : String} {u : Option String} (other : u ≠ some t) :
    (u.elim d (Server.PPS.hidden d)).tags = d.tags ∧ (u.elim d (Server.PPS.hidden d)).pps.lookup t = d.pps.lookup t := by
  cases u with
  | none => exact ⟨rfl, rfl⟩
  | some u =>
      have ne : t ≠ u := fun same => other (by rw [same])
      rw [Option.elim_some, Server.PPS.hidden]
      split
      · exact ⟨rfl, AList.lookup_insert_ne ne⟩
      · exact ⟨rfl, rfl⟩

/-- **A backspace that the server and a page agree on.**  The server's document still
mirrors the page after both have hidden the character, exactly if the tag of the
character is the string of its float.  Otherwise the character stays on the server. -/
theorem delete_agrees_iff {pos : Nat} {userName : Name} (mirrors : Mirrors s (Server.PPS.made store.doc))
    (found : s.delete pos = some t) (visible : s.shown t) :
    let after := ((insert strFloat ⟨some 8, some (pos : Int), some userName⟩ : Handler Name Batch Unit).run
      SocketCmd.exec store).2.doc
    (Mirrors (s.hide t) after ↔ strFloat t = some t) ∧
      (strFloat t ≠ some t → after.tags = s.ppsTags ∧ ∃ x, x ≠ "0" ∧
        (Server.PPS.made store.doc).pps.lookup t = some x ∧ after.pps.lookup t = some x) := by
  have ran : ((insert strFloat ⟨some 8, some (pos : Int), some userName⟩ : Handler Name Batch Unit).run
      SocketCmd.exec store).2 = { store with
        doc := ((strFloat t).elim (Server.PPS.made store.doc) (Server.PPS.hidden (Server.PPS.made store.doc))) } := by
    have deleted : ((delete strFloat pos : Handler Name Batch Unit).run SocketCmd.exec
        { store with doc := Server.PPS.made store.doc }).2 = _ := delete_run mirrors pos
    rw [found, Option.bind_some] at deleted
    rw [← deleted]
    show ((route (Server.PPS.init Name Batch) >>= fun _ => delete strFloat pos).run SocketCmd.exec store).2 = _
    rw [Prog.run_bind, route_run, Server.PPS.init_made]
  rw [ran]
  dsimp only
  generalize Server.PPS.made store.doc = d at mirrors
  have listed : t ∈ d.tags := mirrors.tags ▸ Pps.delete_mem found
  obtain ⟨x, field, shows⟩ := mirrors.shown t listed
  have stays : strFloat t ≠ some t → ((strFloat t).elim d (Server.PPS.hidden d)).tags = s.ppsTags ∧
      ∃ x, x ≠ "0" ∧ d.pps.lookup t = some x ∧ ((strFloat t).elim d (Server.PPS.hidden d)).pps.lookup t = some x :=
    fun other => by
      obtain ⟨tags, kept⟩ := hidden_other d other
      exact ⟨tags.trans mirrors.tags.symm, x, shows.1 visible, field, kept.trans field⟩
  have hides : (s.hide t).shown t = false := by simp [Pps.shown, Pps.hide]
  refine ⟨⟨fun after => ?_, fun is => ?_⟩, stays⟩
  · by_contra other
    obtain ⟨tags, x, nonzero, -, kept⟩ := stays other
    obtain ⟨y, field', shows'⟩ := after.shown t (by rw [tags, mirrors.tags]; exact listed)
    obtain rfl := Option.some.inj (kept.symm.trans field')
    exact absurd (shows'.2 nonzero) (by simp [hides])
  · have present : t ∈ d.pps := AList.lookup_isSome.1 (by rw [field]; rfl)
    rw [is, Option.elim_some, Server.PPS.hidden, if_pos present]
    refine ⟨mirrors.tags, mirrors.sorted, fun u member => ?_⟩
    by_cases same : u = t
    · subst same
      exact ⟨"0", AList.lookup_insert _, by simp [hides]⟩
    · obtain ⟨y, field', shows'⟩ := mirrors.shown u member
      refine ⟨y, (AList.lookup_insert_ne same).trans field', ?_⟩
      rw [← shows']
      simp [Pps.shown, Pps.hide, same]

/-- Both hide the character under `0.5`. -/
theorem delete_agrees_half :
    let store : Redis Char PushedObject :=
      { Redis.empty with doc := Server.PPS.attached (Server.PPS.made ⟨[], ∅, [], ∅⟩) "0.5" "a" }
    let page : Pps String := ⟨["0", "0.5", "1"], fun t => if t = "0.5" then some 97 else some 0, fun _ => some true⟩
    Mirrors (page.hide "0.5")
      ((insert some ⟨some 8, some 1, some 'a'⟩ : Handler Char PushedObject Unit).run SocketCmd.exec store).2.doc := by
  intro store page
  have sorted : (["0", "0.5", "1"] : List String).Pairwise (· ≤ ·) := by decide +kernel
  have tags : (Server.PPS.made store.doc).tags = ["0", "0.5", "1"] := by decide +kernel
  have mirrors : Mirrors page (Server.PPS.made store.doc) := by
    refine ⟨tags.symm, tags ▸ sorted, fun t member => ?_⟩
    rw [tags] at member
    simp only [List.mem_cons, List.not_mem_nil, or_false] at member
    rcases member with rfl | rfl | rfl
    · exact ⟨"0", by decide +kernel, by decide +kernel⟩
    · exact ⟨"a", by decide +kernel, by decide +kernel⟩
    · exact ⟨"0", by decide +kernel, by decide +kernel⟩
  have found : page.delete 1 = some "0.5" := by decide +kernel
  exact (delete_agrees_iff mirrors found (by decide +kernel)).1.2 rfl

end Backspace

end Socket

end ColabEdit.Server
