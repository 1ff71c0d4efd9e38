/-
# ColabEdit.Server.Traffic -- requests that run command by command

Any number of `/sendChanges` and `/heartbeat` requests on one Redis.  A request
is the program of its handler; a step runs the next command of one request, in
any order, so every interleaving of commands is a run.  A user may have several
requests of both kinds at once.  A heartbeat carries the cursor its page had when
it was sent; `process` is the page that receives the reply and moves the cursor.

`lower` is applied when a request starts: a thread and its events carry the
lower-case name of their user.
-/
import ColabEdit.Browser.Client
import ColabEdit.Server.Handlers
import ColabEdit.Theory.Transition

namespace ColabEdit.Server

open ColabEdit.Browser ColabEdit.Theory

set_option autoImplicit false
set_option linter.unusedSectionVars false

/-- A request, with what is left of its handler. -/
inductive Thread (Name Batch : Type) where
  | push (user : Name) (batch : Batch) (rest : Handler Name Batch Nat)
  | beat (user : Name) (last : Int) (rest : Handler Name Batch (HeartbeatReply Batch))
  /-- A heartbeat whose reply was processed. -/
  | closed

structure Traffic (J Name Batch : Type) where
  redis : Redis Name Batch
  threads : J → Option (Thread Name Batch)
  /-- `lastReceivedGreatestSeqNum` on the page of a user. -/
  cursors : Name → Int

namespace Traffic

inductive Action (J Name Batch : Type) where
  | push (j : J) (username : Name) (batch : Batch)
  | beat (j : J) (username : Name)
  /-- The next command of a request. -/
  | run (j : J)
  /-- The page applies the reply of a heartbeat. -/
  | process (j : J)

inductive Event (J Name Batch : Type) where
  | pushRan (j : J) (user : Name) (c : Cmd Name Batch) (r : c.Reply)
  | beatRan (j : J) (user : Name) (last : Int) (c : Cmd Name Batch) (r : c.Reply)
  | applied (user : Name) (id : Nat) (batch : Batch)

variable {J Name Batch : Type} [DecidableEq J] [DecidableEq Name] [Changes Batch]

/-- Before the first request. -/
def start (redis : Redis Name Batch) : Traffic J Name Batch where
  redis := redis
  threads := fun _ => none
  cursors := fun _ => -1

def setThread (S : Traffic J Name Batch) (j : J) (thread : Thread Name Batch) :
    Traffic J Name Batch :=
  { S with threads := Function.update S.threads j (some thread) }

omit [DecidableEq Name] [Changes Batch] in
@[simp] theorem setThread_cursors (S : Traffic J Name Batch) (j : J) (thread : Thread Name Batch) :
    (S.setThread j thread).cursors = S.cursors := rfl

omit [DecidableEq Name] [Changes Batch] in
@[simp] theorem setThread_redis (S : Traffic J Name Batch) (j : J) (thread : Thread Name Batch) :
    (S.setThread j thread).redis = S.redis := rfl

/-- The page of a user moves its cursor over the ids of a reply. -/
def advance (S : Traffic J Name Batch) (user : Name) (reply : HeartbeatReply Batch) :
    Traffic J Name Batch :=
  let cursor := Client.advance (S.cursors user) (reply.transactions.map Prod.fst)
  { S with cursors := Function.update S.cursors user cursor }

/-- The batch of a `/sendChanges` request that has answered, and its id. -/
def answer (S : Traffic J Name Batch) (j : J) : Option (Name × Batch × Nat) :=
  match S.threads j with
  | some (.push user batch (.ret id)) => some (user, batch, id)
  | _ => none

theorem of_answer {S : Traffic J Name Batch} {j : J} {user : Name} {batch : Batch} {i : Nat}
    (answered : S.answer j = some (user, batch, i)) : S.threads j = some (.push user batch (.ret i)) := by
  unfold answer at answered
  split at answered
  · rename_i here
    cases answered
    exact here
  · cases answered

/-- The reply of a heartbeat that has answered and is not processed yet. -/
def replied (S : Traffic J Name Batch) (j : J) : Option (Name × HeartbeatReply Batch) :=
  match S.threads j with
  | some (.beat user _ (.ret reply)) => some (user, reply)
  | _ => none

theorem of_replied {S : Traffic J Name Batch} {j : J} {user : Name} {reply : HeartbeatReply Batch}
    (answered : S.replied j = some (user, reply)) :
    ∃ last, S.threads j = some (.beat user last (.ret reply)) := by
  unfold replied at answered
  split at answered
  · rename_i last _ here
    cases answered
    exact ⟨last, here⟩
  · cases answered

variable (lower : Name → Name) (alloc : Handler Name Batch Nat)

def step (S : Traffic J Name Batch) :
    Action J Name Batch → Option (Traffic J Name Batch × List (Event J Name Batch))
  | .push j username batch =>
      match S.threads j with
      | some _ => none
      | none =>
          some (S.setThread j
            (.push (lower username) batch (insertText lower alloc username batch)), [])
  | .beat j username =>
      match S.threads j with
      | some _ => none
      | none =>
          let last := S.cursors (lower username)
          some (S.setThread j (.beat (lower username) last (heartbeat lower username last)), [])
  | .run j =>
      match S.threads j with
      | some (.push user batch (.call c k)) =>
          some (({ S with redis := (c.exec S.redis).2 }).setThread j
            (.push user batch (k (c.exec S.redis).1)), [.pushRan j user c (c.exec S.redis).1])
      | some (.beat user last (.call c k)) =>
          some (({ S with redis := (c.exec S.redis).2 }).setThread j
            (.beat user last (k (c.exec S.redis).1)), [.beatRan j user last c (c.exec S.redis).1])
      | _ => none
  | .process j =>
      match S.threads j with
      | some (.beat user _ (.ret reply)) =>
          some ((S.advance user reply).setThread j .closed,
            reply.transactions.map fun t => .applied user t.1 t.2)
      | _ => none

def machine : Machine (Traffic J Name Batch) (Action J Name Batch) (Event J Name Batch) :=
  ⟨step lower alloc⟩

/-- A run from a store, with its trace. -/
abbrev Run (redis : Redis Name Batch) (τ : List (Event J Name Batch)) (S : Traffic J Name Batch) :
    Prop :=
  (machine lower alloc).Run (start redis) τ S

/-! ## What a step can do -/

/-- Every step, with the user's name in lower case. -/
inductive Step (S : Traffic J Name Batch) :
    List (Event J Name Batch) → Traffic J Name Batch → Prop
  | push (j : J) (user : Name) (batch : Batch) (free : S.threads j = none) :
      Step S [] (S.setThread j (.push user batch (insertText id alloc user batch)))
  | beat (j : J) (user : Name) (free : S.threads j = none) :
      Step S [] (S.setThread j
        (.beat user (S.cursors user) (heartbeat id user (S.cursors user))))
  | pushRun (j : J) (user : Name) (batch : Batch) (c : Cmd Name Batch)
      (k : c.Reply → Handler Name Batch Nat) (here : S.threads j = some (.push user batch (.call c k))) :
      Step S [.pushRan j user c (c.exec S.redis).1]
        (({ S with redis := (c.exec S.redis).2 }).setThread j (.push user batch (k (c.exec S.redis).1)))
  | beatRun (j : J) (user : Name) (last : Int) (c : Cmd Name Batch)
      (k : c.Reply → Handler Name Batch (HeartbeatReply Batch))
      (here : S.threads j = some (.beat user last (.call c k))) :
      Step S [.beatRan j user last c (c.exec S.redis).1]
        (({ S with redis := (c.exec S.redis).2 }).setThread j (.beat user last (k (c.exec S.redis).1)))
  | process (j : J) (user : Name) (last : Int) (reply : HeartbeatReply Batch)
      (here : S.threads j = some (.beat user last (.ret reply))) :
      Step S (reply.transactions.map fun t => .applied user t.1 t.2)
        ((S.advance user reply).setThread j .closed)

variable {lower alloc} {S S' : Traffic J Name Batch} {evs : List (Event J Name Batch)}

theorem steps {a : Action J Name Batch} (taken : step lower alloc S a = some (S', evs)) :
    Step alloc S evs S' := by
  cases a with
  | push j username batch =>
      simp only [step] at taken
      split at taken
      · cases taken
      · rename_i free
        cases taken
        exact .push j (lower username) batch free
  | beat j username =>
      simp only [step] at taken
      split at taken
      · cases taken
      · rename_i free
        cases taken
        exact .beat j (lower username) free
  | run j =>
      simp only [step] at taken
      split at taken
      · rename_i user batch c k here
        cases taken
        exact .pushRun j user batch c k here
      · rename_i user last c k here
        cases taken
        exact .beatRun j user last c k here
      · cases taken
  | process j =>
      simp only [step] at taken
      split at taken
      · rename_i user last reply here
        cases taken
        exact .process j user last reply here
      · cases taken

/-- The induction over the runs whose trace meets a condition. -/
theorem Run.induct {redis : Redis Name Batch} {τ : List (Event J Name Batch)}
    {P : List (Event J Name Batch) → Prop}
    {I : List (Event J Name Batch) → Traffic J Name Batch → Prop}
    (prefixes : ∀ {τ evs}, P (τ ++ evs) → P τ) (first : I [] (start redis))
    (step : ∀ {τ S evs S'}, P (τ ++ evs) → I τ S → Step alloc S evs S' → I (τ ++ evs) S')
    (run : Run lower alloc redis τ S) (holds : P τ) : I τ S :=
  Machine.Run.guarded prefixes first (fun _ holds inv taken => step holds inv (steps taken)) run holds

theorem setThread_cases {j j' : J} {thread thread' : Thread Name Batch}
    (there : (S.setThread j thread).threads j' = some thread') :
    (j' = j ∧ thread' = thread) ∨ (j' ≠ j ∧ S.threads j' = some thread') := by
  unfold setThread at there
  dsimp only at there
  by_cases same : j' = j
  · subst same
    rw [Function.update_self] at there
    exact Or.inl ⟨rfl, (Option.some.inj there).symm⟩
  · rw [Function.update_of_ne same] at there
    exact Or.inr ⟨same, there⟩

/-! ## The store after a few logins -/

/-- The store after the users have logged in, one after the other. -/
def loggedIn (users : List Name) : Redis Name Batch :=
  users.foldl (fun s user => ((initialize_ id user).run Cmd.exec s).2) Redis.empty

/-- No batch is stored, and every list is empty. -/
def Blank (s : Redis Name Batch) : Prop :=
  s.changes = ∅ ∧ ∀ user ids, s.userChanges.lookup user = some ids → ids = []

/-- A command of `/login`. -/
def IsLogin : Cmd Name Batch → Prop
  | .hlenUsers | .hkeysUsers | .hgetallUsers | .hgetUsers _ | .hsetUsers _ _ => True
  | .hsetUserChanges _ ids => ids = []
  | _ => False

theorem IsLogin.blank {c : Cmd Name Batch} (isLogin : IsLogin c) {s : Redis Name Batch} (blank : Blank s) :
    Blank (c.exec s).2 := by
  cases c with
  | hsetUserChanges author list =>
      obtain rfl : list = [] := isLogin
      refine ⟨blank.1, fun user ids found => ?_⟩
      by_cases same : user = author
      · subst same
        exact (Option.some.inj ((AList.lookup_insert _).symm.trans found)).symm
      · exact blank.2 user ids ((AList.lookup_insert_ne same).symm.trans found)
  | _ => first | exact blank | exact isLogin.elim

theorem index_isLogin (user : Name) : (UserOrder.index user : Handler Name Batch Int).Only IsLogin := by
  refine .call trivial fun keys => ?_
  change Prog.Only IsLogin (if user ∈ keys then _ else _)
  split
  · refine .call trivial fun position => ?_
    cases position with
    | none => exact .raise
    | some position => exact .ret _
  · exact .ret _

theorem initialize_isLogin (user : Name) :
    (initialize_ id user : Handler Name Batch (Option (Nat × Int))).Only IsLogin := by
  refine .bind (index_isLogin user) fun present => ?_
  split
  · refine .bind (.call trivial fun items => .call trivial fun _ => .op rfl) fun _ => ?_
    exact .bind (.op trivial) fun userCount => .bind (index_isLogin user) fun position => .ret _
  · exact .ret _

/-- Logging in leaves a blank store. -/
theorem loggedIn_blank (users : List Name) : Blank (loggedIn users : Redis Name Batch) := by
  have kept : ∀ (users : List Name) (s : Redis Name Batch), Blank s →
      Blank (users.foldl (fun s user => ((initialize_ id user).run Cmd.exec s).2) s) := by
    intro users
    induction users with
    | nil => exact fun s blank => blank
    | cons user rest ih =>
        exact fun s blank => ih _ ((initialize_isLogin user).run (fun _ _ isLogin => isLogin.blank) blank)
  exact kept users Redis.empty ⟨rfl, fun user ids found => by cases found⟩

end Traffic

end ColabEdit.Server
