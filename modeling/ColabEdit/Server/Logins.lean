/-
# ColabEdit.Server.Logins -- logins whose commands interleave

Any number of `/login` requests on one store.  The handler looks for the name,
counts the users, writes the name with the count as its position and reads both
back, each in a command of its own; `hot_redis.transaction()` groups nothing.

`logins_apart`: accepted names differ and, once everybody has an answer, the
positions are `0` to `count - 1`, exactly if every write of the table found its
name absent and as many users as its request had counted (`Orderly`).

Pole: `seat_taken_twice`, two logins that count the same users.
-/
import ColabEdit.Server.Handlers
import ColabEdit.Theory.Pool

namespace ColabEdit.Server

open ColabEdit.Theory

set_option autoImplicit false
set_option linter.unusedSectionVars false

variable {J Name Batch : Type} [DecidableEq J] [DecidableEq Name]

/-! ## The phases of a login -/

/-- How far a `/login` request has come. -/
inductive LoginPhase where
  | looking
  /-- The name is there; its position is read. -/
  | present
  | absent
  | counted (n : Nat)
  /-- The name is written, its empty list is not. -/
  | seated
  | listed
  | sized (n : Nat)
  | placing (n : Nat)
  | accepted (n : Nat) (position : Int)
  | refused
  | failed

namespace LoginPhase

variable (user : Name)

/-- The answer of an accepted login. -/
def answerWith (userCount : Nat) : Handler Name Batch (Option (Nat × Int)) := do
  let userPosition ← UserOrder.index user
  return some (userCount, userPosition)

/-- What follows the two writes. -/
def readBack : Handler Name Batch (Option (Nat × Int)) := do
  let userCount ← UserOrder.count
  answerWith user userCount

/-- What is left of the handler in a phase. -/
def prog : LoginPhase → Handler Name Batch (Option (Nat × Int))
  | looking => initialize_ id user
  | present => do
      let position : Nat ← Prog.call (.hgetUsers user) Prog.orRaise
      if (position : Int) = -1 then
        UserOrder.add id user
        readBack user
      else return none
  | absent => do
      UserOrder.add id user
      readBack user
  | counted n => do
      Prog.op (Cmd.hsetUsers user n)
      Prog.op (Cmd.hsetUserChanges user [])
      readBack user
  | seated => do
      Prog.op (Cmd.hsetUserChanges user [])
      readBack user
  | listed => readBack user
  | sized n => answerWith user n
  | placing n => do
      let position : Nat ← Prog.call (.hgetUsers user) Prog.orRaise
      return some (n, (position : Int))
  | accepted n position => .ret (some (n, position))
  | refused => .ret none
  | failed => .raise

/-- The name has been written. -/
def Written : LoginPhase → Prop
  | seated | listed | sized _ | placing _ | accepted _ _ => True
  | _ => False

/-- One command of a phase, its reply, and the phase after it. -/
inductive Next : LoginPhase → (c : Cmd Name Batch) → c.Reply → LoginPhase → Prop
  | found {keys : List Name} (member : user ∈ keys) : Next looking .hkeysUsers keys present
  | missing {keys : List Name} (outside : user ∉ keys) : Next looking .hkeysUsers keys absent
  | refuse (position : Nat) : Next present (.hgetUsers user) (some position) refused
  | gone : Next present (.hgetUsers user) none failed
  | count (items : List (Name × Nat)) : Next absent .hgetallUsers items (counted items.length)
  | write (n : Nat) : Next (counted n) (.hsetUsers user n) () seated
  | list : Next seated (.hsetUserChanges user []) () listed
  | size (n : Nat) : Next listed .hlenUsers n (sized n)
  | place {keys : List Name} (n : Nat) (member : user ∈ keys) : Next (sized n) .hkeysUsers keys (placing n)
  | lost {keys : List Name} (n : Nat) (outside : user ∉ keys) :
      Next (sized n) .hkeysUsers keys (accepted n (-1))
  | answer (n position : Nat) : Next (placing n) (.hgetUsers user) (some position) (accepted n position)
  | vanished (n : Nat) : Next (placing n) (.hgetUsers user) none failed

variable {user}

/-- `index` reads the keys, and the position of a name that is there. -/
theorem index_bind {α : Type} (f : Int → Handler Name Batch α) :
    UserOrder.index user >>= f = Prog.call .hkeysUsers fun keys =>
      if user ∈ (keys : List Name) then
        Prog.call (.hgetUsers user) Prog.orRaise >>= fun position : Nat => f position
      else f (-1) := by
  refine congrArg (Prog.call _) (funext fun keys => ?_)
  change (if user ∈ (keys : List Name) then
    (Prog.call (.hgetUsers user) Prog.orRaise >>= fun position : Nat => Prog.ret (position : Int))
      else Prog.ret (-1)) >>= f = _
  split
  · exact Prog.bind_assoc _ _ _
  · rfl

theorem looking_prog : (looking.prog user : Handler Name Batch _) = Prog.call .hkeysUsers fun keys =>
    if user ∈ (keys : List Name) then present.prog user else absent.prog user :=
  index_bind _

theorem sized_prog (n : Nat) :
    ((sized n).prog user : Handler Name Batch _) = Prog.call .hkeysUsers fun keys =>
      if user ∈ (keys : List Name) then (placing n).prog user else (accepted n (-1)).prog user :=
  index_bind _

/-- **The commands of `/login`.** -/
theorem next {phase : LoginPhase} {c : Cmd Name Batch}
    {k : c.Reply → Handler Name Batch (Option (Nat × Int))}
    (here : phase.prog user = .call c k) (r : c.Reply) :
    ∃ phase', Next user phase c r phase' ∧ k r = phase'.prog user := by
  cases phase with
  | looking =>
      rw [looking_prog] at here
      cases here
      by_cases member : user ∈ (r : List Name)
      · exact ⟨present, .found member, if_pos member⟩
      · exact ⟨absent, .missing member, if_neg member⟩
  | present =>
      cases here
      cases r with
      | none => exact ⟨failed, .gone, rfl⟩
      | some position =>
          have ne : ((position : Nat) : Int) ≠ -1 := by omega
          refine ⟨refused, .refuse position, ?_⟩
          show (if ((position : Nat) : Int) = -1 then UserOrder.add id user >>= fun _ => readBack user
            else Prog.ret none) = _
          exact if_neg ne
  | absent =>
      cases here
      exact ⟨_, .count r, rfl⟩
  | counted n =>
      cases here
      exact ⟨_, .write n, rfl⟩
  | seated =>
      cases here
      exact ⟨_, .list, rfl⟩
  | listed =>
      cases here
      exact ⟨_, .size r, rfl⟩
  | sized n =>
      rw [sized_prog] at here
      cases here
      by_cases member : user ∈ (r : List Name)
      · exact ⟨placing n, .place n member, if_pos member⟩
      · exact ⟨accepted n (-1), .lost n member, if_neg member⟩
  | placing n =>
      cases here
      cases r with
      | none => exact ⟨failed, .vanished n, rfl⟩
      | some position => exact ⟨_, .answer n position, rfl⟩
  | accepted n position => cases here
  | refused => cases here
  | failed => cases here

end LoginPhase

/-! ## Runs of logins -/

namespace Logins

variable (lower : Name → Name)

abbrev Event (J Name Batch : Type) := Pool.Event J Name (@Cmd.Reply Name Batch)

abbrev State (J Name Batch : Type) :=
  Pool J Name (Redis Name Batch) (@Cmd.Reply Name Batch) (Option (Nat × Int))

/-- A run of logins, labelled with the names as they were typed. -/
abbrev Run (redis : Redis Name Batch) (τ : List (Event J Name Batch)) (S : State J Name Batch) : Prop :=
  Pool.Run Cmd.exec (initialize_ lower) redis τ S

/-- The table after a command. -/
def write (users : Hash Name Nat) : Event J Name Batch → Hash Name Nat
  | .ran _ _ (.hsetUsers user position) _ => users.insert user position
  | _ => users

/-- The table after a trace. -/
def usersAfter (redis : Redis Name Batch) (τ : List (Event J Name Batch)) : Hash Name Nat :=
  τ.foldl write redis.users

/-- A write of the table finds its name absent and as many users as its request
had counted. -/
def Orderly (redis : Redis Name Batch) (past : List (Event J Name Batch)) : Event J Name Batch → Prop
  | .ran _ _ (.hsetUsers user position) _ =>
      user ∉ (usersAfter redis past).keys ∧ (usersAfter redis past).keys.length = position
  | _ => True

instance (redis : Redis Name Batch) (past : List (Event J Name Batch)) :
    (e : Event J Name Batch) → Decidable (Orderly redis past e)
  | .ran _ _ (.hsetUsers user position) _ =>
      inferInstanceAs (Decidable (user ∉ (usersAfter redis past).keys ∧
        (usersAfter redis past).keys.length = position))
  | .spawned _ _ => inferInstanceAs (Decidable True)
  | .ran _ _ .hlenUsers _ | .ran _ _ .hkeysUsers _ | .ran _ _ .hgetallUsers _ | .ran _ _ (.hgetUsers _) _
  | .ran _ _ .getId _ | .ran _ _ (.setId _) _ | .ran _ _ .hkeysChanges _ | .ran _ _ (.hgetChanges _) _
  | .ran _ _ (.hsetChanges _ _) _ | .ran _ _ (.hgetUserChanges _) _ | .ran _ _ (.hsetUserChanges _ _) _
  | .ran _ _ (.doc _) _ | .ran _ _ .allocate _ => inferInstanceAs (Decidable True)

/-- The positions are `0` to `count - 1`, each taken once. -/
structure Compact (users : Hash Name Nat) : Prop where
  distinct : ∀ user user' position, users.lookup user = some position →
    users.lookup user' = some position → user = user'
  range : ∀ position, (∃ user, users.lookup user = some position) ↔ position < users.keys.length

/-- The request was answered with a count and a position. -/
def Accepted (S : State J Name Batch) (j : J) (username : Name) : Prop :=
  ∃ reply, S.threads j = some (username, .ret (some reply))

/-- The name and the answer of a request that has one. -/
def answer (S : State J Name Batch) (j : J) : Option (Name × Option (Nat × Int)) :=
  match S.threads j with
  | some (username, .ret reply) => some (username, reply)
  | _ => none

/-- Accepted requests have different names, in any letter case. -/
def Apart (S : State J Name Batch) : Prop :=
  ∀ j j' username username', Accepted S j username → Accepted S j' username' →
    lower username = lower username' → j = j'

/-- The request has written this name. -/
def Wrote (τ : List (Event J Name Batch)) (j : J) (user : Name) : Prop :=
  ∃ username position r, .ran j username (.hsetUsers user position) r ∈ τ

/-- What a phase knows of the table it started from and of the table now. -/
def Knows (first now : Hash Name Nat) (user : Name) : LoginPhase → Prop
  | .looking | .refused => True
  | .present => user ∈ now.keys
  | .absent => user ∉ first.keys
  | .counted n => user ∉ first.keys ∧ n ≤ now.keys.length
  | .seated | .listed | .sized _ | .placing _ | .accepted _ _ => user ∈ now.keys
  | .failed => False

/-- What every run keeps. -/
structure Seats (redis : Redis Name Batch) (τ : List (Event J Name Batch)) (S : State J Name Batch) :
    Prop where
  table : S.store.users = usersAfter redis τ
  grown : ∀ user ∈ redis.users.keys, user ∈ S.store.users.keys
  phases : ∀ j username p, S.threads j = some (username, p) →
    ∃ phase : LoginPhase, p = phase.prog (lower username) ∧
      Knows redis.users S.store.users (lower username) phase ∧
      (phase.Written ↔ Wrote τ j (lower username))
  wrote : ∀ j user, Wrote τ j user → ∃ username p, S.threads j = some (username, p) ∧ lower username = user
  /-- Who is in the table was there before or was written by a request. -/
  writers : ∀ user ∈ S.store.users.keys, user ∈ redis.users.keys ∨ ∃ j, Wrote τ j user
  orderly : Machine.Each (Orderly redis) [] τ →
    Compact S.store.users ∧ ∀ j j' user, Wrote τ j user → Wrote τ j' user → j = j'
  /-- A name written twice, or a position taken twice, stays so. -/
  broken : ¬ Machine.Each (Orderly redis) [] τ →
    (∃ j j' user, Wrote τ j user ∧ Wrote τ j' user ∧ j ≠ j') ∨
      ∃ user user' position, S.store.users.lookup user = some position ∧
        S.store.users.lookup user' = some position ∧ user ≠ user'

variable {lower} {redis : Redis Name Batch} {τ : List (Event J Name Batch)} {S : State J Name Batch}

/-- The event writes no name. -/
def Still : Event J Name Batch → Prop
  | .ran _ _ (.hsetUsers _ _) _ => False
  | _ => True

theorem usersAfter_concat (e : Event J Name Batch) :
    usersAfter redis (τ ++ [e]) = write (usersAfter redis τ) e := List.foldl_append

theorem Still.write {e : Event J Name Batch} (still : Still e) (users : Hash Name Nat) :
    write users e = users := by
  cases e with
  | spawned j username => rfl
  | ran j username c r => cases c <;> first | rfl | exact still.elim

theorem Still.wrote {e : Event J Name Batch} (still : Still e) {j : J} {user : Name} :
    Wrote (τ ++ [e]) j user ↔ Wrote τ j user := by
  constructor
  · rintro ⟨username, position, r, member⟩
    rcases List.mem_append.1 member with before | now
    · exact ⟨username, position, r, before⟩
    · rw [← List.mem_singleton.1 now] at still
      exact still.elim
  · rintro ⟨username, position, r, before⟩
    exact ⟨username, position, r, List.mem_append_left _ before⟩

theorem Still.each {e : Event J Name Batch} (still : Still e) :
    Machine.Each (Orderly redis) [] (τ ++ [e]) ↔ Machine.Each (Orderly redis) [] τ := by
  rw [Machine.each_append]
  refine and_iff_left ⟨?_, trivial⟩
  cases e with
  | spawned j username => trivial
  | ran j username c r => cases c <;> trivial

namespace Seats

theorem start (compact : Compact redis.users) :
    Seats lower redis ([] : List (Event J Name Batch)) (Pool.start redis) where
  table := rfl
  grown := fun _ member => member
  phases := nofun
  wrote := fun _ _ ⟨_, _, _, member⟩ => nomatch member
  writers := fun _ member => Or.inl member
  orderly _ := ⟨compact, fun _ _ _ ⟨_, _, _, member⟩ => nomatch member⟩
  broken violated := absurd trivial violated

/-- A step that writes no name, and moves one thread to a phase that knows what it
must and has written exactly if it had before. -/
theorem still (seats : Seats lower redis τ S) {store : Redis Name Batch} {j : J} {username : Name}
    {e : Event J Name Batch} (phase : LoginPhase) (same : store.users = S.store.users) (quiet : Still e)
    (knows : Knows redis.users S.store.users (lower username) phase)
    (written : phase.Written ↔ Wrote τ j (lower username))
    (labelled : ∀ username' p, S.threads j = some (username', p) → username' = username) :
    Seats lower redis (τ ++ [e]) (S.setThread store j username (phase.prog (lower username))) := by
  refine ⟨?_, ?_, ?_, ?_, ?_, ?_, ?_⟩
  · rw [usersAfter_concat, quiet.write]
    exact same.trans seats.table
  · show ∀ user ∈ redis.users.keys, user ∈ store.users.keys
    rw [same]
    exact seats.grown
  · intro j' username' p there
    show ∃ phase : LoginPhase, p = phase.prog (lower username') ∧
      Knows redis.users store.users (lower username') phase ∧ _
    rw [same, quiet.wrote]
    rcases Pool.setThread_cases there with ⟨rfl, rfl, rfl⟩ | ⟨-, there⟩
    · exact ⟨phase, rfl, knows, written⟩
    · exact seats.phases j' username' p there
  · intro j' user wrote
    obtain ⟨username', p, there, eq⟩ := seats.wrote j' user (quiet.wrote.1 wrote)
    by_cases here : j' = j
    · subst here
      obtain rfl := labelled username' p there
      exact ⟨_, _, Pool.setThread_self .., eq⟩
    · exact ⟨username', p, (Pool.setThread_ne _ here _ _).trans there, eq⟩
  · show ∀ user ∈ store.users.keys, _
    rw [same]
    exact fun user member => (seats.writers user member).imp_right fun ⟨j, wrote⟩ => ⟨j, quiet.wrote.2 wrote⟩
  · rw [quiet.each]
    show _ → Compact store.users ∧ _
    rw [same]
    exact fun orderly => ⟨(seats.orderly orderly).1, fun j j' user first second =>
      (seats.orderly orderly).2 j j' user (quiet.wrote.1 first) (quiet.wrote.1 second)⟩
  · rw [quiet.each]
    show _ → _ ∨ ∃ user user' position, store.users.lookup user = some position ∧
      store.users.lookup user' = some position ∧ user ≠ user'
    rw [same]
    exact fun violated => (seats.broken violated).imp_left fun ⟨j, j', user, first, second, ne⟩ =>
      ⟨j, j', user, quiet.wrote.2 first, quiet.wrote.2 second, ne⟩

/-- A written name is in the table. -/
theorem mem_of_wrote (seats : Seats lower redis τ S) {j : J} {user : Name} (wrote : Wrote τ j user) :
    user ∈ S.store.users.keys := by
  obtain ⟨username, p, there, rfl⟩ := seats.wrote j user wrote
  obtain ⟨phase, -, knows, written⟩ := seats.phases j username p there
  have done := written.2 wrote
  cases phase <;> first | exact knows | exact done.elim

end Seats

theorem length_insert (users : Hash Name Nat) (user : Name) (position : Nat) :
    (users.insert user position).keys.length =
      if user ∈ users.keys then users.keys.length else users.keys.length + 1 := by
  rw [AList.keys_insert, List.length_cons]
  split
  · rename_i member
    have := List.length_pos_of_mem member
    rw [List.length_erase_of_mem member]
    omega
  · rename_i absent
    rw [List.erase_of_not_mem absent]

/-- A new name at the end keeps the positions compact. -/
theorem Compact.insert {users : Hash Name Nat} (compact : Compact users) {user : Name}
    (absent : user ∉ users.keys) : Compact (users.insert user users.keys.length) := by
  have unread : users.lookup user = none := AList.lookup_eq_none.2 (mt AList.mem_keys.1 absent)
  have below : ∀ user' position, users.lookup user' = some position → position < users.keys.length :=
    fun user' position found => (compact.range position).1 ⟨user', found⟩
  constructor
  · intro u u' position first second
    by_cases here : u = user
    · by_cases here' : u' = user
      · rw [here, here']
      · rw [here, AList.lookup_insert] at first
        rw [AList.lookup_insert_ne here'] at second
        cases first
        exact absurd (below _ _ second) (lt_irrefl _)
    · rw [AList.lookup_insert_ne here] at first
      by_cases here' : u' = user
      · rw [here', AList.lookup_insert] at second
        cases second
        exact absurd (below _ _ first) (lt_irrefl _)
      · rw [AList.lookup_insert_ne here'] at second
        exact compact.distinct u u' position first second
  · intro position
    rw [length_insert, if_neg absent]
    constructor
    · rintro ⟨u, found⟩
      by_cases here : u = user
      · rw [here, AList.lookup_insert] at found
        cases found
        omega
      · rw [AList.lookup_insert_ne here] at found
        have := below u position found
        omega
    · intro bound
      rcases (show position ≤ users.keys.length by omega).eq_or_lt with rfl | less
      · exact ⟨user, AList.lookup_insert _⟩
      · obtain ⟨u, found⟩ := (compact.range position).2 less
        have ne : u ≠ user := fun same => by
          rw [same, unread] at found
          cases found
        exact ⟨u, (AList.lookup_insert_ne ne).trans found⟩

/-- A new name changes no other position. -/
theorem lookup_insert_kept {users : Hash Name Nat} {user user' : Name} {position : Nat} (n : Nat)
    (absent : user ∉ users.keys) (found : users.lookup user' = some position) :
    (users.insert user n).lookup user' = some position := by
  refine (AList.lookup_insert_ne fun same => absent ?_).trans found
  exact same ▸ AList.mem_keys.1 (AList.lookup_isSome.1 (by rw [found]; rfl))

theorem wrote_write {j j' : J} {username user user' : Name} {n : Nat} {r : Unit} :
    Wrote (τ ++ [.ran j username (.hsetUsers user n) r]) j' user' ↔
      Wrote τ j' user' ∨ (j' = j ∧ user' = user) := by
  constructor
  · rintro ⟨username', position, r', member⟩
    rcases List.mem_append.1 member with before | now
    · exact Or.inl ⟨username', position, r', before⟩
    · cases List.mem_singleton.1 now
      exact Or.inr ⟨rfl, rfl⟩
  · rintro (⟨username', position, r', before⟩ | ⟨rfl, rfl⟩)
    · exact ⟨username', position, r', List.mem_append_left _ before⟩
    · exact ⟨username, n, r, List.mem_append_right _ (List.mem_singleton_self _)⟩

/-- What a request knows of the table stays true when another one writes. -/
theorem Knows.write {first now : Hash Name Nat} {user : Name} {phase : LoginPhase}
    (knows : Knows first now user phase) (user' : Name) (n : Nat) :
    Knows first (now.insert user' n) user phase := by
  have longer : now.keys.length ≤ (now.insert user' n).keys.length := by
    rw [length_insert]
    split <;> omega
  cases phase with
  | looking | refused => trivial
  | absent => exact knows
  | counted m => exact ⟨knows.1, knows.2.trans longer⟩
  | failed => exact knows
  | _ => exact Hash.mem_keys_insert.2 (Or.inr knows)

namespace Seats

/-- The write of the table. -/
theorem write (seats : Seats lower redis τ S) {j : J} {username : Name} {n : Nat}
    {p : Handler Name Batch (Option (Nat × Int))} (here : S.threads j = some (username, p))
    (unwritten : ¬ Wrote τ j (lower username)) (foreign : lower username ∉ redis.users.keys)
    (counted : n ≤ S.store.users.keys.length) (r : Unit) :
    Seats lower redis (τ ++ [.ran j username (.hsetUsers (lower username) n) r])
      (S.setThread { S.store with users := S.store.users.insert (lower username) n } j username
        (LoginPhase.seated.prog (lower username))) := by
  have condition : Machine.Each (Orderly redis) []
      (τ ++ [.ran j username (.hsetUsers (lower username) n) r]) ↔
      Machine.Each (Orderly redis) [] τ ∧
        lower username ∉ S.store.users.keys ∧ S.store.users.keys.length = n := by
    rw [Machine.each_append, seats.table]
    exact and_congr_right fun _ => and_iff_left trivial
  /- another request has written the name, if it is there -/
  have twice : lower username ∈ S.store.users.keys →
      ∃ j₁ j₂ user, Wrote (τ ++ [.ran j username (.hsetUsers (lower username) n) r]) j₁ user ∧
        Wrote (τ ++ [.ran j username (.hsetUsers (lower username) n) r]) j₂ user ∧ j₁ ≠ j₂ := by
    intro member
    obtain ⟨j', wrote⟩ := (seats.writers _ member).resolve_left foreign
    refine ⟨j, j', lower username, wrote_write.2 (Or.inr ⟨rfl, rfl⟩), wrote_write.2 (Or.inl wrote), ?_⟩
    rintro rfl
    exact unwritten wrote
  refine ⟨?_, ?_, ?_, ?_, ?_, ?_, ?_⟩
  · rw [usersAfter_concat, ← seats.table]
    rfl
  · exact fun user member => Hash.mem_keys_insert.2 (Or.inr (seats.grown user member))
  · intro j' username' p' there
    rcases Pool.setThread_cases there with ⟨rfl, rfl, rfl⟩ | ⟨ne, there⟩
    · exact ⟨.seated, rfl, Hash.mem_keys_insert.2 (Or.inl rfl),
        iff_of_true trivial (wrote_write.2 (Or.inr ⟨rfl, rfl⟩))⟩
    · obtain ⟨phase, is, knows, written⟩ := seats.phases j' username' p' there
      refine ⟨phase, is, knows.write _ _, written.trans ?_⟩
      rw [wrote_write]
      exact (or_iff_left fun now => ne now.1).symm
  · intro j' user wrote
    rcases wrote_write.1 wrote with before | ⟨rfl, rfl⟩
    · obtain ⟨username', p', there, eq⟩ := seats.wrote j' user before
      by_cases same : j' = j
      · subst same
        cases here.symm.trans there
        exact ⟨_, _, Pool.setThread_self .., eq⟩
      · exact ⟨username', p', (Pool.setThread_ne _ same _ _).trans there, eq⟩
    · exact ⟨_, _, Pool.setThread_self .., rfl⟩
  · intro user member
    rcases Hash.mem_keys_insert.1 member with rfl | before
    · exact Or.inr ⟨j, wrote_write.2 (Or.inr ⟨rfl, rfl⟩)⟩
    · exact (seats.writers user before).imp_right fun ⟨j', wrote⟩ => ⟨j', wrote_write.2 (Or.inl wrote)⟩
  · intro all
    obtain ⟨orderly, absent, rfl⟩ := condition.1 all
    obtain ⟨compact, single⟩ := seats.orderly orderly
    refine ⟨compact.insert absent, fun j₁ j₂ user first second => ?_⟩
    rcases wrote_write.1 first with before | ⟨rfl, rfl⟩ <;>
      rcases wrote_write.1 second with before' | ⟨rfl, eq⟩
    · exact single j₁ j₂ user before before'
    · exact absurd (seats.mem_of_wrote (eq ▸ before)) absent
    · exact absurd (seats.mem_of_wrote before') absent
    · rfl
  · intro violated
    show _ ∨ ∃ user user' position, (S.store.users.insert (lower username) n).lookup user = some position ∧
      (S.store.users.insert (lower username) n).lookup user' = some position ∧ user ≠ user'
    by_cases member : lower username ∈ S.store.users.keys
    · exact Or.inl (twice member)
    by_cases orderly : Machine.Each (Orderly redis) [] τ
    · -- the count is behind, so its position is taken
      have behind : n < S.store.users.keys.length :=
        lt_of_le_of_ne counted fun same => violated (condition.2 ⟨orderly, member, same.symm⟩)
      obtain ⟨user, found⟩ := ((seats.orderly orderly).1.range n).2 behind
      refine Or.inr ⟨user, lower username, n, lookup_insert_kept n member found, AList.lookup_insert _, ?_⟩
      rintro rfl
      exact member (AList.mem_keys.1 (AList.lookup_isSome.1 (by rw [found]; rfl)))
    · rcases seats.broken orderly with ⟨j₁, j₂, user, first, second, ne⟩ | ⟨user, user', position, found, found', ne⟩
      · exact Or.inl ⟨j₁, j₂, user, wrote_write.2 (Or.inl first), wrote_write.2 (Or.inl second), ne⟩
      · refine Or.inr ⟨user, user', position, ?_, ?_, ne⟩
        · exact lookup_insert_kept n member found
        · exact lookup_insert_kept n member found'

theorem step {evs : List (Event J Name Batch)} {S' : State J Name Batch} (seats : Seats lower redis τ S)
    (step : Pool.Step Cmd.exec (initialize_ lower) S evs S') : Seats lower redis (τ ++ evs) S' := by
  cases step with
  | spawn j username free =>
      refine seats.still .looking rfl (by trivial) trivial ?_ fun username' p there => ?_
      · refine iff_of_false id fun wrote => ?_
        obtain ⟨username', p, there, -⟩ := seats.wrote j _ wrote
        rw [free] at there
        cases there
      · rw [free] at there
        cases there
  | run j username c k here =>
      obtain ⟨phase, is, knows, written⟩ := seats.phases j username _ here
      obtain ⟨phase', moved, eq⟩ := LoginPhase.next is.symm (c.exec S.store).1
      have labelled : ∀ username' p, S.threads j = some (username', p) → username' = username :=
        fun username' p there => by
          cases here.symm.trans there
          rfl
      have reads : lower username ∈ S.store.users.keys → S.store.users.lookup (lower username) ≠ none :=
        fun member none => AList.lookup_eq_none.1 none (AList.mem_keys.2 member)
      rw [eq]
      generalize reply : (c.exec S.store).1 = r at moved ⊢
      cases moved with
      | found member =>
          cases reply
          exact seats.still .present rfl (by trivial) member written labelled
      | missing outside =>
          cases reply
          exact seats.still .absent rfl (by trivial) (fun member => outside (seats.grown _ member))
            written labelled
      | refuse position => exact seats.still .refused rfl (by trivial) trivial written labelled
      | gone => exact absurd reply (reads knows)
      | count items =>
          cases reply
          refine seats.still (.counted _) rfl (by trivial) ⟨knows, ?_⟩ written labelled
          simp [Cmd.exec, AList.keys, List.keys]
      | write n => exact seats.write here (fun wrote => written.2 wrote) knows.1 knows.2 _
      | list => exact seats.still .listed rfl (by trivial) knows written labelled
      | size n => exact seats.still (.sized n) rfl (by trivial) knows written labelled
      | place n member => exact seats.still (.placing n) rfl (by trivial) knows written labelled
      | lost n outside =>
          cases reply
          exact absurd knows outside
      | answer n position =>
          exact seats.still (.accepted n position) rfl (by trivial) knows written labelled
      | vanished n => exact absurd reply (reads knows)

/-- An accepted request has written its name. -/
theorem wrote_of_accepted (seats : Seats lower redis τ S) {j : J} {username : Name}
    (accepted : Accepted S j username) : Wrote τ j (lower username) := by
  obtain ⟨reply, there⟩ := accepted
  obtain ⟨phase, is, -, written⟩ := seats.phases j username _ there
  refine written.1 ?_
  cases phase with
  | accepted n position => trivial
  | looking => cases is.trans LoginPhase.looking_prog
  | sized n => cases is.trans (LoginPhase.sized_prog n)
  | _ => cases is

/-- A request that has written its name and has ended was accepted. -/
theorem accepted_of_wrote (seats : Seats lower redis τ S) (quiet : S.Quiet) {j : J} {user : Name}
    (wrote : Wrote τ j user) : ∃ username, Accepted S j username ∧ lower username = user := by
  obtain ⟨username, p, there, rfl⟩ := seats.wrote j user wrote
  obtain ⟨phase, is, -, written⟩ := seats.phases j username p there
  have ended := quiet j username p there
  have done := written.2 wrote
  rw [is] at ended there
  cases phase with
  | accepted n position => exact ⟨username, ⟨_, there⟩, rfl⟩
  | sized n =>
      rw [LoginPhase.sized_prog] at ended
      exact ended.elim
  | seated | listed | placing n => exact ended.elim
  | _ => exact done.elim

end Seats

theorem seats_of_run (compact : Compact redis.users) (run : Run lower redis τ S) : Seats lower redis τ S :=
  Pool.Run.induct (Seats.start compact) (fun seats step => seats.step step) run

/-- **Exactly when concurrent logins come apart.** -/
theorem logins_apart (compact : Compact redis.users) (run : Run lower redis τ S) :
    (Machine.Each (Orderly redis) [] τ → Apart lower S) ∧
      (S.Quiet → (Apart lower S ∧ Compact S.store.users ↔ Machine.Each (Orderly redis) [] τ)) := by
  have seats := seats_of_run compact run
  have apart : Machine.Each (Orderly redis) [] τ → Apart lower S := by
    intro orderly j j' username username' first second same
    exact (seats.orderly orderly).2 j j' _ (seats.wrote_of_accepted first)
      (same ▸ seats.wrote_of_accepted second)
  refine ⟨apart, fun quiet => ⟨?_, fun orderly => ⟨apart orderly, (seats.orderly orderly).1⟩⟩⟩
  rintro ⟨names, positions⟩
  by_contra violated
  rcases seats.broken violated with ⟨j, j', user, first, second, ne⟩ | ⟨user, user', position, found, found', ne⟩
  · obtain ⟨username, accepted, rfl⟩ := seats.accepted_of_wrote quiet first
    obtain ⟨username', accepted', same⟩ := seats.accepted_of_wrote quiet second
    exact ne (names j j' username username' accepted accepted' same.symm)
  · exact ne (positions.distinct user user' position found found')

theorem compact_empty : Compact (Redis.empty : Redis Name Batch).users where
  distinct := nofun
  range := fun _ => ⟨fun ⟨_, found⟩ => (nomatch found), nofun⟩

/-- The second login looks for its name once the first has written its own. -/
theorem logins_apart_two :
    ∃ (τ : List (Event Bool Char (AList fun _ : ℕ => ℕ))) (S : State Bool Char (AList fun _ : ℕ => ℕ)),
      Run Char.toLower Redis.empty τ S ∧ S.Quiet ∧ Apart Char.toLower S ∧ Compact S.store.users ∧
        S.store.users.keys.length = 2 := by
  obtain ⟨τ, S, run, quiet, orderly, two⟩ :
      ∃ (τ : List (Event Bool Char (AList fun _ : ℕ => ℕ))) (S : State Bool Char (AList fun _ : ℕ => ℕ)),
        Run Char.toLower Redis.empty τ S ∧ S.Quiet ∧
          Machine.Each (Orderly Redis.empty) [] τ ∧ S.store.users.keys.length = 2 :=
    Machine.Run.of_replay (show ((Pool.machine Cmd.exec (initialize_ Char.toLower)).exec
      ([.spawn false 'a', .spawn true 'B'] ++ List.replicate 4 (.run false) ++
        List.replicate 7 (.run true) ++ List.replicate 3 (.run false)) ([], Pool.start Redis.empty)).any _ =
          true by decide +kernel)
  obtain ⟨names, positions⟩ := ((logins_apart compact_empty run).2 quiet).2 orderly
  exact ⟨τ, S, run, quiet, names, positions, two⟩

/-! ## Pole -/

set_option synthInstance.maxSize 512 in
/-- Three logins count nobody before one of them writes: `a` and `A` are both
accepted, and `b` shares their position. -/
theorem seat_taken_twice :
    ∃ (τ : List (Event ℕ Char (AList fun _ : ℕ => ℕ))) (S : State ℕ Char (AList fun _ : ℕ => ℕ)),
      Run Char.toLower Redis.empty τ S ∧
        [0, 1, 2].map (answer S) =
          [some ('a', some (1, 0)), some ('A', some (1, 0)), some ('b', some (2, 0))] ∧
        S.store.users.keys.map S.store.users.lookup = [some 0, some 0] :=
  Machine.Run.of_replay (show ((Pool.machine Cmd.exec (initialize_ Char.toLower)).exec
    ([.spawn 0 'a', .spawn 1 'A', .spawn 2 'b'] ++ List.replicate 2 (.run 0) ++ List.replicate 2 (.run 1) ++
      List.replicate 2 (.run 2) ++ List.replicate 5 (.run 0) ++ List.replicate 5 (.run 1) ++
      List.replicate 5 (.run 2)) ([], Pool.start Redis.empty)).any _ = true by decide +kernel)

end Logins

end ColabEdit.Server
