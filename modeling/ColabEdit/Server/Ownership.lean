/-
# ColabEdit.Server.Ownership -- when no author gets a batch back

`insertText` stores a batch and only then reads its user's list, tests it, reads it
again and writes it; a heartbeat takes the keys of `changes` and that list at
different moments.

`no_echo`: in a run whose list accesses are all `Orderly` no reply to a user
carries a batch that the user pushed.  A write is orderly when the list is still
what the request read; a heartbeat, when the batches of its user that it has seen
are all recorded.

Pole: `echo` is a run in which the heartbeat falls between the store and the
write of the list.
-/
import ColabEdit.Server.Ledger

namespace ColabEdit.Server.Traffic

open ColabEdit.Browser ColabEdit.Theory

set_option autoImplicit false
set_option linter.unusedSectionVars false

section Lists

variable {J Name Batch : Type} [DecidableEq J] [DecidableEq Name]

/-! ## The lists in the trace -/

/-- The list of a user as it was written last. -/
def listOf (τ : List (Event J Name Batch)) (user : Name) : List Char :=
  (((τ.filterMap Event.listWrite).filter fun w => w.1 = user).getLast?.map Prod.snd).getD []

/-- The id that a write of a list records: the one its request stored under. -/
def Event.recording (past : List (Event J Name Batch)) (e : Event J Name Batch) : Option (Name × Nat) :=
  e.listWrite.bind fun _ => e.request.bind fun j =>
    ((own past j).filterMap Event.store).head?.map fun s => (s.1, s.2.1)

def recordings (τ : List (Event J Name Batch)) : List (Name × Nat) := Machine.collect Event.recording [] τ

/-- The write finds the list as its request read it last, and empty if it was
empty at first. -/
def Current (past : List (Event J Name Batch)) (j : J) (user : Name) : Prop :=
  let reads := (own past j).filterMap Event.listRead
  reads.getLast? = some (listOf past user) ∧ (reads.head? = some [] → listOf past user = [])

instance (past : List (Event J Name Batch)) (j : J) (user : Name) : Decidable (Current past j user) :=
  inferInstanceAs (Decidable (_ ∧ (_ → _)))

/-- Every write of a list is current, and a heartbeat that reads its user's list
has seen no batch of the user above its cursor that is not recorded. -/
def Orderly (past : List (Event J Name Batch)) (e : Event J Name Batch) : Prop :=
  (∀ w ∈ e.listWrite, ∀ j ∈ e.request, Current past j w.1) ∧
    ∀ r ∈ e.reading past, ∀ s ∈ stores past, s.1 = r.user → s.2.1 ∈ r.keys → r.last < s.2.1 →
      (s.1, s.2.1) ∈ recordings past

instance (past : List (Event J Name Batch)) : DecidablePred (Orderly past) := fun e =>
  inferInstanceAs (Decidable ((∀ w ∈ e.listWrite, _) ∧ ∀ r ∈ e.reading past, _))

variable {τ evs : List (Event J Name Batch)} {j : J} {user : Name}

/-- Events that write no list. -/
theorem listOf_unwritten (unwritten : evs.filterMap Event.listWrite = []) :
    listOf (τ ++ evs) user = listOf τ user := by
  rw [listOf, listOf, List.filterMap_append, unwritten, List.append_nil]

theorem listOf_written (author : Name) (ids : List Char) :
    listOf (τ ++ [.pushRan j author (.hsetUserChanges author ids) ()]) user =
      if user = author then ids else listOf τ user := by
  rw [listOf, List.filterMap_append, List.filter_append]
  by_cases same : user = author
  · simp [Event.listWrite, same]
  · simp [Event.listWrite, Ne.symm same, same, listOf]

theorem recordings_append :
    recordings (τ ++ evs) = recordings τ ++ Machine.collect Event.recording τ evs := by
  rw [recordings, Machine.collect_append, List.nil_append]
  rfl

theorem recordings_unwritten (unwritten : evs.filterMap Event.listWrite = []) :
    recordings (τ ++ evs) = recordings τ := by
  have nothing : Machine.collect Event.recording τ evs = [] :=
    Machine.collect_eq_nil fun past e member => by
      rw [Event.recording, List.filterMap_eq_nil_iff.1 unwritten e member]
      rfl
  rw [recordings_append, nothing, List.append_nil]

end Lists

section Echo

variable {J Name Batch : Type} [DecidableEq J] [DecidableEq Name] [Changes Batch]
  {lower : Name → Name} {τ evs : List (Event J Name Batch)} {S S' : Traffic J Name Batch} {j : J}
  {user : Name} {batch : Batch} {last : Int} {c : Cmd Name Batch}

/-! ## The invariant -/

structure Owned (τ : List (Event J Name Batch)) (S : Traffic J Name Batch) : Prop where
  current : ∀ user ids, S.redis.userChanges.lookup user = some ids → ids = listOf τ user
  recorded : ∀ user, ∃ own, ownIds (listOf τ user) = some own ∧ ∀ i, (user, i) ∈ recordings τ → i ∈ own
  unechoed : ∀ r ∈ readings τ, ∀ s ∈ stores τ, s.1 = r.user → s.2.1 ∉ r.ids

/-- A step that writes no list. -/
theorem Owned.unwritten (owned : Owned τ S) (unwritten : evs.filterMap Event.listWrite = [])
    (lists : S'.redis.userChanges = S.redis.userChanges)
    (unechoed : ∀ r ∈ readings (τ ++ evs), ∀ s ∈ stores (τ ++ evs), s.1 = r.user → s.2.1 ∉ r.ids) :
    Owned (τ ++ evs) S' := by
  refine ⟨fun user ids found => ?_, fun user => ?_, unechoed⟩
  · rw [listOf_unwritten unwritten]
    exact owned.current user ids (lists ▸ found)
  · rw [listOf_unwritten unwritten, recordings_unwritten unwritten]
    exact owned.recorded user

/-- A write that is current keeps every recorded id and adds its own. -/
theorem Owned.write (owned : Owned τ S) (ledger : Ledger τ S) {ids : List Char}
    {k : Unit → Handler Name Batch Nat} {author : Name}
    (here : S.threads j = some (.push user batch (.call (.hsetUserChanges author ids) k)))
    (current : Current τ j author) {thread : Thread Name Batch} :
    Owned (τ ++ [.pushRan j user (.hsetUserChanges author ids) ()])
      (({ S with redis := ((Cmd.hsetUserChanges author ids).exec S.redis).2 } :
        Traffic J Name Batch).setThread j thread) := by
  obtain ⟨phase, is, knows⟩ := ledger.pushes j user batch _ here
  obtain ⟨phase', next, -⟩ := PushPhase.next rfl is.symm ()
  obtain ⟨i, first, second, rfl, stored, reads, rfl⟩ : ∃ i first second, author = user ∧
      (own τ j).filterMap Event.store = [(user, i, batch)] ∧
      (own τ j).filterMap Event.listRead = [first, second] ∧ ids = second ++ PushPhase.tail first i := by
    cases next with
    | edit r => exact knows.1.head.elim
    | begin r first => cases first
    | alloc r =>
        obtain ⟨i, is, -⟩ := knows
        cases is
    | write i list =>
        obtain ⟨first, second, stored, reads, is⟩ := knows
        exact ⟨i, first, second, rfl, stored, reads, is⟩
  obtain ⟨latest, empty⟩ := current
  simp only [reads, List.getLast?_cons_cons, List.getLast?_singleton, Option.some.injEq,
    List.head?_cons] at latest empty
  have written : Machine.collect Event.recording τ
      [.pushRan j author (.hsetUserChanges author (second ++ PushPhase.tail first i)) ()] =
        [(author, i)] := by
    simp only [Machine.collect, Event.recording, Event.listWrite, Event.request, Option.bind_some, stored,
      List.head?_cons, Option.map_some, Option.toList_some, List.append_nil]
  refine ⟨?_, ?_, ?_⟩
  · intro user ids found
    rw [listOf_written]
    by_cases same : user = author
    · subst same
      rw [if_pos rfl]
      exact Option.some.inj (found.symm.trans (AList.lookup_insert _))
    · rw [if_neg same]
      exact owned.current user ids ((AList.lookup_insert_ne same).symm.trans found)
  · intro user
    rw [listOf_written, recordings_append, written]
    obtain ⟨own, parsed, holds⟩ := owned.recorded user
    by_cases same : user = author
    · subst same
      rw [if_pos rfl, latest]
      refine ⟨own ++ [i], ?_, fun i' member => ?_⟩
      · unfold PushPhase.tail
        split
        · rename_i isEmpty
          rw [empty isEmpty] at parsed ⊢
          cases ownIds_nil.symm.trans parsed
          exact ownIds_str i
        · exact ownIds_comma parsed i
      · rcases List.mem_append.1 member with old | new
        · exact List.mem_append_left _ (holds i' old)
        · cases List.mem_singleton.1 new
          exact List.mem_append_right _ (List.mem_singleton.2 rfl)
    · rw [if_neg same]
      refine ⟨own, parsed, fun i' member => ?_⟩
      rcases List.mem_append.1 member with old | new
      · exact holds i' old
      · cases List.mem_singleton.1 new
        exact absurd rfl same
  · intro r reading s stored'
    rw [readings_append] at reading
    rw [stores_append] at stored'
    exact owned.unechoed r (by simpa [Machine.collect, Event.reading] using reading) s
      (by simpa [stores, Event.store] using stored')

/-- A command of a push that writes no list. -/
theorem Owned.push (owned : Owned τ S) (ledger : Ledger τ S)
    (distinct : ((allocated τ).map Prod.snd).Nodup) {k : c.Reply → Handler Name Batch Nat}
    (here : S.threads j = some (.push user batch (.call c k)))
    (unwritten : ∀ user ids, c ≠ .hsetUserChanges user ids) {thread : Thread Name Batch} :
    Owned (τ ++ [.pushRan j user c (c.exec S.redis).1])
      (({ S with redis := (c.exec S.redis).2 } : Traffic J Name Batch).setThread j thread) := by
  refine owned.unwritten ?_ ?_ ?_
  · cases c <;> first | rfl | exact absurd rfl (unwritten _ _)
  · cases c <;> first | rfl | exact absurd rfl (unwritten _ _)
  · intro r reading s stored author
    have old : r ∈ readings τ := by
      rw [readings_append] at reading
      simpa [Machine.collect, Event.reading] using reading
    rw [stores_append] at stored
    rcases List.mem_append.1 stored with before | now
    · exact owned.unechoed r old s before author
    · -- the id is new, and a reading has only seen ids in use
      intro fetched
      have key := ledger.seen r old s.2.1 (mem_newIds.1 fetched).1
      cases c with
      | hsetChanges i b =>
          cases List.mem_singleton.1 now
          exact (ledger.storing distinct here).1 key
      | _ => cases now

theorem Step.owned (step : Step (Prog.op Cmd.allocate) S evs S') (ledger : Ledger τ S)
    (distinct : ((allocated τ).map Prod.snd).Nodup) (orderly : Machine.Each Orderly τ evs)
    (owned : Owned τ S) : Owned (τ ++ evs) S' := by
  cases step with
  | push j user batch free => exact owned.unwritten rfl rfl (by simpa using owned.unechoed)
  | beat j user free => exact owned.unwritten rfl rfl (by simpa using owned.unechoed)
  | pushRun j user batch c k here =>
      by_cases write : ∃ author ids, c = .hsetUserChanges author ids
      · obtain ⟨author, ids, rfl⟩ := write
        exact owned.write ledger here (orderly.1.1 _ rfl j rfl)
      · exact owned.push ledger distinct here fun author ids is => write ⟨author, ids, is⟩
  | beatRun j user last c k here =>
      obtain ⟨phase, is, knows⟩ := ledger.beats j user last _ here
      obtain ⟨phase', next, -⟩ := BeatPhase.next is.symm (c.exec S.redis).1
      have reads := knows.reads next rfl
      rw [(knows.isRead next).exec]
      refine owned.unwritten rfl rfl ?_
      intro r reading s member author fetched
      have stored : s ∈ stores τ := by
        rw [stores_append] at member
        simpa [stores, Event.store] using member
      rw [readings_append] at reading
      rcases List.mem_append.1 reading with old | new
      · exact owned.unechoed r old s stored author fetched
      · have new : r ∈ Event.reading τ (.beatRan j user last c (c.exec S.redis).1) := by
          simpa [Machine.collect] using new
        obtain ⟨rfl, -, ids, found, parsed⟩ := reads r new
        obtain ⟨key, above, foreign⟩ := mem_newIds.1 fetched
        have recorded := orderly.1.2 r new s stored author key above
        obtain ⟨own, parsed', holds⟩ := owned.recorded r.user
        rw [← owned.current r.user ids found, parsed] at parsed'
        cases parsed'
        exact foreign (holds s.2.1 (author ▸ recorded))
  | process j user last reply here =>
      have nobody : ∀ e ∈ reply.transactions.map fun t => Event.applied (J := J) user t.1 t.2,
          e.listWrite = none ∧ e.store = none ∧ ∀ past, Event.reading past e = none := by
        intro e member
        obtain ⟨t, -, rfl⟩ := List.mem_map.1 member
        exact ⟨rfl, rfl, fun _ => rfl⟩
      refine owned.unwritten (List.filterMap_eq_nil_iff.2 fun e member => (nobody e member).1) rfl ?_
      rw [readings_append, Machine.collect_eq_nil fun past e member => (nobody e member).2.2 past,
        stores_append, stores, stores, List.filterMap_eq_nil_iff.2 fun e member => (nobody e member).2.1,
        List.append_nil, List.append_nil]
      exact owned.unechoed

/-- **No author gets a batch back** in an orderly run with ids below `2 ^ 53`. -/
theorem no_echo {redis : Redis Name Batch} (blank : Blank redis)
    (run : Traffic.Run lower (Prog.op Cmd.allocate) redis τ S)
    (small : ∀ a ∈ allocated τ, a.2 < 2 ^ 53) (orderly : Machine.Each Orderly [] τ)
    {reply : HeartbeatReply Batch} (replied : S.replied j = some (user, reply)) {t : Nat × Batch}
    (carried : t ∈ reply.transactions) : (user, t.1, batch) ∉ stores τ := by
  have all : Ledger τ S ∧ Numbered τ S ∧ Owned τ S := by
    refine Run.induct
      (P := fun τ => (∀ a ∈ allocated τ, a.2 < 2 ^ 53) ∧ Machine.Each Orderly [] τ)
      (I := fun τ S => Ledger τ S ∧ Numbered τ S ∧ Owned τ S) ?_ ?_ ?_ run ⟨small, orderly⟩
    · rintro τ evs ⟨small, orderly⟩
      refine ⟨fun a member => small a ?_, (Machine.each_append.1 orderly).1⟩
      rw [allocated_append]
      exact List.mem_append_left _ member
    · refine ⟨Ledger.start blank.1, by constructor <;> simp [allocated], blank.2, fun user => ?_, ?_⟩
      · exact ⟨[], ownIds_nil, fun i member => by cases member⟩
      · exact fun r reading => by cases reading
    · rintro τ evs S S' ⟨small, orderly⟩ ⟨ledger, numbered, owned⟩ step
      refine ⟨step.ledger numbered.distinct ledger, step.numbered ledger small numbered, ?_⟩
      exact step.owned ledger numbered.distinct (Machine.each_append.1 orderly).2 owned
  obtain ⟨ledger, -, owned⟩ := all
  obtain ⟨last, here⟩ := of_replied replied
  obtain ⟨r, reading, rfl, -, ids, -⟩ := ledger.answered here
  intro stored
  refine owned.unechoed r reading _ stored rfl ?_
  rw [← ids]
  exact (List.mem_map_of_mem carried : t.1 ∈ reply.transactions.map Prod.fst)

end Echo

/-! ## Poles -/

/-- A push of the user 0 up to the store of its batch. -/
def storeOne : List (Action Nat Nat (Batch ℚ)) :=
  [.push 0 0 (AList.singleton (1 / 2) 97)] ++ List.replicate 10 (.run 0)

/-- A heartbeat of the user 0 up to its reply. -/
def beatBack : List (Action Nat Nat (Batch ℚ)) := [.beat 2 0] ++ List.replicate 6 (.run 2)

set_option synthInstance.maxSize 512 in
/-- The heartbeat falls between the store and the write of the list. -/
theorem echo : ∃ (τ : List (Event Nat Nat (Batch ℚ))) (S : Traffic Nat Nat (Batch ℚ)),
    Traffic.Run id (Prog.op Cmd.allocate) (loggedIn [0, 1]) τ S ∧
      ((stores τ).map fun s => (s.1, s.2.1, s.2.2.pairs)) = [(0, 1, [(1 / 2, 97)])] ∧
      ((S.replied 2).map fun r => (r.1, r.2.transactions.map fun t => (t.1, t.2.pairs))) =
        some (0, [(1, [(1 / 2, 97)])]) :=
  Machine.Run.of_replay (show ((machine id (Prog.op Cmd.allocate)).exec (storeOne ++ beatBack)
      ([], start (loggedIn [0, 1]))).any _ = true by
    decide +kernel)

/-- The list is written before; the reply carries the batch of the user 1 only. -/
theorem no_echo_two :
    ∃ (τ : List (Event Nat Nat (Batch ℚ))) (S : Traffic Nat Nat (Batch ℚ))
      (reply : HeartbeatReply (Batch ℚ)) (t : Nat × Batch ℚ),
      Traffic.Run id (Prog.op Cmd.allocate) (loggedIn [0, 1]) τ S ∧ S.replied 2 = some (0, reply) ∧
        t ∈ reply.transactions ∧ ∀ batch, (0, t.1, batch) ∉ stores τ := by
  obtain ⟨τ, S, run, small, orderly, answered⟩ :
      ∃ (τ : List (Event Nat Nat (Batch ℚ))) (S : Traffic Nat Nat (Batch ℚ)),
        Traffic.Run id (Prog.op Cmd.allocate) (loggedIn [0, 1]) τ S ∧
          (∀ a ∈ allocated τ, a.2 < 2 ^ 53) ∧ Machine.Each Orderly [] τ ∧
          ((S.replied 2).any fun r => r.1 = 0 ∧ r.2.transactions ≠ []) = true :=
    Machine.Run.of_replay (show ((machine id (Prog.op Cmd.allocate)).exec
        (storeOne ++ [.push 1 1 (AList.singleton (1 / 3) 98)] ++ List.replicate 6 (.run 1) ++
          List.replicate 3 (.run 0) ++ beatBack) ([], start (loggedIn [0, 1]))).any _ = true by
      decide +kernel)
  obtain ⟨⟨user, reply⟩, replied, holds⟩ := (Option.any_eq_true _ _).1 answered
  obtain ⟨rfl, some⟩ := of_decide_eq_true holds
  obtain ⟨t, carried⟩ := List.exists_mem_of_ne_nil _ some
  exact ⟨τ, S, reply, t, run, replied, carried,
    fun batch => no_echo (loggedIn_blank _) run small orderly replied carried⟩

end ColabEdit.Server.Traffic
