/-
# ColabEdit.Server.Cursor -- when the cursor of a page skips no batch

A page moves its cursor to the greatest id of every reply it processes.  An id is
taken before its batch is stored, so a smaller id may become visible later.

`cursor_never_skips`: in a run in which every store and every heartbeat is
`Timely` a page has applied every batch of another user at or below its cursor.
A heartbeat is timely when each batch above its cursor was visible to it, or is
above everything it will fetch.

Pole: `late_batch_skipped` is a run in which the id 2 is stored and fetched
before the batch with the id 1 is stored.
-/
import ColabEdit.Server.Ledger

namespace ColabEdit.Server.Traffic

open ColabEdit.Browser ColabEdit.Theory

set_option autoImplicit false
set_option linter.unusedSectionVars false

section Timely

variable {J Name Batch : Type} [DecidableEq J] [DecidableEq Name]

/-! ## The condition -/

/-- The reading sees the id, or everything it fetches is below it. -/
def Reading.Covers (r : Reading Name) (id : Nat) : Prop :=
  (id ∈ r.keys ∧ id ∉ r.own) ∨ ∀ n ∈ r.ids, n < id

instance (r : Reading Name) (id : Nat) : Decidable (r.Covers id) :=
  inferInstanceAs (Decidable (_ ∨ _))

/-- A store is timely when its id is above everything that heartbeats of other
users go on to fetch; a heartbeat, when it reads its user's list, covers what
other users have stored above its cursor. -/
def Timely (past : List (Event J Name Batch)) (e : Event J Name Batch) : Prop :=
  (∀ s ∈ e.store, ∀ r ∈ readings past, r.user ≠ s.1 → ∀ n ∈ r.ids, n < s.2.1) ∧
    ∀ r ∈ e.reading past, ∀ s ∈ stores past, s.1 ≠ r.user → r.last < s.2.1 →
      r.Covers s.2.1

instance (past : List (Event J Name Batch)) : DecidablePred (Timely past) := fun e =>
  inferInstanceAs (Decidable ((∀ s ∈ e.store, _) ∧ ∀ r ∈ e.reading past, _))

variable {τ evs : List (Event J Name Batch)}

/-- In a timely trace readings and stores go together, whichever came first. -/
theorem covers_of_timely (timely : Machine.Each Timely [] τ) :
    ∀ r ∈ readings τ, ∀ s ∈ stores τ, s.1 ≠ r.user → r.last < s.2.1 →
      r.Covers s.2.1 := by
  induction τ using List.reverseRecOn with
  | nil => exact fun _ member => by cases member
  | append_singleton past e ih =>
      rw [Machine.each_append, List.nil_append] at timely
      obtain ⟨before, ⟨writes, reads⟩, -⟩ := timely
      intro r reading s stored other above
      simp only [readings_append, Machine.collect, List.append_nil, List.mem_append,
        Option.mem_toList] at reading
      rw [stores_append, List.mem_append] at stored
      rcases reading with old | new
      · rcases stored with stored | stored
        · exact ih before r old s stored other above
        · have now : s ∈ e.store := by simpa [stores] using stored
          exact Or.inr (writes s now r old (Ne.symm other))
      · rcases stored with stored | stored
        · exact reads r new s stored other above
        · -- no event is both
          exfalso
          have now : s ∈ e.store := by simpa [stores] using stored
          cases e with
          | pushRan j user c r => cases new
          | _ => cases now

end Timely

section Cursor

variable {J Name Batch : Type} [DecidableEq J] [DecidableEq Name] [Changes Batch]
  {lower : Name → Name} {τ evs : List (Event J Name Batch)} {S S' : Traffic J Name Batch} {j : J}
  {user : Name}

/-! ## The invariant -/

structure Followed (τ : List (Event J Name Batch)) (S : Traffic J Name Batch) : Prop where
  lasts : ∀ j user last rest, S.threads j = some (.beat user last rest) → last ≤ S.cursors user
  cursor : ∀ user, S.cursors user = -1 ∨
    ∃ r ∈ readings τ, r.user = user ∧ ∃ n ∈ r.ids, S.cursors user = (n : Nat)
  applied : ∀ s ∈ stores τ, ∀ user, s.1 ≠ user → (s.2.1 : Int) ≤ S.cursors user →
    Event.applied user s.2.1 s.2.2 ∈ τ

/-- A step that moves no cursor. -/
theorem Followed.still (followed : Followed τ S) {redis' : Redis Name Batch} {thread : Thread Name Batch}
    (beat : ∀ user last rest, thread = .beat user last rest → last ≤ S.cursors user)
    (timely : ∀ s ∈ stores evs, ∀ r ∈ readings τ, r.user ≠ s.1 → ∀ n ∈ r.ids, n < s.2.1) :
    Followed (τ ++ evs) (({ S with redis := redis' } : Traffic J Name Batch).setThread j thread) := by
  refine ⟨?_, ?_, ?_⟩
  · intro j' user last rest there
    rcases setThread_cases there with ⟨rfl, same⟩ | ⟨-, there⟩
    · exact beat user last rest same.symm
    · exact followed.lasts j' user last rest there
  · intro user
    refine (followed.cursor user).imp_right ?_
    rintro ⟨r, reading, is⟩
    exact ⟨r, mem_readings_append reading, is⟩
  · intro s stored user other le
    rw [stores_append, List.mem_append] at stored
    rcases stored with old | new
    · exact List.mem_append_left _ (followed.applied s old user other le)
    · exfalso
      rcases followed.cursor user with start | ⟨r, reading, rfl, n, fetched, is⟩
      · have : (s.2.1 : Int) ≤ -1 := start ▸ le
        omega
      · have below := timely s new r reading (Ne.symm other) n fetched
        have : (s.2.1 : Int) ≤ n := is ▸ le
        omega

/-- The page that processes a timely reply misses nothing below its new cursor. -/
theorem Followed.process (followed : Followed τ S) (ledger : Ledger τ S)
    (timely : Machine.Each Timely [] τ) {last : Int} {reply : HeartbeatReply Batch}
    (here : S.threads j = some (.beat user last (.ret reply))) :
    Followed (τ ++ reply.transactions.map fun t => .applied user t.1 t.2)
      ((S.advance user reply).setThread j .closed) := by
  obtain ⟨r, reading, rfl, rfl, ids, reads⟩ := ledger.answered here
  have moved : (S.advance r.user reply).cursors r.user = Client.advance (S.cursors r.user) r.ids := by
    simp [Traffic.advance, ids]
  have unmoved : ∀ user, user ≠ r.user → (S.advance r.user reply).cursors user = S.cursors user :=
    fun user ne => by simp [Traffic.advance, ne]
  have grows : ∀ user, S.cursors user ≤ (S.advance r.user reply).cursors user := fun user => by
    by_cases same : user = r.user
    · rw [same, moved]
      exact Client.le_advance _ _
    · rw [unmoved user same]
  refine ⟨?_, ?_, ?_⟩
  · intro j' user last rest there
    rcases setThread_cases there with ⟨-, same⟩ | ⟨-, there⟩
    · cases same
    · exact (followed.lasts j' user last rest there).trans (grows user)
  · intro user
    have before : (S.advance r.user reply).cursors user = -1 ∨
        ∃ r' ∈ readings τ, r'.user = user ∧
          ∃ n ∈ r'.ids, (S.advance r.user reply).cursors user = (n : Nat) := by
      by_cases same : user = r.user
      · subst same
        rw [moved]
        rcases Client.advance_mem (S.cursors r.user) r.ids with stays | ⟨n, fetched, is⟩
        · rw [stays]
          exact followed.cursor r.user
        · exact Or.inr ⟨r, reading, rfl, n, fetched, is⟩
      · rw [unmoved user same]
        exact followed.cursor user
    refine before.imp_right ?_
    rintro ⟨r', reading', is⟩
    exact ⟨r', mem_readings_append reading', is⟩
  · intro s stored user other le
    have old : s ∈ stores τ := by
      rw [stores_append, List.mem_append] at stored
      refine stored.resolve_right fun new => ?_
      obtain ⟨e, member, yields⟩ := List.mem_filterMap.1 new
      obtain ⟨t, -, rfl⟩ := List.mem_map.1 member
      cases yields
    by_cases before : (s.2.1 : Int) ≤ S.cursors user
    · exact List.mem_append_left _ (followed.applied s old user other before)
    · rw [setThread_cursors] at le
      have same : user = r.user := by
        by_contra ne
        rw [unmoved user ne] at le
        exact before le
      subst same
      rw [moved] at le
      have above : r.last < s.2.1 := by
        have := followed.lasts j _ _ _ here
        omega
      -- the cursor moved to an id the reply carries, which is not below `s`
      obtain ⟨n, fetched, is⟩ : ∃ n ∈ r.ids, (s.2.1 : Int) ≤ (n : Nat) := by
        rcases Client.advance_mem (S.cursors r.user) r.ids with stays | ⟨n, fetched, is⟩
        · exact absurd (stays ▸ le) before
        · exact ⟨n, fetched, is ▸ le⟩
      have carried : s.2.1 ∈ r.ids := by
        rcases covers_of_timely timely r reading s old other above with ⟨key, foreign⟩ | below
        · exact mem_newIds.2 ⟨key, above, foreign⟩
        · have := below n fetched
          omega
      rw [← ids] at carried
      obtain ⟨t, member, same⟩ := List.mem_map.1 carried
      have read := reads t member
      rw [same, ledger.found old, Option.some.injEq] at read
      refine List.mem_append_right _ (List.mem_map.2 ⟨t, member, ?_⟩)
      rw [same, read]

theorem Step.followed (step : Step (Prog.op Cmd.allocate) S evs S') (ledger : Ledger τ S)
    (timely : Machine.Each Timely [] (τ ++ evs)) (followed : Followed τ S) : Followed (τ ++ evs) S' := by
  obtain ⟨before, now⟩ := Machine.each_append.1 timely
  rw [List.nil_append] at now
  cases step with
  | push j user batch free =>
      exact followed.still (fun _ _ _ same => by cases same) (fun s stored => by cases stored)
  | beat j user free =>
      refine followed.still (fun user' last' rest' same => ?_) (fun s stored => by cases stored)
      cases same
      exact le_rfl
  | pushRun j user batch c k here =>
      refine followed.still (fun _ _ _ same => by cases same) (fun s stored => ?_)
      exact now.1.1 s (by simpa [stores] using stored)
  | beatRun j user last c k here =>
      refine followed.still (fun user' last' rest' same => ?_) (fun s stored => by cases stored)
      cases same
      exact followed.lasts j _ _ _ here
  | process j user last reply here => exact followed.process ledger before here

/-- **The cursor skips no batch** in a timely run: what another user has stored at
or below the cursor of a page, the page has applied. -/
theorem cursor_never_skips {redis : Redis Name Batch} (empty : redis.changes = ∅)
    (run : Traffic.Run lower (Prog.op Cmd.allocate) redis τ S)
    (distinct : ((allocated τ).map Prod.snd).Nodup) (timely : Machine.Each Timely [] τ) {author : Name}
    {id : Nat} {batch : Batch} (stored : (author, id, batch) ∈ stores τ) (other : author ≠ user)
    (le : (id : Int) ≤ S.cursors user) : Event.applied user id batch ∈ τ := by
  have both : Ledger τ S ∧ Followed τ S := by
    refine Run.induct
      (P := fun τ => ((allocated τ).map Prod.snd).Nodup ∧ Machine.Each Timely [] τ)
      (I := fun τ S => Ledger τ S ∧ Followed τ S) ?_ ?_ ?_ run ⟨distinct, timely⟩
    · exact fun both => ⟨distinct_of_append both.1, (Machine.each_append.1 both.2).1⟩
    · exact ⟨Ledger.start empty, by constructor <;> simp [Traffic.start, stores]⟩
    · rintro τ evs S S' ⟨distinct, timely⟩ ⟨ledger, followed⟩ step
      exact ⟨step.ledger (distinct_of_append distinct) ledger, step.followed ledger timely followed⟩
  exact both.2.applied _ stored user other le

end Cursor

/-! ## Poles -/

def Event.appliedId {J Name Batch : Type} : Event J Name Batch → Option (Name × Nat)
  | .applied user id _ => some (user, id)
  | _ => none

/-- The users 0 and 1 push, and the ids 1 and 2 are handed out. -/
def bothAllocate : List (Action Nat Nat (Batch ℚ)) :=
  [.push 0 0 (AList.singleton (1 / 2) 97), .push 1 1 (AList.singleton (1 / 3) 98)] ++
    List.replicate 8 (.run 0) ++ [.run 1, .run 0, .run 1]

/-- The user 2 sends a heartbeat, and its page processes the reply. -/
def beatTwo (commands : Nat) : List (Action Nat Nat (Batch ℚ)) :=
  [.beat 2 2] ++ List.replicate commands (.run 2) ++ [.process 2]

/-- The batch with the id 2 is stored and fetched before the one with the id 1 is
stored. -/
theorem late_batch_skipped : ∃ (τ : List (Event Nat Nat (Batch ℚ))) (S : Traffic Nat Nat (Batch ℚ)),
    Traffic.Run id (Prog.op Cmd.allocate) (loggedIn [0, 1, 2]) τ S ∧
      ((allocated τ).map Prod.snd).Nodup ∧ (∃ s ∈ stores τ, s.1 = 0 ∧ s.2.1 = 1) ∧
      S.redis.changes.keys = [1, 2] ∧ S.cursors 2 = 2 ∧ ∀ e ∈ τ, e.appliedId ≠ some (2, 1) :=
  Machine.Run.of_replay (show ((machine id (Prog.op Cmd.allocate)).exec
      (bothAllocate ++ List.replicate 4 (.run 1) ++ beatTwo 6 ++ [.run 0])
      ([], start (loggedIn [0, 1, 2]))).any _ = true by
    decide +kernel)

/-- Both batches are stored before the heartbeat reads the keys. -/
theorem cursor_never_skips_two :
    ∃ (τ : List (Event Nat Nat (Batch ℚ))) (S : Traffic Nat Nat (Batch ℚ)) (batch : Batch ℚ),
      Traffic.Run id (Prog.op Cmd.allocate) (loggedIn [0, 1, 2]) τ S ∧ (0, 1, batch) ∈ stores τ ∧
        S.cursors 2 = 2 ∧ Event.applied 2 1 batch ∈ τ := by
  obtain ⟨τ, S, run, distinct, timely, ⟨⟨author, i, batch⟩, stored, rfl, rfl⟩, cursor⟩ :
      ∃ (τ : List (Event Nat Nat (Batch ℚ))) (S : Traffic Nat Nat (Batch ℚ)),
        Traffic.Run id (Prog.op Cmd.allocate) (loggedIn [0, 1, 2]) τ S ∧
          ((allocated τ).map Prod.snd).Nodup ∧ Machine.Each Timely [] τ ∧
          (∃ s ∈ stores τ, s.1 = 0 ∧ s.2.1 = 1) ∧ S.cursors 2 = 2 :=
    Machine.Run.of_replay (show ((machine id (Prog.op Cmd.allocate)).exec
        (bothAllocate ++ [.run 0] ++ List.replicate 4 (.run 1) ++ beatTwo 7)
        ([], start (loggedIn [0, 1, 2]))).any _ = true by
      decide +kernel)
  exact ⟨τ, S, batch, run, stored, cursor,
    cursor_never_skips rfl run distinct timely stored (by decide) (by rw [cursor]; decide)⟩

end ColabEdit.Server.Traffic
