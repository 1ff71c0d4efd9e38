/-
# ColabEdit.Server.Seats -- names and positions after logins and logouts

Requests one at a time, from the empty store.  `present` lists the lower-case
names that are logged in by what the server has answered: an accepted login
appends its name, and an answered `/deinitializeCall` takes its name out.

`Seated` says that the table `users` numbers exactly this list, in order and from
`0` on, and that every other name may log in.  `UserOrder.remove` raises before
it sends a command and `deinitialize` answers success on every exception, so the
table never loses a name: `seated_iff`, it agrees with the answers exactly as
long as every logout names somebody who is not logged in.

Pole: `logged_out_stays`, a login and its logout.
-/
import ColabEdit.Server.Phases
import ColabEdit.Server.Requests

namespace ColabEdit.Server.Requests

open ColabEdit.Theory

set_option autoImplicit false
set_option linter.unusedSectionVars false

variable {Name Batch : Type} [DecidableEq Name] [Changes Batch] (lower : Name → Name) {empty : Name}

/-- One answer more. -/
def seat (present : List Name) : Event Name Batch → List Name
  | .login username (some (some _)) => present ++ [lower username]
  | .deinitializeCall username (some ()) => present.filter (· ≠ lower username)
  | _ => present

/-- Who is logged in, by the answers, in the order of the logins. -/
def present (τ : List (Event Name Batch)) : List Name := τ.foldl (seat lower) []

/-- A logout names nobody who is logged in. -/
def LogsOutNobody (past : List (Event Name Batch)) : Event Name Batch → Prop
  | .deinitializeCall username (some ()) => lower username ∉ present lower past
  | _ => True

structure Seated (τ : List (Event Name Batch)) (s : Redis Name Batch) : Prop where
  /-- The positions are `0` to `count - 1`, in the order of the logins. -/
  seats : ∀ user position,
    s.users.lookup user = some position ↔ (present lower τ)[position]? = some user
  count : s.users.keys.length = (present lower τ).length
  /-- Everybody else may log in. -/
  free : ∀ username, lower username ∉ present lower τ →
    ∃ reply s', (initialize_ lower username).run Cmd.exec s = (some (some reply), s')

/-! ## What the other handlers leave alone -/

/-- The command does not write the table of users. -/
def KeepsUsers : Cmd Name Batch → Prop
  | .hsetUsers _ _ => False
  | _ => True

variable {lower} {τ evs : List (Event Name Batch)} {s s' : Redis Name Batch}

theorem KeepsUsers.exec {c : Cmd Name Batch} (keeps : KeepsUsers c) (s : Redis Name Batch) :
    (c.exec s).2.users = s.users := by
  cases c <;> first | rfl | exact keeps.elim

theorem KeepsUsers.run {α : Type} {p : Handler Name Batch α} (only : p.Only KeepsUsers)
    (s : Redis Name Batch) : (p.run Cmd.exec s).2.users = s.users :=
  only.same (fun _ t keeps => keeps.exec t) s

theorem insertText_keeps (username : Name) (batch : Batch) :
    (insertText lower UserOrder.getChangeId username batch).Only KeepsUsers := by
  have doc : ∀ c : Cmd Name Batch, IsDoc c → KeepsUsers c := fun c isDoc => by
    cases c <;> trivial
  have counter : (UserOrder.getChangeId : Handler Name Batch Nat).Only KeepsUsers :=
    .call trivial fun _ => .call trivial fun _ => .call trivial fun _ => .ret _
  refine .bind (PPS.init_only.imp doc) fun _ => .bind ((PPS.editAll_only _).imp doc) fun _ => ?_
  exact .bind counter fun i => .bind (.op trivial) fun _ => recordOwner_only lower trivial (fun _ => trivial) i

theorem heartbeat_keeps (username : Name) (last : Int) :
    (Server.heartbeat lower username last : Handler Name Batch _).Only KeepsUsers :=
  (heartbeat_only (lower username) last).imp fun c isRead => by
    cases c <;> trivial

/-! ## The invariant -/

theorem present_append : present lower (τ ++ evs) = evs.foldl (seat lower) (present lower τ) :=
  List.foldl_append

/-- What every run keeps. -/
structure Seating (lower : Name → Name) (τ : List (Event Name Batch)) (s : Redis Name Batch) :
    Prop where
  /-- Nobody is taken out of the table. -/
  kept : ∀ user ∈ present lower τ, user ∈ s.users.keys
  seated : Machine.Each (LogsOutNobody lower) [] τ →
    (∀ user position, s.users.lookup user = some position ↔
      (present lower τ)[position]? = some user) ∧
      s.users.keys.length = (present lower τ).length
  /-- A name that was logged out stays in the table and is refused from then on. -/
  stuck : ¬ Machine.Each (LogsOutNobody lower) [] τ →
    ∃ user ∈ s.users.keys, user ∉ present lower τ

namespace Seating

theorem start : Seating lower ([] : List (Event Name Batch)) Redis.empty where
  kept := nofun
  seated _ := ⟨fun _ _ => ⟨nofun, nofun⟩, rfl⟩
  stuck violated := absurd trivial violated

/-- A request that changes neither the table nor who is logged in. -/
theorem still (seating : Seating lower τ s) {e : Event Name Batch}
    (same : ∀ present, seat lower present e = present) (harmless : LogsOutNobody lower τ e)
    (users : s'.users = s.users) : Seating lower (τ ++ [e]) s' := by
  have unchanged : present lower (τ ++ [e]) = present lower τ := by
    rw [present_append]
    exact same _
  have condition : Machine.Each (LogsOutNobody lower) [] (τ ++ [e]) ↔
      Machine.Each (LogsOutNobody lower) [] τ := by
    rw [Machine.each_append]
    exact and_iff_left ⟨harmless, trivial⟩
  refine ⟨?_, ?_, ?_⟩
  · rw [unchanged, users]
    exact seating.kept
  · rw [condition, unchanged, users]
    exact seating.seated
  · rw [condition, unchanged, users]
    exact seating.stuck

/-- A new name is appended to both. -/
theorem login (seating : Seating lower τ s) {username : Name} (absent : lower username ∉ s.users.keys)
    (reply : Nat × Int) {lists : Hash Name (List Char)} :
    Seating lower (τ ++ [.login username (some (some reply))])
      { s with
        users := s.users.insert (lower username) s.users.keys.length
        userChanges := lists } := by
  have grown : present lower (τ ++ [.login username (some (some reply))]) =
      present lower τ ++ [lower username] := present_append
  have keys : ∀ user, user ∈ (s.users.insert (lower username) s.users.keys.length).keys ↔
      user = lower username ∨ user ∈ s.users.keys := fun _ => Hash.mem_keys_insert
  have condition : Machine.Each (LogsOutNobody lower) [] (τ ++ [.login username (some (some reply))]) ↔
      Machine.Each (LogsOutNobody lower) [] τ := by
    rw [Machine.each_append]
    exact and_iff_left ⟨trivial, trivial⟩
  have stranger : lower username ∉ present lower τ := fun member => absent (seating.kept _ member)
  refine ⟨fun user member => ?_, fun orderly => ?_, fun violated => ?_⟩
  · rw [grown, List.mem_append, List.mem_singleton] at member
    exact (keys user).2 (member.symm.imp id (seating.kept user))
  · obtain ⟨seats, count⟩ := seating.seated (condition.1 orderly)
    refine ⟨fun user position => ?_, ?_⟩
    · rw [grown]
      by_cases here : user = lower username
      · subst here
        rw [AList.lookup_insert, count, Option.some.injEq]
        constructor
        · rintro rfl
          simp
        · intro found
          by_contra other
          refine stranger (List.mem_of_getElem? (i := position) ?_)
          rw [List.getElem?_append] at found
          split at found
          · exact found
          · rename_i beyond
            rw [List.getElem?_eq_none (by simp only [List.length_singleton]; omega)] at found
            cases found
      · rw [AList.lookup_insert_ne here, seats]
        constructor
        · intro found
          rw [List.getElem?_append_left (List.getElem?_eq_some_iff.1 found).1]
          exact found
        · intro found
          rw [List.getElem?_append] at found
          split at found
          · exact found
          · exact absurd (List.mem_singleton.1 (List.mem_of_getElem? found)) here
    · rw [grown, AList.keys_insert, List.erase_of_not_mem absent, List.length_cons, count]
      simp
  · obtain ⟨user, member, missing⟩ := seating.stuck fun orderly => violated (condition.2 orderly)
    refine ⟨user, (keys user).2 (Or.inr member), ?_⟩
    rw [grown, List.mem_append, List.mem_singleton, not_or]
    exact ⟨missing, fun same => absent (same ▸ member)⟩

/-- A logout changes who is logged in, and not the table. -/
theorem logout (seating : Seating lower τ s) (username : Name) :
    Seating lower (τ ++ [.deinitializeCall username (some ())]) s := by
  have shrunk : present lower (τ ++ [.deinitializeCall username (some ())]) =
      (present lower τ).filter (· ≠ lower username) := present_append
  by_cases nobody : lower username ∉ present lower τ
  · have unchanged : (present lower τ).filter (· ≠ lower username) = present lower τ :=
      List.filter_eq_self.2 fun user member => by
        simpa using fun same : user = lower username => nobody (same ▸ member)
    have condition : Machine.Each (LogsOutNobody lower) [] (τ ++ [.deinitializeCall username (some ())]) ↔
        Machine.Each (LogsOutNobody lower) [] τ := by
      rw [Machine.each_append]
      exact and_iff_left ⟨nobody, trivial⟩
    refine ⟨?_, ?_, ?_⟩
    · rw [shrunk, unchanged]
      exact seating.kept
    · rw [condition, shrunk, unchanged]
      exact seating.seated
    · rw [condition, shrunk, unchanged]
      exact seating.stuck
  · refine ⟨fun user member => ?_, fun orderly => ?_, fun _ => ?_⟩
    · rw [shrunk] at member
      exact seating.kept user (List.mem_filter.1 member).1
    · exact absurd (Machine.each_append.1 orderly).2.1 nobody
    · refine ⟨lower username, seating.kept _ (not_not.1 nobody), ?_⟩
      rw [shrunk]
      simp

theorem step {r : Request Name Batch} (seating : Seating lower τ s)
    (taken : Requests.step lower empty s r = some (s', evs)) : Seating lower (τ ++ evs) s' := by
  cases r with
  | login username =>
      cases taken
      rcases initialize_cases lower s username with ⟨-, ran⟩ | ⟨absent, ran⟩
      · rw [ran]
        exact seating.still (fun _ => rfl) trivial rfl
      · rw [ran]
        exact seating.login absent _
  | sendChanges username batch =>
      cases taken
      exact seating.still (fun _ => rfl) trivial (KeepsUsers.run (insertText_keeps username batch) s)
  | heartbeat username last =>
      cases taken
      exact seating.still (fun _ => rfl) trivial (KeepsUsers.run (heartbeat_keeps username last) s)
  | deinitializeCall username =>
      cases taken
      rw [deinitialize_run]
      exact seating.logout username

end Seating

/-- **Exactly when the table agrees with the answers**: no logout has named a user
who was logged in. -/
theorem seated_iff (run : Run lower empty τ s) :
    Seated lower τ s ↔ Machine.Each (LogsOutNobody lower) [] τ := by
  have seating : Seating lower τ s :=
    run.invariant Seating.start fun _ seating taken => seating.step taken
  constructor
  · intro seated
    by_contra violated
    obtain ⟨user, member, missing⟩ := seating.stuck violated
    obtain ⟨position, found⟩ := Hash.exists_lookup member
    exact missing (List.mem_of_getElem? ((seated.seats user position).1 found))
  · intro orderly
    obtain ⟨seats, count⟩ := seating.seated orderly
    refine ⟨seats, count, fun username missing => ?_⟩
    have absent : lower username ∉ s.users.keys := fun member => by
      obtain ⟨position, found⟩ := Hash.exists_lookup member
      exact missing (List.mem_of_getElem? ((seats _ position).1 found))
    exact ⟨_, _, initialize_run lower absent⟩

/-- Two users log in, and somebody who never did logs out. -/
theorem seated_two : ∃ (τ : List (Event Char (AList fun _ : ℕ => ℕ))) (s : Redis Char _),
    Run Char.toLower ' ' τ s ∧ present Char.toLower τ = ['a', 'b'] ∧
      (Seated Char.toLower τ s ↔ Machine.Each (LogsOutNobody Char.toLower) [] τ) := by
  obtain ⟨τ, s, run, names⟩ : ∃ (τ : List (Event Char (AList fun _ : ℕ => ℕ))) (s : Redis Char _),
      Run Char.toLower ' ' τ s ∧ present Char.toLower τ = ['a', 'b'] :=
    Machine.Run.of_replay (show ((machine Char.toLower ' ').exec
      [.login 'A', .login 'b', .login 'B', .deinitializeCall 'c'] ([], Redis.empty)).any _ = true by
        decide +kernel)
  exact ⟨τ, s, run, names, seated_iff run⟩

/-! ## Pole -/

/-- `a` logs in and out and is told both times that it worked: the name is still
in the table, and the next login is refused. -/
theorem logged_out_stays : ∃ (τ : List (Event Char (AList fun _ : ℕ => ℕ))) (s : Redis Char _),
    Run Char.toLower ' ' τ s ∧ present Char.toLower τ = [] ∧ s.users.keys = ['a'] ∧
      ((initialize_ Char.toLower 'a').run Cmd.exec s).1 = some none :=
  Machine.Run.of_replay (show ((machine Char.toLower ' ').exec [.login 'a', .deinitializeCall 'a']
    ([], Redis.empty)).any _ = true by decide +kernel)

end ColabEdit.Server.Requests
