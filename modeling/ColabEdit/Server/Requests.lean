/-
# ColabEdit.Server.Requests -- requests handled one at a time

The four handlers that pages call, each run from its first command to its answer
before the next request is looked at, from the empty store.

`log_exact`: while pushes and heartbeats come from accepted names and fewer than
`2 ^ 53` pushes were answered, the ids answered are 1, 2, 3, ... in order,
`changes` maps exactly these ids to the batches as pushed, the comma-separated
lists partition the ids by their user, and a heartbeat answers exactly the
batches of the others above its cursor.  One invariant (`Exact`) ties the three
keys to the trace.
-/
import ColabEdit.Server.Handlers
import ColabEdit.Theory.SortedList
import ColabEdit.Theory.Transition

namespace ColabEdit.Server

open ColabEdit.Theory

set_option autoImplicit false
set_option linter.unusedSectionVars false

inductive Request (Name Batch : Type) where
  | login (username : Name)
  | sendChanges (username : Name) (batch : Batch)
  | heartbeat (username : Name) (last : Int)
  | deinitializeCall (username : Name)

namespace Requests

/-- A request with its answer; `none` is an exception, status 500. -/
inductive Event (Name Batch : Type) where
  | login (username : Name) (answer : Option (Option (Nat × Int)))
  | sendChanges (username : Name) (batch : Batch) (answer : Option Nat)
  | heartbeat (username : Name) (last : Int) (answer : Option (HeartbeatReply Batch))
  | deinitializeCall (username : Name) (answer : Option Unit)

variable {Name Batch : Type} [DecidableEq Name] [Changes Batch] (lower : Name → Name) (empty : Name)

def step (s : Redis Name Batch) :
    Request Name Batch → Option (Redis Name Batch × List (Event Name Batch))
  | .login username =>
      let r := (initialize_ lower username).run Cmd.exec s
      some (r.2, [.login username r.1])
  | .sendChanges username batch =>
      let r := (insertText lower UserOrder.getChangeId username batch).run Cmd.exec s
      some (r.2, [.sendChanges username batch r.1])
  | .heartbeat username last =>
      let r := (Server.heartbeat lower username last).run Cmd.exec s
      some (r.2, [.heartbeat username last r.1])
  | .deinitializeCall username =>
      let r := (Server.deinitialize_ empty username).run Cmd.exec s
      some (r.2, [.deinitializeCall username r.1])

def machine : Machine (Redis Name Batch) (Request Name Batch) (Event Name Batch) := ⟨step lower empty⟩

/-- A run from the empty store. -/
abbrev Run (τ : List (Event Name Batch)) (s : Redis Name Batch) : Prop :=
  (machine lower empty).Run Redis.empty τ s

/-! ## What the trace says -/

/-- A login under this name, in any letter case, was accepted. -/
def Accepted (τ : List (Event Name Batch)) (username : Name) : Prop :=
  ∃ username' reply, .login username' (some (some reply)) ∈ τ ∧ lower username' = lower username

/-- Pushes and heartbeats come from accepted names. -/
def Allowed (past : List (Event Name Batch)) : Event Name Batch → Prop
  | .sendChanges username _ _ => Accepted lower past username
  | .heartbeat username _ _ => Accepted lower past username
  | _ => True

/-- An answered push. -/
structure Push (Name Batch : Type) where
  user : Name
  batch : Batch
  id : Nat

def pushed : Event Name Batch → Option (Push Name Batch)
  | .sendChanges username batch (some id) => some ⟨lower username, batch, id⟩
  | _ => none

/-- The answered pushes, in order. -/
def pushes (τ : List (Event Name Batch)) : List (Push Name Batch) := τ.filterMap (pushed lower)

def idsOf (τ : List (Event Name Batch)) (user : Name) : List Nat :=
  ((pushes lower τ).filter fun p => p.user = user).map Push.id

/-- What the claim of an exact log is about. -/
structure LogExact (τ : List (Event Name Batch)) (s : Redis Name Batch) : Prop where
  numbered : (pushes lower τ).map Push.id = List.range' 1 (pushes lower τ).length
  changes : ∀ i batch, s.changes.lookup i = some batch ↔
    ∃ p ∈ pushes lower τ, p.id = i ∧ p.batch = batch
  own : ∀ user ids, s.userChanges.lookup user = some ids →
    ownIds ids = some (idsOf lower τ user) ∧ (idsOf lower τ user).Pairwise (· < ·)
  partition : ∀ i, 1 ≤ i ∧ i ≤ (pushes lower τ).length ↔
    ∃! user, ∃ ids list, s.userChanges.lookup user = some ids ∧ ownIds ids = some list ∧ i ∈ list
  /-- The next heartbeat of an accepted name. -/
  heartbeat : ∀ username (last : Int), Accepted lower τ username →
    ∃ reply, (Server.heartbeat lower username last).run Cmd.exec s = (some reply, s) ∧
      reply.transactions =
        ((pushes lower τ).filter fun p => last < p.id ∧ p.user ≠ lower username).map
          fun p => (p.id, p.batch)
  /-- The next push of an accepted name. -/
  answers : ∀ username batch, Accepted lower τ username → .malformed ∉ Changes.edits batch →
    ((insertText lower UserOrder.getChangeId username batch).run Cmd.exec s).1 =
      some ((pushes lower τ).length + 1)

instance (τ : List (Event Name Batch)) (username : Name) : Decidable (Accepted lower τ username) :=
  decidable_of_iff ((τ.any fun
      | .login username' (some (some _)) => decide (lower username' = lower username)
      | _ => false) = true) (by
    rw [List.any_eq_true]
    constructor
    · rintro ⟨e, member, holds⟩
      split at holds
      · rename_i username' reply
        exact ⟨username', reply, member, of_decide_eq_true holds⟩
      · cases holds
    · rintro ⟨username', reply, member, same⟩
      exact ⟨_, member, decide_eq_true same⟩)

instance (past : List (Event Name Batch)) : (e : Event Name Batch) → Decidable (Allowed lower past e)
  | .sendChanges username _ _ => inferInstanceAs (Decidable (Accepted lower past username))
  | .heartbeat username _ _ => inferInstanceAs (Decidable (Accepted lower past username))
  | .login _ _ | .deinitializeCall _ _ => inferInstanceAs (Decidable True)

variable {lower} {empty} {τ evs : List (Event Name Batch)} {s s' : Redis Name Batch}

theorem pushes_append : pushes lower (τ ++ evs) = pushes lower τ ++ pushes lower evs :=
  List.filterMap_append

theorem pushes_quiet {e : Event Name Batch} (quiet : pushed lower e = none) :
    pushes lower (τ ++ [e]) = pushes lower τ := by
  rw [pushes_append]
  simp [pushes, quiet]

theorem Accepted.append {username : Name} (accepted : Accepted lower τ username) :
    Accepted lower (τ ++ evs) username := by
  obtain ⟨username', reply, member, same⟩ := accepted
  exact ⟨username', reply, List.mem_append_left _ member, same⟩

/-! ## The invariant -/

/-- The keys against the trace. -/
structure Exact (lower : Name → Name) (τ : List (Event Name Batch)) (s : Redis Name Batch) :
    Prop where
  numbered : (pushes lower τ).map Push.id = List.range' 1 (pushes lower τ).length
  counter : s.id.getD 0 = (pushes lower τ).length
  stored : ∀ i batch, s.changes.lookup i = some batch ↔
    ∃ p ∈ pushes lower τ, p.id = i ∧ p.batch = batch
  seated : ∀ username, Accepted lower τ username → lower username ∈ s.users.keys
  /-- A user has a list, and the list holds the user's ids. -/
  lists : ∀ user ∈ s.users.keys,
    ∃ ids, s.userChanges.lookup user = some ids ∧ ownIds ids = some (idsOf lower τ user)
  /-- Nobody else has one. -/
  strangers : ∀ user, user ∉ s.users.keys →
    s.userChanges.lookup user = none ∧ idsOf lower τ user = []

namespace Exact

theorem start : Exact lower ([] : List (Event Name Batch)) Redis.empty where
  numbered := rfl
  counter := rfl
  stored := fun i batch => ⟨nofun, fun ⟨_, member, _⟩ => nomatch member⟩
  seated := fun username ⟨_, _, member, _⟩ => by cases member
  lists := fun user member => by cases member
  strangers := fun user _ => ⟨rfl, rfl⟩

theorem user {username : Name} (exact_ : Exact lower τ s) (accepted : Accepted lower τ username) :
    (∃ position, s.users.lookup (lower username) = some position) ∧
      ∃ ids, s.userChanges.lookup (lower username) = some ids ∧
        ownIds ids = some (idsOf lower τ (lower username)) := by
  have member := exact_.seated username accepted
  exact ⟨Hash.exists_lookup member, exact_.lists _ member⟩

/-- A request that at most changes the document, and is no answered push or
accepted login. -/
theorem still (exact_ : Exact lower τ s) (d : DocStore) {e : Event Name Batch}
    (quiet : pushed lower e = none) (refused : ∀ username reply, e ≠ .login username (some (some reply))) :
    Exact lower (τ ++ [e]) { s with doc := d } := by
  have same : pushes lower (τ ++ [e]) = pushes lower τ := pushes_quiet quiet
  have ids : ∀ user, idsOf lower (τ ++ [e]) user = idsOf lower τ user := fun user => by
    rw [idsOf, same]
    rfl
  refine ⟨by rw [same]; exact exact_.numbered, by rw [same]; exact exact_.counter,
    by rw [same]; exact exact_.stored, ?_, ?_, ?_⟩
  · rintro username ⟨username', reply, member, eq⟩
    rcases List.mem_append.1 member with before | now
    · exact exact_.seated username ⟨username', reply, before, eq⟩
    · exact absurd (List.mem_singleton.1 now).symm (refused username' reply)
  · intro user member
    rw [ids]
    exact exact_.lists user member
  · intro user absent
    rw [ids]
    exact exact_.strangers user absent

/-- A new name gets an empty list. -/
theorem login (exact_ : Exact lower τ s) {username : Name} (absent : lower username ∉ s.users.keys)
    (answer : Option (Option (Nat × Int))) :
    Exact lower (τ ++ [.login username answer])
      { s with
        users := s.users.insert (lower username) s.users.keys.length
        userChanges := s.userChanges.insert (lower username) [] } := by
  have same : pushes lower (τ ++ [.login username answer]) = pushes lower τ := pushes_quiet rfl
  have ids : ∀ user, idsOf lower (τ ++ [.login username answer]) user = idsOf lower τ user :=
    fun user => by
      rw [idsOf, same]
      rfl
  have keys : ∀ user, user ∈ (s.users.insert (lower username) s.users.keys.length).keys ↔
      user = lower username ∨ user ∈ s.users.keys := fun _ => Hash.mem_keys_insert
  refine ⟨by rw [same]; exact exact_.numbered, by rw [same]; exact exact_.counter,
    by rw [same]; exact exact_.stored, ?_, ?_, ?_⟩
  · rintro username' ⟨username'', reply, member, eq⟩
    rw [keys]
    rcases List.mem_append.1 member with before | now
    · exact Or.inr (exact_.seated username' ⟨username'', reply, before, eq⟩)
    · cases List.mem_singleton.1 now
      exact Or.inl eq.symm
  · intro user member
    rw [ids]
    by_cases here : user = lower username
    · subst here
      exact ⟨[], AList.lookup_insert _, by rw [(exact_.strangers _ absent).2, ownIds_nil]⟩
    · obtain ⟨list, found, parsed⟩ := exact_.lists user (((keys user).1 member).resolve_left here)
      exact ⟨list, (AList.lookup_insert_ne here).trans found, parsed⟩
  · intro user outside
    rw [keys, not_or] at outside
    rw [ids]
    exact ⟨(AList.lookup_insert_ne outside.1).trans (exact_.strangers user outside.2).1,
      (exact_.strangers user outside.2).2⟩

/-- The next id is above all the others. -/
theorem fresh (exact_ : Exact lower τ s) {p : Push Name Batch} (member : p ∈ pushes lower τ) :
    1 ≤ p.id ∧ p.id ≤ (pushes lower τ).length := by
  have listed : p.id ∈ (pushes lower τ).map Push.id := List.mem_map_of_mem member
  rw [exact_.numbered, List.mem_range'_1] at listed
  omega

/-- A push stores its batch under the next id and appends the id to the list. -/
theorem push (exact_ : Exact lower τ s) {username : Name} {ids : List Char} (d : DocStore) (batch : Batch)
    (present : s.userChanges.lookup (lower username) = some ids)
    (parsed : ownIds ids = some (idsOf lower τ (lower username))) :
    Exact lower (τ ++ [.sendChanges username batch (some ((pushes lower τ).length + 1))])
      { s with
        id := some ((pushes lower τ).length + 1)
        changes := s.changes.insert ((pushes lower τ).length + 1) batch
        userChanges := s.userChanges.insert (lower username)
          (recorded ids ((pushes lower τ).length + 1))
        doc := d } := by
  have grown : pushes lower (τ ++ [.sendChanges username batch (some ((pushes lower τ).length + 1))]) =
      pushes lower τ ++ [⟨lower username, batch, (pushes lower τ).length + 1⟩] := pushes_append
  have member_users : lower username ∈ s.users.keys := by
    by_contra absent
    rw [(exact_.strangers _ absent).1] at present
    cases present
  have own : ∀ user, idsOf lower (τ ++ [.sendChanges username batch (some ((pushes lower τ).length + 1))])
      user = idsOf lower τ user ++ if lower username = user then [(pushes lower τ).length + 1] else [] :=
    fun user => by
      rw [idsOf, grown, List.filter_append, List.map_append]
      by_cases same : lower username = user <;> simp [idsOf, same]
  refine ⟨?_, by rw [grown]; simp, fun i batch' => ?_, ?_, ?_, ?_⟩
  · rw [grown, List.map_append, List.length_append, List.length_singleton, exact_.numbered,
      ← List.range'_append_1]
    simp [Nat.add_comm]
  · rw [grown]
    by_cases here : i = (pushes lower τ).length + 1
    · subst here
      rw [AList.lookup_insert]
      constructor
      · rintro ⟨⟩
        exact ⟨_, List.mem_append_right _ (List.mem_singleton_self _), rfl, rfl⟩
      · rintro ⟨p, member, id_eq, rfl⟩
        rcases List.mem_append.1 member with before | now
        · have := (exact_.fresh before).2
          omega
        · rw [List.mem_singleton.1 now]
    · rw [AList.lookup_insert_ne here, exact_.stored]
      constructor
      · rintro ⟨p, member, same⟩
        exact ⟨p, List.mem_append_left _ member, same⟩
      · rintro ⟨p, member, id_eq, same⟩
        rcases List.mem_append.1 member with before | now
        · exact ⟨p, before, id_eq, same⟩
        · rw [List.mem_singleton.1 now] at id_eq
          exact absurd id_eq.symm here
  · rintro username' ⟨username'', reply, member, eq⟩
    rcases List.mem_append.1 member with before | now
    · exact exact_.seated username' ⟨username'', reply, before, eq⟩
    · cases List.mem_singleton.1 now
  · intro user member
    rw [own]
    by_cases here : lower username = user
    · subst here
      rw [if_pos rfl]
      exact ⟨_, AList.lookup_insert _, ownIds_recorded parsed _⟩
    · rw [if_neg here, List.append_nil]
      obtain ⟨list, found, same⟩ := exact_.lists user member
      exact ⟨list, (AList.lookup_insert_ne (Ne.symm here)).trans found, same⟩
  · intro user absent
    have other : lower username ≠ user := fun same => absent (same ▸ member_users)
    rw [own, if_neg other, List.append_nil]
    exact ⟨(AList.lookup_insert_ne other.symm).trans (exact_.strangers user absent).1,
      (exact_.strangers user absent).2⟩

end Exact

/-- What a push of an accepted name does. -/
theorem Exact.sendChanges {username : Name} (exact_ : Exact lower τ s)
    (accepted : Accepted lower τ username) (few : (pushes lower τ).length < 2 ^ 53) (batch : Batch) :
    let r := (insertText lower UserOrder.getChangeId username batch).run Cmd.exec s
    Exact lower (τ ++ [.sendChanges username batch r.1]) r.2 ∧
      (.malformed ∉ Changes.edits batch → r.1 = some ((pushes lower τ).length + 1)) := by
  obtain ⟨-, ids, present, parsed⟩ := exact_.user accepted
  have reads : intValue s.id = (pushes lower τ).length := by
    rw [intValue, exact_.counter]
    exact floatInt_of_le (by omega)
  have again : intValue (some ((pushes lower τ).length + 1)) = (pushes lower τ).length + 1 :=
    floatInt_of_le (show (pushes lower τ).length + 1 ≤ 2 ^ 53 by omega)
  obtain ⟨d, ran | ⟨malformed, ran⟩⟩ := insertText_cases lower batch present
  · rw [ran, afterPush, reads, again]
    exact ⟨exact_.push d batch present parsed, fun _ => rfl⟩
  · rw [ran]
    exact ⟨exact_.still d rfl fun _ _ same => (nomatch same), fun wellFormed => absurd malformed wellFormed⟩

theorem Exact.step {r : Request Name Batch} (exact_ : Exact lower τ s)
    (few : (pushes lower τ).length < 2 ^ 53) (taken : Requests.step lower empty s r = some (s', evs))
    (allowed : ∀ e ∈ evs, Allowed lower τ e) : Exact lower (τ ++ evs) s' := by
  cases r with
  | login username =>
      cases taken
      rcases initialize_cases lower s username with ⟨-, ran⟩ | ⟨absent, ran⟩
      · rw [ran]
        exact exact_.still s.doc rfl fun _ _ same => nomatch same
      · rw [ran]
        exact exact_.login absent _
  | sendChanges username batch =>
      cases taken
      exact (exact_.sendChanges (allowed _ (List.mem_singleton_self _)) few batch).1
  | heartbeat username last =>
      cases taken
      obtain ⟨⟨position, user⟩, ids, present, parsed⟩ :=
        exact_.user (allowed _ (List.mem_singleton_self _))
      obtain ⟨transactions, ran, -⟩ := heartbeat_run lower last user present parsed
      rw [ran]
      exact exact_.still s.doc rfl fun _ _ same => nomatch same
  | deinitializeCall username =>
      cases taken
      rw [deinitialize_run]
      exact exact_.still s.doc rfl fun _ _ same => nomatch same

theorem pushes_length_le : (pushes lower τ).length ≤ (pushes lower (τ ++ evs)).length := by
  rw [pushes_append, List.length_append]
  omega

theorem exact_of_run (run : Run lower empty τ s) (allowed : Machine.Each (Allowed lower) [] τ)
    (few : (pushes lower τ).length < 2 ^ 53) : Exact lower τ s := by
  refine Machine.Run.guarded (C := fun τ => Machine.Each (Allowed lower) [] τ ∧
    (pushes lower τ).length < 2 ^ 53) ?_ Exact.start ?_ run ⟨allowed, few⟩
  · rintro τ evs ⟨allowed, few⟩
    exact ⟨(Machine.each_append.1 allowed).1, pushes_length_le.trans_lt few⟩
  · rintro τ s r s' evs - ⟨allowed, few⟩ exact_ taken
    refine exact_.step (pushes_length_le.trans_lt few) taken fun e member => ?_
    -- a request is one event, which is judged by what came before it
    have now := (Machine.each_append.1 allowed).2
    cases r <;> cases taken <;> cases List.mem_singleton.1 member <;> exact now.1

/-! ## What the invariant says -/

namespace Exact

theorem ascending (exact_ : Exact lower τ s) :
    (pushes lower τ).Pairwise fun p q => p.id < q.id := by
  rw [← List.pairwise_map, exact_.numbered]
  exact List.pairwise_lt_range'

theorem own (exact_ : Exact lower τ s) {user : Name} {ids : List Char}
    (found : s.userChanges.lookup user = some ids) :
    ownIds ids = some (idsOf lower τ user) ∧ (idsOf lower τ user).Pairwise (· < ·) := by
  constructor
  · by_cases member : user ∈ s.users.keys
    · obtain ⟨ids', found', parsed⟩ := exact_.lists user member
      cases found.symm.trans found'
      exact parsed
    · rw [(exact_.strangers user member).1] at found
      cases found
  · exact List.pairwise_map.2 (exact_.ascending.filter _)

theorem mem_idsOf {user : Name} {i : Nat} :
    i ∈ idsOf lower τ user ↔ ∃ p ∈ pushes lower τ, p.id = i ∧ p.user = user := by
  simp only [idsOf, List.mem_map, List.mem_filter, decide_eq_true_eq]
  constructor
  · rintro ⟨p, ⟨member, same⟩, rfl⟩
    exact ⟨p, member, rfl, same⟩
  · rintro ⟨p, member, rfl, same⟩
    exact ⟨p, ⟨member, same⟩, rfl⟩

/-- Pushes with one id are one push. -/
theorem unique (exact_ : Exact lower τ s) {p q : Push Name Batch} (left : p ∈ pushes lower τ)
    (right : q ∈ pushes lower τ) (same : p.id = q.id) : p = q := by
  have nodup : ((pushes lower τ).map Push.id).Nodup := by
    rw [exact_.numbered]
    exact List.nodup_range'
  exact List.inj_on_of_nodup_map nodup left right same

theorem partition (exact_ : Exact lower τ s) (i : Nat) :
    1 ≤ i ∧ i ≤ (pushes lower τ).length ↔
      ∃! user, ∃ ids list, s.userChanges.lookup user = some ids ∧ ownIds ids = some list ∧ i ∈ list := by
  constructor
  · rintro ⟨positive, bound⟩
    have listed : i ∈ (pushes lower τ).map Push.id := by
      rw [exact_.numbered, List.mem_range'_1]
      omega
    obtain ⟨p, member, rfl⟩ := List.mem_map.1 listed
    have here : p.id ∈ idsOf lower τ p.user := mem_idsOf.2 ⟨p, member, rfl, rfl⟩
    have seated : p.user ∈ s.users.keys := by
      by_contra absent
      rw [(exact_.strangers _ absent).2] at here
      cases here
    obtain ⟨ids, found, parsed⟩ := exact_.lists _ seated
    refine ⟨p.user, ⟨ids, _, found, parsed, here⟩, ?_⟩
    rintro user ⟨ids', list, found', parsed', inList⟩
    cases parsed'.symm.trans (exact_.own found').1
    obtain ⟨q, member', id_eq, rfl⟩ := mem_idsOf.1 inList
    rw [exact_.unique member' member id_eq]
  · rintro ⟨user, ⟨ids, list, found, parsed, inList⟩, -⟩
    cases parsed.symm.trans (exact_.own found).1
    obtain ⟨p, member, rfl, -⟩ := mem_idsOf.1 inList
    exact exact_.fresh member

/-- Pairs with the same ids that read the same store are the same. -/
theorem transactions_eq {f : Nat → Option Batch} {l l' : List (Nat × Batch)}
    (ids : l.map Prod.fst = l'.map Prod.fst) (reads : ∀ e ∈ l, f e.1 = some e.2)
    (reads' : ∀ e ∈ l', f e.1 = some e.2) : l = l' := by
  induction l generalizing l' with
  | nil => exact (List.map_eq_nil_iff.1 ids.symm).symm
  | cons e rest ih =>
      obtain ⟨e', rest', rfl, same, others⟩ := List.map_eq_cons_iff.1 ids.symm
      have first : e = e' := by
        refine Prod.ext same.symm (Option.some.inj ?_)
        rw [← reads e (by simp), ← reads' e' (by simp), same]
      rw [first, ih others.symm (fun d hd => reads d (by simp [hd])) fun d hd => reads' d (by simp [hd])]

theorem heartbeat (exact_ : Exact lower τ s) {username : Name} (accepted : Accepted lower τ username)
    (last : Int) :
    ∃ reply, (Server.heartbeat lower username last).run Cmd.exec s = (some reply, s) ∧
      reply.transactions =
        ((pushes lower τ).filter fun p => last < p.id ∧ p.user ≠ lower username).map
          fun p => (p.id, p.batch) := by
  obtain ⟨⟨position, user⟩, ids, present, parsed⟩ := exact_.user accepted
  obtain ⟨transactions, ran, firsts, reads⟩ := heartbeat_run lower last user present parsed
  refine ⟨_, ran, transactions_eq (f := fun i => s.changes.lookup i) ?_ reads ?_⟩
  · rw [firsts, List.map_map]
    refine SortedList.eq_of_mem_iff (newIds_sorted s.changes.nodupKeys)
      (List.pairwise_map.2 (exact_.ascending.filter _)) fun i => ?_
    rw [mem_newIds, ← AList.mem_keys, ← AList.lookup_isSome, mem_idsOf]
    simp only [List.mem_map, List.mem_filter, decide_eq_true_eq, Function.comp_apply]
    constructor
    · rintro ⟨stored, above, foreign⟩
      obtain ⟨batch, found⟩ := Option.isSome_iff_exists.1 stored
      obtain ⟨p, member, rfl, -⟩ := (exact_.stored i batch).1 found
      exact ⟨p, ⟨member, above, fun own => foreign ⟨p, member, rfl, own⟩⟩, rfl⟩
    · rintro ⟨p, ⟨member, above, foreign⟩, rfl⟩
      have found := (exact_.stored p.id p.batch).2 ⟨p, member, rfl, rfl⟩
      refine ⟨by rw [found]; rfl, above, ?_⟩
      rintro ⟨q, member', same, own⟩
      exact foreign (exact_.unique member' member same ▸ own)
  · intro e member
    obtain ⟨p, inList, rfl⟩ := List.mem_map.1 member
    exact (exact_.stored p.id p.batch).2 ⟨p, (List.mem_filter.1 inList).1, rfl, rfl⟩

end Exact

/-- **The log is exact** while requests are handled one at a time. -/
theorem log_exact (run : Run lower empty τ s) (allowed : Machine.Each (Allowed lower) [] τ)
    (few : (pushes lower τ).length < 2 ^ 53) : LogExact lower τ s := by
  have exact_ := exact_of_run run allowed few
  exact
    { numbered := exact_.numbered
      changes := exact_.stored
      own := fun _ _ found => exact_.own found
      partition := exact_.partition
      heartbeat := fun _ last accepted => exact_.heartbeat accepted last
      answers := fun _ batch accepted => (exact_.sendChanges accepted few batch).2 }

/-- `A` and `b` log in, `a` pushes twice and `b` once, and `b` asks for what is new. -/
theorem log_exact_two : ∃ (τ : List (Event Char (AList fun _ : ℕ => ℕ))) (s : Redis Char _),
    Run Char.toLower ' ' τ s ∧
      (pushes Char.toLower τ).map (fun p => (p.user, p.id)) = [('a', 1), ('b', 2), ('a', 3)] ∧
      LogExact Char.toLower τ s := by
  obtain ⟨τ, s, run, ids, allowed⟩ : ∃ (τ : List (Event Char (AList fun _ : ℕ => ℕ))) (s : Redis Char _),
      Run Char.toLower ' ' τ s ∧
        (pushes Char.toLower τ).map (fun p => (p.user, p.id)) = [('a', 1), ('b', 2), ('a', 3)] ∧
        Machine.Each (Allowed Char.toLower) [] τ :=
    Machine.Run.of_replay (show ((machine Char.toLower ' ').exec
      [.login 'A', .login 'b', .sendChanges 'a' (AList.singleton 5 97), .sendChanges 'B' ∅,
        .deinitializeCall 'A', .sendChanges 'A' (AList.singleton 5 0), .heartbeat 'b' 0]
      ([], Redis.empty)).any _ = true by decide +kernel)
  have three := congrArg List.length ids
  rw [List.length_map] at three
  exact ⟨τ, s, run, ids, log_exact run allowed (by rw [three]; decide)⟩

end Requests

end ColabEdit.Server
