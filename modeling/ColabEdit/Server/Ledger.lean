/-
# ColabEdit.Server.Ledger -- what the trace tells about requests and batches

The results about cursors and about echoes take the allocation of an id to be
atomic.  Then the trace determines what every request knows: `own τ j` are the
commands of the request `j`, and `Ledger` connects its phase to them and the
hash `changes` to the stores of the trace.

* `Step.ledger`: while no id is handed out twice a batch that was stored stays in
  `changes` under its id, and a heartbeat that has answered carries the batches of
  its `Reading`;
* a `Reading` is what a heartbeat knows when it has read its user's list.
-/
import ColabEdit.Server.Phases

namespace ColabEdit.Server

open ColabEdit.Browser ColabEdit.Theory

set_option autoImplicit false
set_option linter.unusedSectionVars false

namespace Traffic

section Events

variable {J Name Batch : Type} [DecidableEq J]

/-! ## The commands of one request -/

def Event.request : Event J Name Batch → Option J
  | .pushRan j _ _ _ | .beatRan j _ _ _ _ => some j
  | .applied _ _ _ => none

/-- The commands of a request, in order. -/
def own (τ : List (Event J Name Batch)) (j : J) : List (Event J Name Batch) :=
  τ.filter fun e => e.request = some j

def Event.allocation : Event J Name Batch → Option Nat
  | .pushRan _ _ .allocate id => some id
  | _ => none

def Event.store : Event J Name Batch → Option (Name × Nat × Batch)
  | .pushRan _ user (.hsetChanges id batch) _ => some (user, id, batch)
  | _ => none

/-- The batches stored, with author and id. -/
def stores (τ : List (Event J Name Batch)) : List (Name × Nat × Batch) := τ.filterMap Event.store

/-- What a `/sendChanges` request read of its user's list. -/
def Event.listRead : Event J Name Batch → Option (List Char)
  | .pushRan _ _ (.hgetUserChanges _) (some ids) => some ids
  | _ => none

def Event.listWrite : Event J Name Batch → Option (Name × List Char)
  | .pushRan _ _ (.hsetUserChanges user ids) _ => some (user, ids)
  | _ => none

/-- What a heartbeat read of the keys of `changes`. -/
def Event.keysRead : Event J Name Batch → Option (List Nat)
  | .beatRan _ _ _ .hkeysChanges keys => some keys
  | _ => none

variable {τ evs mine : List (Event J Name Batch)} {i j : J} {user : Name} {batch : Batch} {id : Nat}

theorem own_append : own (τ ++ evs) j = own τ j ++ own evs j := List.filter_append _ _

theorem own_eq_nil (others : ∀ e ∈ evs, e.request ≠ some j) : own evs j = [] :=
  List.filter_eq_nil_iff.2 fun e member => by simpa using others e member

theorem own_other (others : ∀ e ∈ evs, e.request ≠ some j) : own (τ ++ evs) j = own τ j := by
  rw [own_append, own_eq_nil others, List.append_nil]

theorem own_self {e : Event J Name Batch} (request : e.request = some j) :
    own (τ ++ [e]) j = own τ j ++ [e] := by
  rw [own_append]
  simp [own, request]

theorem stores_append : stores (τ ++ evs) = stores τ ++ stores evs := List.filterMap_append

theorem mem_own_stores : (user, id, batch) ∈ (own τ j).filterMap Event.store ↔
    Event.pushRan j user (.hsetChanges id batch) () ∈ τ := by
  rw [List.mem_filterMap]
  constructor
  · rintro ⟨e, member, stores⟩
    obtain ⟨member, request⟩ := List.mem_filter.1 member
    cases e with
    | pushRan i user' c r =>
        cases c with
        | hsetChanges id' batch' =>
            cases stores
            cases of_decide_eq_true request
            exact member
        | _ => cases stores
    | _ => cases stores
  · intro member
    exact ⟨_, List.mem_filter.2 ⟨member, decide_eq_true rfl⟩, rfl⟩

/-! ## The ids handed out -/

/-- Every id with the request that got it. -/
def allocated (τ : List (Event J Name Batch)) : List (J × Nat) :=
  τ.filterMap fun e => e.allocation.bind fun id => e.request.map fun j => (j, id)

theorem mem_allocated : (j, id) ∈ allocated τ ↔ id ∈ (own τ j).filterMap Event.allocation := by
  simp only [allocated, own, List.mem_filterMap, List.mem_filter, decide_eq_true_eq,
    Option.bind_eq_some_iff, Option.map_eq_some_iff, Prod.mk.injEq]
  constructor
  · rintro ⟨e, member, id', got, j', request, rfl, rfl⟩
    exact ⟨e, ⟨member, request⟩, got⟩
  · rintro ⟨e, ⟨member, request⟩, got⟩
    exact ⟨e, member, id, got, j, request, rfl, rfl⟩

/-- Who has an id has it alone. -/
theorem allocated_unique (distinct : ((allocated τ).map Prod.snd).Nodup)
    (first : id ∈ (own τ i).filterMap Event.allocation)
    (second : id ∈ (own τ j).filterMap Event.allocation) : i = j :=
  congrArg Prod.fst
    (List.inj_on_of_nodup_map distinct (mem_allocated.2 first) (mem_allocated.2 second) rfl)

theorem distinct_of_append (distinct : ((allocated (τ ++ evs)).map Prod.snd).Nodup) :
    ((allocated τ).map Prod.snd).Nodup := by
  rw [allocated, List.filterMap_append, List.map_append] at distinct
  exact (List.nodup_append.1 distinct).1

/-! ## What a heartbeat goes by -/

/-- A heartbeat that has read the keys of `changes` and then its user's list. -/
structure Reading (Name : Type) where
  user : Name
  last : Int
  keys : List Nat
  own : List Nat

/-- The ids of the reply. -/
def Reading.ids (r : Reading Name) : List Nat := newIds r.keys r.last r.own

def Event.reading (past : List (Event J Name Batch)) : Event J Name Batch → Option (Reading Name)
  | .beatRan j user last (.hgetUserChanges _) (some ids) =>
      ((own past j).filterMap Event.keysRead).getLast?.bind fun keys =>
        (ownIds ids).map fun own => { user := user, last := last, keys := keys, own := own }
  | _ => none

def readings (τ : List (Event J Name Batch)) : List (Reading Name) := Machine.collect Event.reading [] τ

theorem readings_append : readings (τ ++ evs) = readings τ ++ Machine.collect Event.reading τ evs := by
  rw [readings, Machine.collect_append, List.nil_append]
  rfl

theorem mem_readings_append {r : Reading Name} (member : r ∈ readings τ) : r ∈ readings (τ ++ evs) := by
  rw [readings_append]
  exact List.mem_append_left _ member

end Events

section Ledger

variable {J Name Batch : Type} [DecidableEq J] [DecidableEq Name] [Changes Batch]

/-! ## What the phases know -/

/-- What the commands of a `/sendChanges` request tell of its phase. -/
def PushKnows (mine : List (Event J Name Batch)) (user : Name) (batch : Batch) :
    PushPhase Name Batch → Prop
  | .editing p =>
      p.Only IsDoc ∧ mine.filterMap Event.store = [] ∧ mine.filterMap Event.listRead = []
  | .allocating q => ∃ i, q = .ret i ∧ i ∈ mine.filterMap Event.allocation ∧
      mine.filterMap Event.store = [] ∧ mine.filterMap Event.listRead = []
  | .owning i =>
      mine.filterMap Event.store = [(user, i, batch)] ∧ mine.filterMap Event.listRead = []
  | .appending i tail => ∃ ids, mine.filterMap Event.store = [(user, i, batch)] ∧
      mine.filterMap Event.listRead = [ids] ∧ tail = PushPhase.tail ids i
  | .writing i list => ∃ ids ids', mine.filterMap Event.store = [(user, i, batch)] ∧
      mine.filterMap Event.listRead = [ids, ids'] ∧ list = ids' ++ PushPhase.tail ids i
  | .answered i => mine.filterMap Event.store = [(user, i, batch)]
  | .failed => True

/-- What is known of a heartbeat in a phase. -/
def BeatKnows (mine : List (Event J Name Batch)) (readings : List (Reading Name))
    (changes : Hash Nat Batch) (user : Name) (last : Int) : BeatPhase Name Batch → Prop
  | .counting => True
  | .indexing _ q => q.Only IsUser
  | .owning _ _ keys =>
      (mine.filterMap Event.keysRead).getLast? = some keys ∧ ∀ k ∈ keys, k ∈ changes
  | .fetching _ _ keys own done todo => { user, last, keys, own } ∈ readings ∧
      done.map Prod.fst ++ todo = newIds keys last own ∧ ∀ e ∈ done, changes.lookup e.1 = some e.2
  | .failed => True

structure Ledger (τ : List (Event J Name Batch)) (S : Traffic J Name Batch) : Prop where
  pushes : ∀ j user batch rest, S.threads j = some (.push user batch rest) →
    ∃ phase, rest = PushPhase.prog (Prog.op Cmd.allocate) user batch phase ∧
      PushKnows (own τ j) user batch phase
  beats : ∀ j user last rest, S.threads j = some (.beat user last rest) →
    ∃ phase, rest = BeatPhase.prog user last phase ∧
      BeatKnows (own τ j) (readings τ) S.redis.changes user last phase
  silent : ∀ j, S.threads j = none → own τ j = []
  kept : ∀ j user i b, Event.pushRan j user (.hsetChanges i b) () ∈ τ →
    i ∈ (own τ j).filterMap Event.allocation ∧ S.redis.changes.lookup i = some b
  known : ∀ i ∈ S.redis.changes, ∃ j user b, Event.pushRan j user (.hsetChanges i b) () ∈ τ
  seen : ∀ r ∈ readings τ, ∀ k ∈ r.keys, k ∈ S.redis.changes

variable {lower : Name → Name} {τ evs mine : List (Event J Name Batch)} {S S' : Traffic J Name Batch}
  {redis' : Redis Name Batch} {cursors' : Name → Int} {thread : Thread Name Batch} {j : J} {user : Name}
  {batch : Batch} {last : Int} {c : Cmd Name Batch} {r : c.Reply}

theorem PushKnows.next {phase phase' : PushPhase Name Batch}
    (knows : PushKnows mine user batch phase)
    (next : PushPhase.Next (Prog.op Cmd.allocate) user batch phase c r phase') :
    PushKnows (mine ++ [.pushRan j user c r]) user batch phase' := by
  cases next with
  | edit r =>
      obtain ⟨only, stores, reads⟩ := knows
      have isDoc := only.head
      refine ⟨only.cont r, ?_⟩
      cases c <;> first | exact isDoc.elim | simp [Event.store, Event.listRead, stores, reads]
  | begin r first =>
      obtain ⟨-, stores, reads⟩ := knows
      cases first
      exact ⟨_, rfl, by simp [Event.allocation, Event.store, Event.listRead, stores, reads]⟩
  | alloc r =>
      obtain ⟨i, is, -⟩ := knows
      cases is
  | store i =>
      obtain ⟨_, -, -, stores, reads⟩ := knows
      exact ⟨by simp [Event.store, stores], by simp [Event.listRead, reads]⟩
  | read i ids =>
      obtain ⟨stores, reads⟩ := knows
      exact ⟨ids, by simp [Event.store, stores], by simp [Event.listRead, reads], rfl⟩
  | readMissing i => trivial
  | reread i tail ids =>
      obtain ⟨ids₀, stores, reads, is⟩ := knows
      exact ⟨ids₀, ids, by simp [Event.store, stores], by simp [Event.listRead, reads], by rw [is]⟩
  | rereadMissing i tail => trivial
  | write i list =>
      obtain ⟨_, _, stores, -⟩ := knows
      simp [PushKnows, Event.store, stores]

/-- Later commands of others take nothing away. -/
theorem BeatKnows.frame {phase : BeatPhase Name Batch} {changes changes' : Hash Nat Batch}
    {rs rs' : List (Reading Name)} (knows : BeatKnows mine rs changes user last phase)
    (more : ∀ r ∈ rs, r ∈ rs')
    (grows : ∀ i b, changes.lookup i = some b → changes'.lookup i = some b) :
    BeatKnows mine rs' changes' user last phase := by
  have stays : ∀ k ∈ changes, k ∈ changes' := fun k member => by
    obtain ⟨b, found⟩ := Option.isSome_iff_exists.1 (AList.lookup_isSome.2 member)
    exact AList.lookup_isSome.1 (by rw [grows k b found]; rfl)
  cases phase with
  | counting => trivial
  | indexing count q => exact knows
  | owning count position keys => exact ⟨knows.1, fun k member => stays k (knows.2 k member)⟩
  | fetching count position keys own done todo =>
      exact ⟨more _ knows.1, knows.2.1, fun e member => grows _ _ (knows.2.2 e member)⟩
  | failed => trivial

theorem BeatKnows.next {phase phase' : BeatPhase Name Batch} {redis : Redis Name Batch}
    (knows : BeatKnows (own τ j) (readings τ) redis.changes user last phase)
    (next : BeatPhase.Next user last phase c r phase') (reply : (c.exec redis).1 = r) :
    BeatKnows (own τ j ++ [.beatRan j user last c r])
      (readings τ ++ (Event.reading τ (.beatRan j user last c r)).toList) redis.changes user last phase' := by
  have more : ∀ x ∈ readings τ, x ∈ readings τ ++ (Event.reading τ (.beatRan j user last c r)).toList :=
    fun _ member => List.mem_append_left _ member
  cases next with
  | count n => exact index_only user
  | index r => exact knows.cont r
  | keys keys =>
      refine ⟨by simp [Event.keysRead], fun k member => ?_⟩
      rw [← reply] at member
      exact AList.mem_keys.2 member
  | own ids parsed =>
      refine ⟨List.mem_append_right _ ?_, rfl, fun e member => (List.not_mem_nil member).elim⟩
      simp [Event.reading, knows.1, parsed]
  | ownMissing r => trivial
  | fetch i todo batch =>
      obtain ⟨reading, ids, reads⟩ := knows
      refine ⟨more _ reading, by simpa using ids, fun e member => ?_⟩
      rcases List.mem_append.1 member with old | new
      · exact reads e old
      · cases List.mem_singleton.1 new
        exact reply
  | fetchMissing i todo => trivial

theorem BeatKnows.isRead {phase phase' : BeatPhase Name Batch} {changes : Hash Nat Batch}
    {rs : List (Reading Name)} (knows : BeatKnows mine rs changes user last phase)
    (next : BeatPhase.Next user last phase c r phase') : IsRead c := by
  cases next with
  | index r => exact knows.head.isRead
  | _ => trivial

/-- A new reading is of the user's own list, and its keys are in `changes`. -/
theorem BeatKnows.reads {phase phase' : BeatPhase Name Batch} {redis : Redis Name Batch}
    {rs : List (Reading Name)} (knows : BeatKnows (own τ j) rs redis.changes user last phase)
    (next : BeatPhase.Next user last phase c r phase') (reply : (c.exec redis).1 = r) :
    ∀ reading ∈ Event.reading τ (.beatRan j user last c r), reading.user = user ∧
      (∀ k ∈ reading.keys, k ∈ redis.changes) ∧
      ∃ ids, redis.userChanges.lookup user = some ids ∧ ownIds ids = some reading.own := by
  intro reading yields
  cases next with
  | index r =>
      have isUser := knows.head
      cases c <;> first | exact isUser.elim | cases yields
  | own ids parsed =>
      simp only [Event.reading, knows.1, parsed, Option.bind_some, Option.map_some, Option.mem_def,
        Option.some.injEq] at yields
      subst yields
      exact ⟨rfl, knows.2, ids, reply, parsed⟩
  | ownMissing r =>
      cases r with
      | none => cases yields
      | some ids =>
          simp only [Event.reading, knows.1, Option.bind_some, Option.mem_def,
            Option.map_eq_some_iff] at yields
          obtain ⟨own, parsed, rfl⟩ := yields
          exact ⟨rfl, knows.2, ids, reply, parsed⟩
  | _ => cases yields

/-- A step by one request, and what it has to show of its own part. -/
theorem Ledger.grow (ledger : Ledger τ S) (mine : ∀ e ∈ evs, ∀ j', e.request = some j' → j' = j)
    (grows : ∀ i b, S.redis.changes.lookup i = some b → redis'.changes.lookup i = some b)
    (pushed : ∀ user batch rest, thread = .push user batch rest →
      ∃ phase, rest = PushPhase.prog (Prog.op Cmd.allocate) user batch phase ∧
        PushKnows (own (τ ++ evs) j) user batch phase)
    (beat : ∀ user last rest, thread = .beat user last rest →
      ∃ phase, rest = BeatPhase.prog user last phase ∧
        BeatKnows (own (τ ++ evs) j) (readings (τ ++ evs)) redis'.changes user last phase)
    (kept : ∀ user i b, Event.pushRan j user (.hsetChanges i b) () ∈ evs →
      i ∈ (own τ j).filterMap Event.allocation ∧ redis'.changes.lookup i = some b)
    (known : ∀ i ∈ redis'.changes, i ∈ S.redis.changes ∨
      ∃ user b, Event.pushRan j user (.hsetChanges i b) () ∈ evs)
    (seen : ∀ r ∈ Machine.collect Event.reading τ evs, ∀ k ∈ r.keys, k ∈ S.redis.changes) :
    Ledger (τ ++ evs) ((⟨redis', S.threads, cursors'⟩ : Traffic J Name Batch).setThread j thread) := by
  have others : ∀ j', j' ≠ j → own (τ ++ evs) j' = own τ j' := fun j' ne =>
    own_other fun e member request => ne (mine e member j' request)
  have more : ∀ r ∈ readings τ, r ∈ readings (τ ++ evs) := fun r => mem_readings_append
  have stays : ∀ k ∈ S.redis.changes, k ∈ redis'.changes := fun k member => by
    obtain ⟨b, found⟩ := Option.isSome_iff_exists.1 (AList.lookup_isSome.2 member)
    exact AList.lookup_isSome.1 (by rw [grows k b found]; rfl)
  refine ⟨?_, ?_, ?_, ?_, ?_, ?_⟩
  · intro j' user batch rest there
    rcases setThread_cases there with ⟨rfl, same⟩ | ⟨ne, there⟩
    · exact pushed user batch rest same.symm
    · rw [others j' ne]
      exact ledger.pushes j' user batch rest there
  · intro j' user last rest there
    rcases setThread_cases there with ⟨rfl, same⟩ | ⟨ne, there⟩
    · exact beat user last rest same.symm
    · obtain ⟨phase, is, knows⟩ := ledger.beats j' user last rest there
      rw [others j' ne]
      exact ⟨phase, is, knows.frame more grows⟩
  · intro j' absent
    have ne : j' ≠ j := by
      rintro rfl
      simp [setThread] at absent
    rw [others j' ne]
    exact ledger.silent j' (by simpa [setThread, ne] using absent)
  · intro j' user i b member
    have found : i ∈ (own τ j').filterMap Event.allocation ∧ redis'.changes.lookup i = some b := by
      rcases List.mem_append.1 member with old | new
      · exact ⟨(ledger.kept j' user i b old).1, grows i b (ledger.kept j' user i b old).2⟩
      · cases mine _ new j' rfl
        exact kept user i b new
    refine ⟨?_, found.2⟩
    rw [own_append, List.filterMap_append]
    exact List.mem_append_left _ found.1
  · intro i member
    rcases known i member with old | ⟨user, b, new⟩
    · obtain ⟨j', user, b, stored⟩ := ledger.known i old
      exact ⟨j', user, b, List.mem_append_left _ stored⟩
    · exact ⟨j, user, b, List.mem_append_right _ new⟩
  · intro r member k key
    rw [readings_append] at member
    rcases List.mem_append.1 member with old | new
    · exact stays k (ledger.seen r old k key)
    · exact stays k (seen r new k key)

theorem Ledger.start {redis : Redis Name Batch} (empty : redis.changes = ∅) :
    Ledger ([] : List (Event J Name Batch)) (Traffic.start redis) := by
  constructor <;> simp [Traffic.start, own, readings, Machine.collect, empty]

/-- The id of a request that is about to store is not in use. -/
theorem Ledger.unused (ledger : Ledger τ S) (distinct : ((allocated τ).map Prod.snd).Nodup) {i : Nat}
    (got : i ∈ (own τ j).filterMap Event.allocation) (unstored : (own τ j).filterMap Event.store = []) :
    i ∉ S.redis.changes := by
  intro member
  obtain ⟨j', user', b, stored⟩ := ledger.known i member
  cases allocated_unique distinct got (ledger.kept j' user' i b stored).1
  have := mem_own_stores.2 stored
  rw [unstored] at this
  exact List.not_mem_nil this

/-- What is known of a request that is about to store. -/
theorem Ledger.storing (ledger : Ledger τ S) (distinct : ((allocated τ).map Prod.snd).Nodup) {i : Nat}
    {b : Batch} {k : Unit → Handler Name Batch Nat}
    (here : S.threads j = some (.push user batch (.call (.hsetChanges i b) k))) :
    i ∉ S.redis.changes ∧ i ∈ (own τ j).filterMap Event.allocation := by
  obtain ⟨phase, is, knows⟩ := ledger.pushes j user batch _ here
  obtain ⟨phase', next, -⟩ := PushPhase.next rfl is.symm ()
  cases next with
  | edit r => exact knows.1.head.elim
  | begin r first => cases first
  | alloc r =>
      obtain ⟨i, is, -⟩ := knows
      cases is
  | store i =>
      obtain ⟨i', same, got, unstored, -⟩ := knows
      cases same
      exact ⟨ledger.unused distinct got unstored, got⟩

theorem Ledger.pushRun {k : c.Reply → Handler Name Batch Nat} (ledger : Ledger τ S)
    (distinct : ((allocated τ).map Prod.snd).Nodup)
    (here : S.threads j = some (.push user batch (.call c k))) :
    Ledger (τ ++ [.pushRan j user c (c.exec S.redis).1])
      (({ S with redis := (c.exec S.redis).2 } : Traffic J Name Batch).setThread j
        (.push user batch (k (c.exec S.redis).1))) := by
  have after : ∃ phase, k (c.exec S.redis).1 = PushPhase.prog (Prog.op Cmd.allocate) user batch phase ∧
      PushKnows (own (τ ++ [.pushRan j user c (c.exec S.redis).1]) j) user batch phase := by
    obtain ⟨phase, is, knows⟩ := ledger.pushes j user batch _ here
    obtain ⟨phase', next, is'⟩ := PushPhase.next rfl is.symm (c.exec S.redis).1
    rw [own_self rfl]
    exact ⟨phase', is', knows.next next⟩
  have pushed : ∀ user' batch' rest',
      Thread.push user batch (k (c.exec S.redis).1) = .push user' batch' rest' →
      ∃ phase, rest' = PushPhase.prog (Prog.op Cmd.allocate) user' batch' phase ∧
        PushKnows (own (τ ++ [.pushRan j user c (c.exec S.redis).1]) j) user' batch' phase := by
    intro user' batch' rest' same
    cases same
    exact after
  have unread : ∀ r ∈ Machine.collect Event.reading τ [.pushRan j user c (c.exec S.redis).1],
      ∀ k ∈ r.keys, k ∈ S.redis.changes := by simp [Machine.collect, Event.reading]
  have request : ∀ e ∈ [Event.pushRan j user c (c.exec S.redis).1], ∀ j', e.request = some j' → j' = j := by
    simp [Event.request]
  by_cases store : ∃ i b, c = .hsetChanges i b
  · obtain ⟨i, b, rfl⟩ := store
    obtain ⟨unused, got⟩ := ledger.storing distinct here
    refine ledger.grow request (fun i' b' found => ?_) pushed (fun _ _ _ same => by cases same) ?_ ?_ unread
    · refine (AList.lookup_insert_ne ?_).trans found
      rintro rfl
      exact unused (AList.lookup_isSome.1 (by rw [found]; rfl))
    · intro user' i' b' member
      cases List.mem_singleton.1 member
      exact ⟨got, AList.lookup_insert _⟩
    · intro i' member
      rcases (AList.mem_insert _).1 member with rfl | old
      · exact Or.inr ⟨user, b, by simp⟩
      · exact Or.inl old
  · have same : (c.exec S.redis).2.changes = S.redis.changes := by
      cases c <;> first | rfl | exact absurd ⟨_, _, rfl⟩ store
    refine ledger.grow request (fun i' b' found => same ▸ found) pushed (fun _ _ _ same => by cases same) ?_
      (fun i' member => Or.inl (same ▸ member)) unread
    intro user' i' b' member
    cases List.mem_singleton.1 member
    exact absurd ⟨_, _, rfl⟩ store

theorem Step.ledger (step : Step (Prog.op Cmd.allocate) S evs S')
    (distinct : ((allocated τ).map Prod.snd).Nodup) (ledger : Ledger τ S) : Ledger (τ ++ evs) S' := by
  cases step with
  | push j user batch free =>
      refine ledger.grow (fun _ member => by cases member) (fun _ _ => id) ?_
        (fun _ _ _ same => by cases same) (fun _ _ _ member => by cases member) (fun _ => Or.inl)
        (fun _ member => by cases member)
      intro user' batch' rest' same
      cases same
      rw [List.append_nil, ledger.silent j free]
      exact ⟨_, PushPhase.start, .bind PPS.init_only fun _ => PPS.editAll_only _, rfl, rfl⟩
  | beat j user free =>
      refine ledger.grow (fun _ member => by cases member) (fun _ _ => id) (fun _ _ _ same => by cases same)
        ?_ (fun _ _ _ member => by cases member) (fun _ => Or.inl) (fun _ member => by cases member)
      intro user' last' rest' same
      cases same
      exact ⟨.counting, rfl, trivial⟩
  | pushRun j user batch c k here => exact ledger.pushRun distinct here
  | beatRun j user last c k here =>
      obtain ⟨phase, is, knows⟩ := ledger.beats j user last _ here
      obtain ⟨phase', next, is'⟩ := BeatPhase.next is.symm (c.exec S.redis).1
      have knows' := knows.next next rfl
      have seen := knows.reads next rfl
      rw [(knows.isRead next).exec]
      refine ledger.grow (by simp [Event.request]) (fun _ _ => id) (fun _ _ _ same => by cases same) ?_
        (by simp) (fun _ => Or.inl) (fun r new => (seen r (by simpa [Machine.collect] using new)).2.1)
      intro user' last' rest' same
      cases same
      rw [own_self rfl, readings_append]
      exact ⟨phase', is', by simpa [Machine.collect] using knows'⟩
  | process j user last reply here =>
      have nobody : ∀ e ∈ reply.transactions.map fun t => Event.applied (J := J) user t.1 t.2,
          e.request = none ∧ ∀ past, Event.reading past e = none := by
        intro e member
        obtain ⟨t, -, rfl⟩ := List.mem_map.1 member
        exact ⟨rfl, fun _ => rfl⟩
      refine ledger.grow (fun e member j' request => ?_) (fun _ _ => id) (fun _ _ _ same => by cases same)
        (fun _ _ _ same => by cases same) ?_ (fun _ => Or.inl) ?_
      · rw [(nobody e member).1] at request
        cases request
      · intro user' i b member
        cases (nobody _ member).1
      · rw [Machine.collect_eq_nil fun past e member => (nobody e member).2 past]
        exact fun _ member => by cases member

/-- A stored batch is in `changes`. -/
theorem Ledger.found (ledger : Ledger τ S) {s : Name × Nat × Batch} (stored : s ∈ stores τ) :
    S.redis.changes.lookup s.2.1 = some s.2.2 := by
  obtain ⟨e, member, yields⟩ := List.mem_filterMap.1 stored
  cases e with
  | pushRan j user c r =>
      cases c with
      | hsetChanges i b =>
          cases yields
          exact (ledger.kept j user i b member).2
      | _ => cases yields
  | _ => cases yields

/-- A heartbeat that has answered carries the batches of its reading. -/
theorem Ledger.answered (ledger : Ledger τ S) {reply : HeartbeatReply Batch}
    (here : S.threads j = some (.beat user last (.ret reply))) :
    ∃ r ∈ readings τ, r.user = user ∧ r.last = last ∧ reply.transactions.map Prod.fst = r.ids ∧
      ∀ t ∈ reply.transactions, S.redis.changes.lookup t.1 = some t.2 := by
  obtain ⟨phase, is, knows⟩ := ledger.beats j user last _ here
  obtain ⟨count, position, keys, own, done, rfl, carried⟩ := BeatPhase.of_answered is.symm
  obtain ⟨reading, ids, reads⟩ := knows
  refine ⟨_, reading, rfl, rfl, ?_, ?_⟩
  · rw [carried, ← List.append_nil (done.map Prod.fst), ids]
    rfl
  · rw [carried]
    exact reads

/-! ## Ids below the bound are distinct -/

/-- The ids ascend: the counter is at or above each. -/
structure Numbered (τ : List (Event J Name Batch)) (S : Traffic J Name Batch) : Prop where
  distinct : ((allocated τ).map Prod.snd).Nodup
  below : ∀ a ∈ allocated τ, a.2 ≤ intValue S.redis.id

theorem allocated_append : allocated (τ ++ evs) = allocated τ ++ allocated evs := List.filterMap_append

/-- Only the allocation moves the counter. -/
theorem PushKnows.counter {phase phase' : PushPhase Name Batch}
    (knows : PushKnows mine user batch phase)
    (next : PushPhase.Next (Prog.op Cmd.allocate) user batch phase c r phase') (s : Redis Name Batch) :
    c = .allocate ∨ (c.exec s).2.id = s.id ∧ allocated [Event.pushRan j user c r] = [] := by
  cases next with
  | edit r =>
      have isDoc := knows.1.head
      cases c <;> first | exact isDoc.elim | exact Or.inr ⟨rfl, rfl⟩
  | begin r first =>
      cases first
      exact Or.inl rfl
  | alloc r =>
      obtain ⟨i, is, -⟩ := knows
      cases is
  | _ => exact Or.inr ⟨rfl, rfl⟩

/-- A step that allocates nothing. -/
theorem Numbered.still (numbered : Numbered τ S) (nothing : allocated evs = [])
    (counter : S'.redis.id = S.redis.id) : Numbered (τ ++ evs) S' := by
  have same : allocated (τ ++ evs) = allocated τ := by rw [allocated_append, nothing, List.append_nil]
  exact ⟨same ▸ numbered.distinct, by rw [same, counter]; exact numbered.below⟩

theorem Step.numbered (step : Step (Prog.op Cmd.allocate) S evs S') (ledger : Ledger τ S)
    (small : ∀ a ∈ allocated (τ ++ evs), a.2 < 2 ^ 53) (numbered : Numbered τ S) :
    Numbered (τ ++ evs) S' := by
  cases step with
  | push j user batch free => exact numbered.still rfl rfl
  | beat j user free => exact numbered.still rfl rfl
  | pushRun j user batch c k here =>
      obtain ⟨phase, is, knows⟩ := ledger.pushes j user batch _ here
      obtain ⟨phase', next, -⟩ := PushPhase.next rfl is.symm (c.exec S.redis).1
      rcases knows.counter next S.redis with rfl | ⟨counter, nothing⟩
      · have event : allocated (τ ++ [.pushRan j user .allocate (Cmd.exec .allocate S.redis).1]) =
            allocated τ ++ [(j, intValue (some (intValue S.redis.id + 1)))] := allocated_append
        have value : intValue (some (intValue S.redis.id + 1)) = intValue S.redis.id + 1 := by
          refine floatInt_of_lt (small (j, _) ?_)
          rw [event]
          exact List.mem_append_right _ (List.mem_singleton.2 rfl)
        constructor
        · rw [event, List.map_append]
          refine List.nodup_append.2 ⟨numbered.distinct, by simp, ?_⟩
          intro i member i' now
          obtain ⟨a, old, rfl⟩ := List.mem_map.1 member
          have := numbered.below a old
          have is : i' = intValue (some (intValue S.redis.id + 1)) := by simpa using now
          omega
        · intro a member
          show a.2 ≤ intValue (some (intValue S.redis.id + 1))
          rw [event] at member
          rcases List.mem_append.1 member with old | new
          · have := numbered.below a old
            omega
          · cases List.mem_singleton.1 new
            exact le_rfl
      · exact numbered.still nothing counter
  | beatRun j user last c k here =>
      obtain ⟨phase, is, knows⟩ := ledger.beats j user last _ here
      obtain ⟨phase', next, -⟩ := BeatPhase.next is.symm (c.exec S.redis).1
      rw [(knows.isRead next).exec]
      exact numbered.still rfl rfl
  | process j user last reply here =>
      refine numbered.still (List.filterMap_eq_nil_iff.2 fun e member => ?_) rfl
      obtain ⟨t, -, rfl⟩ := List.mem_map.1 member
      rfl

end Ledger

end Traffic

end ColabEdit.Server
