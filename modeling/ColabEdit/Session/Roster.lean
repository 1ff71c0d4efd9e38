/-
# ColabEdit.Session.Roster -- what every run of the session keeps

`Step` lists once what a step of the session can do, with the effect of each
handler spelled out.  `Sound` is the invariant that holds in every run, without
any condition on the tags:

* `Roster`: every open page has a user entry of its own, positions are pairwise
  different and below the user count the page works with;
* `Log`: the stored batches are those of the trace, every id a user pushed is in
  its list, and ids never pass the counter;
* `Mail`: a reply under way carries batches of other users in ascending id, all
  above the cursor of its page; whatever was applied is at or below it.

`steps` closes the loop: under `Sound` every step of the machine is a `Step`.
`Run.induct` is the induction over runs that the results about the session use.
-/
import ColabEdit.Session.System

namespace ColabEdit.Session

open ColabEdit.Browser ColabEdit.Server ColabEdit.Theory

set_option autoImplicit false
set_option linter.unusedSectionVars false

section Defs

variable {C Name Tag Num : Type} [DecidableEq C] [DecidableEq Name] [LinearOrder Tag] [BigNum Num]
  [BigTag Tag Num] (userName : C → Name) (lower : Name → Name)

/-- The field of a client in the server's hashes. -/
abbrev key (c : C) : Name := lower (userName c)

/-- The client an event is about. -/
def Event.client : Event C Tag → C
  | .inserted c _ _ _ _ | .deleted c _ | .stored c _ _ | .applied c _ _ => c

inductive Step (S : System C Name Tag) : List (Event C Tag) → System C Name Tag → Prop
  | invalid : Step S [] S
  | login (c : C) (closed : S.pages c = none) (free : key userName lower c ∉ S.redis.users.keys) :
      Step S [] (({ S with redis := { S.redis with
          users := S.redis.users.insert (key userName lower c) S.redis.users.keys.length
          userChanges := S.redis.userChanges.insert (key userName lower c) [] } }).setPage c
        { client := Client.start (S.redis.users.keys.length + 1 : Nat) (S.redis.users.keys.length : Nat)
          push := .idle, beat := .idle })
  | type (c : C) (page : Page Tag) (client : Client Tag) (pos : Nat) (ch : CharCode) (tag : Tag)
      (opened : S.pages c = some page) (typed : page.client.insertText pos ch = some (client, tag)) :
      Step S [.inserted c page.client pos ch tag] (S.setPage c { page with client := client })
  | erase (c : C) (page : Page Tag) (positions : List Nat) (opened : S.pages c = some page) :
      Step S ((page.client.deleteTags positions).map fun tag => .deleted c tag)
        (S.setPage c { page with client := page.client.deletePositions positions })
  | send (c : C) (page : Page Tag) (opened : S.pages c = some page)
      (ready : page.client.acknowledged = true) :
      Step S [] (S.setPage c { page with
        client := { page.client with acknowledged := false, pendingChanges := ∅ }
        push := .sent page.client.pendingChanges })
  | handlePush (c : C) (page : Page Tag) (batch : Batch Tag) (ids : List Char) (d : DocStore)
      (opened : S.pages c = some page) (sent : page.push = .sent batch)
      (listed : S.redis.userChanges.lookup (key userName lower c) = some ids) :
      Step S [.stored c (intValue (some (intValue S.redis.id + 1))) batch]
        (({ S with redis := { S.redis with
            id := some (intValue S.redis.id + 1)
            changes := S.redis.changes.insert (intValue (some (intValue S.redis.id + 1))) batch
            userChanges := S.redis.userChanges.insert (key userName lower c)
              (recorded ids (intValue (some (intValue S.redis.id + 1))))
            doc := d } }).setPage c
          { page with push := .answered (intValue (some (intValue S.redis.id + 1))) })
  | endPush (c : C) (page : Page Tag) (id : Nat) (opened : S.pages c = some page)
      (answered : page.push = .answered id) :
      Step S [] (S.setPage c { page with client := page.client.sendSuccess, push := .idle })
  | beat (c : C) (page : Page Tag) (opened : S.pages c = some page) :
      Step S [] (S.setPage c { page with beat := .sent page.client.lastReceivedGreatestSeqNum })
  | handleBeat (c : C) (page : Page Tag) (last : Int) (reply : HeartbeatReply (Batch Tag))
      (position : Nat) (ids : List Char) (own : List Nat) (opened : S.pages c = some page)
      (sent : page.beat = .sent last)
      (user : S.redis.users.lookup (key userName lower c) = some position)
      (listed : S.redis.userChanges.lookup (key userName lower c) = some ids)
      (parsed : ownIds ids = some own)
      (count : reply.userCount = S.redis.users.keys.length) (place : reply.userPosition = position)
      (new : reply.transactions.map Prod.fst = newIds S.redis.changes.keys last own)
      (read : ∀ e ∈ reply.transactions, S.redis.changes.lookup e.1 = some e.2) :
      Step S [] (S.setPage c { page with beat := .answered reply })
  | endBeat (c : C) (page : Page Tag) (reply : HeartbeatReply (Batch Tag))
      (transactions : List (Nat × List (Tag × CharCode))) (opened : S.pages c = some page)
      (answered : page.beat = .answered reply) (reordered : System.Reorders transactions reply) :
      Step S (transactions.map fun t => .applied c t.1 t.2)
        (S.setPage c { page with
          client := page.client.applyReply reply.userCount reply.userPosition transactions
          beat := .idle })

/-- Every open page has an entry of its own among the users, and positions are
pairwise different and below the count. -/
structure Roster (S : System C Name Tag) : Prop where
  user : ∀ c page, S.pages c = some page → ∃ position : Nat,
    S.redis.users.lookup (key userName lower c) = some position ∧
      page.client.userPosition = position
  alone : ∀ c c' page page', S.pages c = some page → S.pages c' = some page' →
    key userName lower c = key userName lower c' → c = c'
  apart : ∀ name name' position, S.redis.users.lookup name = some position →
    S.redis.users.lookup name' = some position → name = name'
  below : ∀ name position, S.redis.users.lookup name = some position →
    position < S.redis.users.keys.length
  counted : ∀ c page, S.pages c = some page → page.client.userPosition < page.client.userCount
  replied : ∀ c page reply, S.pages c = some page → page.beat = .answered reply →
    reply.userPosition = page.client.userPosition ∧ reply.userPosition < reply.userCount

/-- The stored batches of the trace and the server's keys. -/
structure Log (τ : List (Event C Tag)) (S : System C Name Tag) : Prop where
  own : ∀ c page, S.pages c = some page → ∃ ids list,
    S.redis.userChanges.lookup (key userName lower c) = some ids ∧ ownIds ids = some list ∧
      ∀ id, id ∈ list ↔ ∃ batch, Event.stored c id batch ∈ τ
  changes : ∀ id batch, S.redis.changes.lookup id = some batch →
    ∃ c, Event.stored c id batch ∈ τ
  counter : ∀ c id batch, Event.stored c id batch ∈ τ → id ≤ intValue S.redis.id
  authors : ∀ e ∈ τ, ∃ page, S.pages e.client = some page

/-- The messages under way and what arrived. -/
structure Mail (τ : List (Event C Tag)) (S : System C Name Tag) : Prop where
  ready : ∀ c page, S.pages c = some page → page.client.acknowledged = true → page.push = .idle
  asked : ∀ c page last, S.pages c = some page → page.beat = .sent last →
    last = page.client.lastReceivedGreatestSeqNum
  answered : ∀ c page reply, S.pages c = some page → page.beat = .answered reply →
    (reply.transactions.map Prod.fst).Pairwise (· < ·) ∧
      ∀ t ∈ reply.transactions, page.client.lastReceivedGreatestSeqNum < t.1 ∧
        ∃ u, u ≠ c ∧ Event.stored u t.1 t.2 ∈ τ
  applied : ∀ c id entries, Event.applied c id entries ∈ τ → ∀ page, S.pages c = some page →
    (id : Int) ≤ page.client.lastReceivedGreatestSeqNum ∧
      ∃ u batch, u ≠ c ∧ Event.stored u id batch ∈ τ ∧ entries.Perm batch.pairs

structure Sound (τ : List (Event C Tag)) (S : System C Name Tag) : Prop where
  roster : Roster userName lower S
  log : Log userName lower τ S
  mail : Mail τ S

end Defs

section Steps

variable {C Name Tag Num : Type} [DecidableEq C] [DecidableEq Name] [LinearOrder Tag] [BigNum Num]
  [BigTag Tag Num] {userName : C → Name} {lower : Name → Name} {τ : List (Event C Tag)}
  {S S' : System C Name Tag} {evs : List (Event C Tag)}

/-- Under the invariant every step of the machine is one of the list. -/
theorem steps (sound : Sound userName lower τ S) {a : Action C Tag}
    (taken : System.step userName lower S a = some (S', evs)) : Step userName lower S evs S' := by
  cases a with
  | login c =>
      simp only [System.step] at taken
      split at taken
      · cases taken
      · rename_i closed
        by_cases free : key userName lower c ∈ S.redis.users.keys
        · -- the name is taken: `'invalid'`, and the store is as it was
          obtain ⟨position, found⟩ := Option.isSome_iff_exists.1
            (AList.lookup_isSome.2 (AList.mem_keys.2 free))
          have ran : (initialize_ lower (userName c) : Handler Name (Batch Tag) (Option (Nat × Int))).run Cmd.exec
              S.redis =
              (some none, S.redis) := by
            simp only [initialize_, Prog.run_bind, index_run_present found]
            rw [if_neg (by omega)]
            rfl
          rw [ran] at taken
          cases taken
          exact .invalid
        · rw [initialize_run lower free] at taken
          cases taken
          exact .login c closed free
  | type c pos ch =>
      simp only [System.step] at taken
      split at taken
      · cases taken
      · rename_i page opened
        split at taken
        · cases taken
        · rename_i client tag typed
          cases taken
          exact .type c page client pos ch tag opened typed
  | erase c positions =>
      simp only [System.step] at taken
      split at taken
      · cases taken
      · rename_i page opened
        cases taken
        exact .erase c page positions opened
  | send c =>
      simp only [System.step, Client.send] at taken
      split at taken
      · cases taken
      · rename_i page opened
        split at taken
        · cases taken
        · rename_i client batch sent
          split at sent
          · rename_i guard
            cases sent
            cases taken
            exact .send c page opened guard.1
          · cases sent
  | handlePush c =>
      simp only [System.step] at taken
      split at taken
      · cases taken
      · rename_i page opened
        split at taken
        · rename_i batch sent
          obtain ⟨ids, list, listed, -, -⟩ := sound.log.own c page opened
          obtain ⟨d, ran⟩ := insertText_run lower (s := S.redis)
            (show Changes.edits batch = [] from rfl) listed
          rw [ran] at taken
          cases taken
          exact .handlePush c page batch ids d opened sent listed
        · cases taken
  | endPush c =>
      simp only [System.step] at taken
      split at taken
      · cases taken
      · rename_i page opened
        split at taken
        · rename_i id answered
          cases taken
          exact .endPush c page id opened answered
        · cases taken
  | beat c =>
      simp only [System.step] at taken
      split at taken
      · cases taken
      · rename_i page opened
        split at taken
        · cases taken
          exact .beat c page opened
        · cases taken
  | handleBeat c =>
      simp only [System.step] at taken
      split at taken
      · cases taken
      · rename_i page opened
        split at taken
        · rename_i last sent
          obtain ⟨position, user, -⟩ := sound.roster.user c page opened
          obtain ⟨ids, list, listed, parsed, -⟩ := sound.log.own c page opened
          obtain ⟨transactions, ran, new, read⟩ := heartbeat_run lower last user listed parsed
          rw [ran] at taken
          cases taken
          exact .handleBeat c page last _ position ids list opened sent user listed parsed rfl rfl new
            read
        · cases taken
  | endBeat c transactions =>
      simp only [System.step] at taken
      split at taken
      · cases taken
      · rename_i page opened
        split at taken
        · rename_i reply answered
          split at taken
          · rename_i reordered
            cases taken
            exact .endBeat c page reply transactions opened answered reordered
          · cases taken
        · cases taken

/-! ## One page changes -/

theorem setPage_cases {c c' : C} {page page' : Page Tag}
    (opened : (S.setPage c page).pages c' = some page') :
    (c' = c ∧ page' = page) ∨ (c' ≠ c ∧ S.pages c' = some page') := by
  unfold System.setPage at opened
  dsimp only at opened
  by_cases same : c' = c
  · subst same
    rw [Function.update_self] at opened
    exact Or.inl ⟨rfl, (Option.some.inj opened).symm⟩
  · rw [Function.update_of_ne same] at opened
    exact Or.inr ⟨same, opened⟩

theorem setPage_opened {c c' : C} {page old : Page Tag} (opened : S.pages c' = some old) :
    ∃ page', (S.setPage c page).pages c' = some page' := by
  by_cases same : c' = c
  · subst same
    exact ⟨page, Function.update_self _ _ _⟩
  · exact ⟨old, (Function.update_of_ne same _ _).trans opened⟩

/-- A step that leaves the users and its page's numbers alone keeps the roster. -/
theorem Roster.setPage (roster : Roster userName lower S) {redis : Redis Name (Batch Tag)}
    (users : redis.users = S.redis.users) {c : C} {page page' : Page Tag}
    (opened : S.pages c = some page) (position : page'.client.userPosition = page.client.userPosition)
    (counted : page'.client.userPosition < page'.client.userCount)
    (replied : ∀ reply, page'.beat = .answered reply →
      reply.userPosition = page'.client.userPosition ∧ reply.userPosition < reply.userCount) :
    Roster userName lower (({ S with redis := redis } : System C Name Tag).setPage c page') where
  user := by
    intro c' other opened'
    rcases setPage_cases opened' with ⟨rfl, rfl⟩ | ⟨-, opened'⟩
    · obtain ⟨p, found, same⟩ := roster.user _ page opened
      exact ⟨p, by rw [← found]; exact congrArg _ users, position.trans same⟩
    · obtain ⟨p, found, same⟩ := roster.user c' other opened'
      exact ⟨p, by rw [← found]; exact congrArg _ users, same⟩
  alone := by
    have before : ∀ {d other}, (({ S with redis := redis } : System C Name Tag).setPage c page').pages d =
        some other → ∃ old, S.pages d = some old := by
      intro d other opened'
      rcases setPage_cases opened' with ⟨rfl, -⟩ | ⟨-, opened'⟩
      · exact ⟨page, opened⟩
      · exact ⟨other, opened'⟩
    intro d d' other other' opened₁ opened₂ same
    obtain ⟨old, opened₁⟩ := before opened₁
    obtain ⟨old', opened₂⟩ := before opened₂
    exact roster.alone d d' old old' opened₁ opened₂ same
  apart := by
    change ∀ name name' p, redis.users.lookup name = some p → redis.users.lookup name' = some p → _
    rw [users]
    exact roster.apart
  below := by
    change ∀ name p, redis.users.lookup name = some p → p < redis.users.keys.length
    rw [users]
    exact roster.below
  counted := by
    intro c' other opened'
    rcases setPage_cases opened' with ⟨rfl, rfl⟩ | ⟨-, opened'⟩
    · exact counted
    · exact roster.counted c' other opened'
  replied := by
    intro c' other reply opened' answered
    rcases setPage_cases opened' with ⟨rfl, rfl⟩ | ⟨-, opened'⟩
    · exact replied reply answered
    · exact roster.replied c' other reply opened' answered

/-- A login adds one entry at the end. -/
theorem Roster.login (roster : Roster userName lower S) {redis : Redis Name (Batch Tag)} {c : C}
    (free : key userName lower c ∉ S.redis.users.keys)
    (users : redis.users =
      S.redis.users.insert (key userName lower c) S.redis.users.keys.length) {page : Page Tag}
    (position : page.client.userPosition = (S.redis.users.keys.length : Nat))
    (count : page.client.userCount = (S.redis.users.keys.length + 1 : Nat))
    (quiet : ∀ reply, page.beat ≠ .answered reply) :
    Roster userName lower (({ S with redis := redis } : System C Name Tag).setPage c page) := by
  have taken : ∀ {name p}, S.redis.users.lookup name = some p → name ≠ key userName lower c := by
    rintro name p found rfl
    exact free (AList.mem_keys.1 (AList.lookup_isSome.1 (by simp [found])))
  have entries : ∀ {name p}, redis.users.lookup name = some p →
      (name = key userName lower c ∧ p = S.redis.users.keys.length) ∨
        S.redis.users.lookup name = some p := by
    intro name p found
    rw [users] at found
    by_cases same : name = key userName lower c
    · subst same
      rw [AList.lookup_insert] at found
      exact Or.inl ⟨rfl, (Option.some.inj found).symm⟩
    · rw [AList.lookup_insert_ne same] at found
      exact Or.inr found
  have size : redis.users.keys.length = S.redis.users.keys.length + 1 := by
    rw [users, AList.keys_insert, List.erase_of_not_mem free, List.length_cons]
  have kept : ∀ {name p}, S.redis.users.lookup name = some p → redis.users.lookup name = some p := by
    intro name p found
    rw [users, AList.lookup_insert_ne (taken found)]
    exact found
  refine ⟨?_, ?_, ?_, ?_, ?_, ?_⟩
  · intro c' other opened
    rcases setPage_cases opened with ⟨rfl, rfl⟩ | ⟨-, opened⟩
    · exact ⟨S.redis.users.keys.length, by
        change redis.users.lookup _ = _
        rw [users, AList.lookup_insert], position⟩
    · obtain ⟨p, found, same⟩ := roster.user c' other opened
      exact ⟨p, kept found, same⟩
  · intro d d' other other' opened₁ opened₂ same
    rcases setPage_cases opened₁ with ⟨rfl, -⟩ | ⟨-, was₁⟩ <;>
      rcases setPage_cases opened₂ with ⟨rfl, -⟩ | ⟨-, was₂⟩
    · rfl
    · obtain ⟨p, found, -⟩ := roster.user d' other' was₂
      exact absurd same.symm (taken found)
    · obtain ⟨p, found, -⟩ := roster.user d other was₁
      exact absurd same (taken found)
    · exact roster.alone d d' other other' was₁ was₂ same
  · intro name name' p found found'
    rcases entries found with ⟨rfl, rfl⟩ | found <;> rcases entries found' with ⟨rfl, eq⟩ | found'
    · rfl
    · exact absurd (roster.below _ _ found') (lt_irrefl _)
    · exact absurd (eq ▸ roster.below _ _ found) (lt_irrefl _)
    · exact roster.apart name name' p found found'
  · intro name p found
    change p < redis.users.keys.length
    rw [size]
    rcases entries found with ⟨-, rfl⟩ | found
    · exact Nat.lt_succ_self _
    · exact (roster.below name p found).trans (Nat.lt_succ_self _)
  · intro c' other opened
    rcases setPage_cases opened with ⟨rfl, rfl⟩ | ⟨-, opened⟩
    · rw [position, count]
      omega
    · exact roster.counted c' other opened
  · intro c' other reply opened answered
    rcases setPage_cases opened with ⟨rfl, rfl⟩ | ⟨-, opened⟩
    · exact absurd answered (quiet reply)
    · exact roster.replied c' other reply opened answered

theorem Step.roster (step : Step userName lower S evs S') (sound : Sound userName lower τ S) :
    Roster userName lower S' := by
  have roster := sound.roster
  cases step with
  | invalid => exact roster
  | login c closed free => exact roster.login free rfl rfl rfl (by simp)
  | type c page client pos ch tag opened typed =>
      obtain ⟨doc, -, rfl⟩ := Client.insertText_spec typed
      exact roster.setPage rfl opened rfl (roster.counted c page opened)
        fun reply answered => roster.replied c page reply opened answered
  | erase c page positions opened =>
      rw [Client.deletePositions, Client.hideAll_eq]
      exact roster.setPage rfl opened rfl (roster.counted c page opened)
        fun reply answered => roster.replied c page reply opened answered
  | send c page opened ready =>
      exact roster.setPage rfl opened rfl (roster.counted c page opened)
        fun reply answered => roster.replied c page reply opened answered
  | handlePush c page batch ids d opened sent listed =>
      refine roster.setPage ?_ opened rfl (roster.counted c page opened)
        fun reply answered => roster.replied c page reply opened answered
      rfl
  | endPush c page id opened answered =>
      exact roster.setPage rfl opened rfl (roster.counted c page opened)
        fun reply answered => roster.replied c page reply opened answered
  | beat c page opened =>
      exact roster.setPage rfl opened rfl (roster.counted c page opened) (by simp)
  | handleBeat c page last reply position ids own opened sent user listed parsed count place new read =>
      refine roster.setPage rfl opened rfl (roster.counted c page opened) fun answer answered => ?_
      cases answered
      obtain ⟨p, found, same⟩ := roster.user c page opened
      cases user.symm.trans found
      refine ⟨place.trans same.symm, ?_⟩
      rw [place, count]
      exact_mod_cast roster.below _ _ user
  | endBeat c page reply transactions opened answered reordered =>
      obtain ⟨position, small⟩ := roster.replied c page reply opened answered
      obtain ⟨-, -, -, count', position', -, -⟩ := Client.applyBatches_spec
        { page.client with userCount := reply.userCount, userPosition := reply.userPosition } transactions
      refine roster.setPage rfl opened (position'.trans position) ?_ (by simp)
      exact (position'.trans_lt small).trans_eq count'.symm

/-! ## The log -/

/-- A step that stores nothing. -/
def Unstored (evs : List (Event C Tag)) : Prop := ∀ c id batch, Event.stored c id batch ∉ evs

theorem stored_append (unstored : Unstored evs) {c : C} {id : Nat} {batch : Batch Tag} :
    Event.stored c id batch ∈ τ ++ evs ↔ Event.stored c id batch ∈ τ := by
  rw [List.mem_append, or_iff_left (unstored c id batch)]

theorem Log.setPage (log : Log userName lower τ S) {c : C} {page page' : Page Tag}
    (opened : S.pages c = some page) (unstored : Unstored evs) (local_ : ∀ e ∈ evs, e.client = c) :
    Log userName lower (τ ++ evs) (S.setPage c page') where
  own := by
    intro c' other opened'
    have before : ∃ old, S.pages c' = some old := by
      rcases setPage_cases opened' with ⟨rfl, -⟩ | ⟨-, opened'⟩
      · exact ⟨page, opened⟩
      · exact ⟨other, opened'⟩
    obtain ⟨old, before⟩ := before
    obtain ⟨ids, list, listed, parsed, exact_ids⟩ := log.own c' old before
    refine ⟨ids, list, listed, parsed, fun id => ?_⟩
    simp only [stored_append unstored]
    exact exact_ids id
  changes := fun id batch found => by
    obtain ⟨u, stored⟩ := log.changes id batch found
    exact ⟨u, (stored_append unstored).2 stored⟩
  counter := fun u id batch stored => log.counter u id batch ((stored_append unstored).1 stored)
  authors := fun e member => by
    rcases List.mem_append.1 member with old | new
    · obtain ⟨was, opened'⟩ := log.authors e old
      exact setPage_opened opened'
    · rw [local_ e new]
      exact setPage_opened opened

theorem Step.log (step : Step userName lower S evs S') (sound : Sound userName lower τ S) :
    Log userName lower (τ ++ evs) S' := by
  have log := sound.log
  cases step with
  | invalid => simpa using log
  | login c closed free =>
      rw [List.append_nil]
      refine ⟨fun c' other opened => ?_, log.changes, log.counter, fun e member => ?_⟩
      · rcases setPage_cases opened with ⟨rfl, -⟩ | ⟨ne, opened⟩
        · refine ⟨[], [], AList.lookup_insert _, ownIds_nil, fun id => ?_⟩
          -- a closed page has pushed nothing
          have none_stored : ¬ ∃ batch, Event.stored c' id batch ∈ τ := by
            rintro ⟨batch, stored⟩
            obtain ⟨page, opened'⟩ := log.authors _ stored
            rw [show (Event.stored c' id batch).client = c' from rfl, closed] at opened'
            cases opened'
          simpa using none_stored
        · obtain ⟨position, found, -⟩ := sound.roster.user c' other opened
          have taken : key userName lower c' ≠ key userName lower c := fun same =>
            free (same ▸ AList.mem_keys.1 (AList.lookup_isSome.1 (by simp [found])))
          obtain ⟨ids, list, listed, rest⟩ := log.own c' other opened
          exact ⟨ids, list, (AList.lookup_insert_ne taken).trans listed, rest⟩
      · obtain ⟨was, opened⟩ := log.authors e member
        exact setPage_opened opened
  | type c page client pos ch tag opened typed =>
      exact log.setPage opened (by simp [Unstored]) (by simp [Event.client])
  | erase c page positions opened =>
      exact log.setPage opened (by simp [Unstored]) (by simp [Event.client])
  | send c page opened ready => exact log.setPage opened (by simp [Unstored]) (by simp)
  | endPush c page id opened answered => exact log.setPage opened (by simp [Unstored]) (by simp)
  | beat c page opened => exact log.setPage opened (by simp [Unstored]) (by simp)
  | handleBeat c page last reply position ids own opened sent user listed parsed count place new read =>
      exact log.setPage opened (by simp [Unstored]) (by simp)
  | endBeat c page reply transactions opened answered reordered =>
      refine log.setPage opened (by simp [Unstored]) fun e member => ?_
      obtain ⟨t, -, rfl⟩ := List.mem_map.1 member
      rfl
  | handlePush c page batch ids d opened sent listed =>
      generalize id_eq : intValue (some (intValue S.redis.id + 1)) = id
      have grows : intValue S.redis.id ≤ id := id_eq ▸ le_intValue_succ S.redis.id
      refine ⟨fun c' other opened' => ?_, fun i b found => ?_, fun u i b stored => ?_,
        fun e member => ?_⟩
      · rcases setPage_cases opened' with ⟨rfl, -⟩ | ⟨ne, opened'⟩
        · obtain ⟨ids', list, listed', parsed, exact_ids⟩ := log.own c' page opened
          cases listed.symm.trans listed'
          refine ⟨_, _, AList.lookup_insert _, ownIds_recorded parsed id, fun i => ?_⟩
          rw [List.mem_append, exact_ids, List.mem_singleton]
          constructor
          · rintro (⟨b, stored⟩ | rfl)
            · exact ⟨b, by simp [stored]⟩
            · exact ⟨batch, by simp⟩
          · rintro ⟨b, stored⟩
            rcases List.mem_append.1 stored with old | new
            · exact Or.inl ⟨b, old⟩
            · cases List.mem_singleton.1 new
              exact Or.inr rfl
        · have apart : key userName lower c' ≠ key userName lower c := fun same =>
            ne (sound.roster.alone c' c other page opened' opened same)
          obtain ⟨ids', list, listed', parsed, exact_ids⟩ := log.own c' other opened'
          refine ⟨ids', list, (AList.lookup_insert_ne apart).trans listed', parsed, fun i => ?_⟩
          rw [exact_ids]
          simp [ne]
      · change (S.redis.changes.insert id batch).lookup i = some b at found
        by_cases same : i = id
        · subst same
          rw [AList.lookup_insert] at found
          cases found
          exact ⟨c, by simp⟩
        · rw [AList.lookup_insert_ne same] at found
          obtain ⟨u, stored⟩ := log.changes i b found
          exact ⟨u, by simp [stored]⟩
      · change i ≤ intValue (some (intValue S.redis.id + 1))
        rw [id_eq]
        rcases List.mem_append.1 stored with old | new
        · exact (log.counter u i b old).trans grows
        · cases List.mem_singleton.1 new
          exact le_rfl
      · rcases List.mem_append.1 member with old | new
        · obtain ⟨was, opened'⟩ := log.authors e old
          exact setPage_opened opened'
        · cases List.mem_singleton.1 new
          exact setPage_opened opened

/-! ## The mail -/

/-- Every batch that is applied is one of the reply's, in another order. -/
theorem System.Reorders.source {transactions : List (Nat × List (Tag × CharCode))}
    {reply : HeartbeatReply (Batch Tag)} (reordered : System.Reorders transactions reply)
    {t : Nat × List (Tag × CharCode)} (member : t ∈ transactions) :
    ∃ stored ∈ reply.transactions, stored.1 = t.1 ∧ t.2.Perm stored.2.pairs := by
  unfold System.Reorders at reordered
  generalize reply.transactions = stored at reordered ⊢
  induction reordered with
  | nil => simp at member
  | cons here _ ih =>
      rcases List.mem_cons.1 member with rfl | later
      · exact ⟨_, by simp, here.1.symm, here.2⟩
      · obtain ⟨stored, inReply, rest⟩ := ih later
        exact ⟨stored, by simp [inReply], rest⟩

/-- A step of one page keeps the mail if the page's own part is in order. -/
theorem Mail.setPage (mail : Mail τ S) {redis : Redis Name (Batch Tag)} {c : C} {page' : Page Tag}
    (ready : page'.client.acknowledged = true → page'.push = .idle)
    (asked : ∀ last, page'.beat = .sent last → last = page'.client.lastReceivedGreatestSeqNum)
    (answered : ∀ reply, page'.beat = .answered reply →
      (reply.transactions.map Prod.fst).Pairwise (· < ·) ∧
        ∀ t ∈ reply.transactions, page'.client.lastReceivedGreatestSeqNum < t.1 ∧
          ∃ u, u ≠ c ∧ Event.stored u t.1 t.2 ∈ τ)
    (old : ∀ id entries, Event.applied c id entries ∈ τ →
      (id : Int) ≤ page'.client.lastReceivedGreatestSeqNum ∧
        ∃ u batch, u ≠ c ∧ Event.stored u id batch ∈ τ ∧ entries.Perm batch.pairs)
    (new : ∀ c' id entries, Event.applied c' id entries ∈ evs → c' = c ∧
      (id : Int) ≤ page'.client.lastReceivedGreatestSeqNum ∧
        ∃ u batch, u ≠ c ∧ Event.stored u id batch ∈ τ ∧ entries.Perm batch.pairs) :
    Mail (τ ++ evs) (({ S with redis := redis } : System C Name Tag).setPage c page') where
  ready := by
    intro c' other opened flag
    rcases setPage_cases opened with ⟨rfl, rfl⟩ | ⟨-, opened⟩
    · exact ready flag
    · exact mail.ready c' other opened flag
  asked := by
    intro c' other last opened sent
    rcases setPage_cases opened with ⟨rfl, rfl⟩ | ⟨-, opened⟩
    · exact asked last sent
    · exact mail.asked c' other last opened sent
  answered := by
    have later : ∀ {d : C} {other : Page Tag} {reply : HeartbeatReply (Batch Tag)},
        (reply.transactions.map Prod.fst).Pairwise (· < ·) ∧
          (∀ t ∈ reply.transactions, other.client.lastReceivedGreatestSeqNum < t.1 ∧
            ∃ u, u ≠ d ∧ Event.stored u t.1 t.2 ∈ τ) →
        (reply.transactions.map Prod.fst).Pairwise (· < ·) ∧
          ∀ t ∈ reply.transactions, other.client.lastReceivedGreatestSeqNum < t.1 ∧
            ∃ u, u ≠ d ∧ Event.stored u t.1 t.2 ∈ τ ++ evs := by
      rintro d other reply ⟨ascending, each⟩
      refine ⟨ascending, fun t member => ?_⟩
      obtain ⟨above, u, ne, stored⟩ := each t member
      exact ⟨above, u, ne, List.mem_append_left _ stored⟩
    intro c' other reply opened arrived
    rcases setPage_cases opened with ⟨rfl, rfl⟩ | ⟨-, opened⟩
    · exact later (answered reply arrived)
    · exact later (mail.answered c' other reply opened arrived)
  applied := by
    intro c' id entries member other opened
    have source : ∀ d, (∃ u batch, u ≠ d ∧ Event.stored u id batch ∈ τ ∧ entries.Perm batch.pairs) →
        ∃ u batch, u ≠ d ∧ Event.stored u id batch ∈ τ ++ evs ∧ entries.Perm batch.pairs := by
      rintro d ⟨u, batch, ne, stored, perm⟩
      exact ⟨u, batch, ne, List.mem_append_left _ stored, perm⟩
    rcases List.mem_append.1 member with before | now
    · rcases setPage_cases opened with ⟨rfl, rfl⟩ | ⟨-, opened⟩
      · obtain ⟨le, from_⟩ := old id entries before
        exact ⟨le, source _ from_⟩
      · obtain ⟨le, from_⟩ := mail.applied c' id entries before other opened
        exact ⟨le, source _ from_⟩
    · obtain ⟨rfl, le, from_⟩ := new c' id entries now
      rcases setPage_cases opened with ⟨-, rfl⟩ | ⟨ne, -⟩
      · exact ⟨le, source _ from_⟩
      · exact absurd rfl ne

theorem Step.mail (step : Step userName lower S evs S') (sound : Sound userName lower τ S) :
    Mail (τ ++ evs) S' := by
  have mail := sound.mail
  cases step with
  | invalid => simpa using mail
  | login c closed free =>
      -- a closed page has applied nothing
      have none_applied : ∀ id entries, Event.applied c id entries ∉ τ := by
        intro id entries member
        obtain ⟨page, opened⟩ := sound.log.authors _ member
        rw [show (Event.applied c id entries).client = c from rfl, closed] at opened
        cases opened
      exact mail.setPage (by simp) (by simp) (by simp)
        (fun id entries member => absurd member (none_applied id entries)) (by simp)
  | type c page client pos ch tag opened typed =>
      obtain ⟨doc, -, rfl⟩ := Client.insertText_spec typed
      exact mail.setPage (mail.ready c page opened) (fun last => mail.asked c page last opened)
        (fun reply => mail.answered c page reply opened)
        (fun id entries member => mail.applied c id entries member page opened) (by simp)
  | erase c page positions opened =>
      rw [Client.deletePositions, Client.hideAll_eq]
      exact mail.setPage (mail.ready c page opened) (fun last => mail.asked c page last opened)
        (fun reply => mail.answered c page reply opened)
        (fun id entries member => mail.applied c id entries member page opened) (by simp)
  | send c page opened ready =>
      exact mail.setPage (by simp) (fun last => mail.asked c page last opened)
        (fun reply => mail.answered c page reply opened)
        (fun id entries member => mail.applied c id entries member page opened) (by simp)
  | handlePush c page batch ids d opened sent listed =>
      refine mail.setPage (fun flag => ?_) (fun last => mail.asked c page last opened)
        (fun reply => mail.answered c page reply opened)
        (fun id entries member => mail.applied c id entries member page opened) (by simp)
      rw [mail.ready c page opened flag] at sent
      cases sent
  | endPush c page id opened answered =>
      exact mail.setPage (by simp) (fun last => mail.asked c page last opened)
        (fun reply => mail.answered c page reply opened)
        (fun id entries member => mail.applied c id entries member page opened) (by simp)
  | beat c page opened =>
      exact mail.setPage (mail.ready c page opened) (by simp) (by simp)
        (fun id entries member => mail.applied c id entries member page opened) (by simp)
  | handleBeat c page last reply position ids own opened sent user listed parsed count place new read =>
      refine mail.setPage (mail.ready c page opened) (by simp) (fun answer arrived => ?_)
        (fun id entries member => mail.applied c id entries member page opened) (by simp)
      cases arrived
      have cursor := mail.asked c page last opened sent
      refine ⟨new ▸ newIds_sorted S.redis.changes.nodupKeys, fun t member => ?_⟩
      have fresh : t.1 ∈ newIds S.redis.changes.keys last own := new ▸ List.mem_map_of_mem member
      obtain ⟨-, above, not_own⟩ := mem_newIds.1 fresh
      refine ⟨cursor ▸ above, ?_⟩
      obtain ⟨u, stored⟩ := sound.log.changes t.1 t.2 (read t member)
      refine ⟨u, ?_, stored⟩
      -- what the page pushed itself is in its own list
      rintro rfl
      obtain ⟨ids', list, listed', parsed', exact_ids⟩ := sound.log.own u page opened
      cases listed.symm.trans listed'
      cases parsed.symm.trans parsed'
      exact not_own ((exact_ids t.1).2 ⟨t.2, stored⟩)
  | endBeat c page reply transactions opened answered reordered =>
      obtain ⟨-, each⟩ := mail.answered c page reply opened answered
      obtain ⟨-, -, flag, -, -, grows, reaches⟩ := Client.applyBatches_spec
        { page.client with userCount := reply.userCount, userPosition := reply.userPosition } transactions
      refine mail.setPage (fun ready => mail.ready c page opened (flag ▸ ready)) (by simp) (by simp)
        (fun id entries member => ?_) (fun c' id entries member => ?_)
      · obtain ⟨le, source⟩ := mail.applied c id entries member page opened
        exact ⟨le.trans grows, source⟩
      · obtain ⟨t, inReply, same⟩ := List.mem_map.1 member
        cases same
        refine ⟨rfl, reaches t inReply, ?_⟩
        obtain ⟨stored, inStored, same_id, perm⟩ := reordered.source inReply
        obtain ⟨-, u, ne, logged⟩ := each stored inStored
        exact ⟨u, stored.2, ne, same_id ▸ logged, perm⟩

/-! ## Runs -/

theorem sound_init : Sound userName lower ([] : List (Event C Tag)) System.init where
  roster := by constructor <;> simp [System.init, Redis.empty]
  log := by constructor <;> simp [System.init, Redis.empty]
  mail := by constructor <;> simp [System.init]

theorem Step.sound (step : Step userName lower S evs S') (sound : Sound userName lower τ S) :
    Sound userName lower (τ ++ evs) S' :=
  ⟨step.roster sound, step.log sound, step.mail sound⟩

/-- **The session is sound in every run.** -/
theorem sound_of_run (run : System.Run userName lower τ S) : Sound userName lower τ S :=
  Machine.Run.invariant sound_init
    (fun _ sound taken => (steps sound taken).sound sound) run

/-- The induction over the runs whose trace meets a condition: what holds at the
start and survives every `Step` from a sound state holds in the run. -/
theorem Run.induct {P : List (Event C Tag) → Prop}
    {I : List (Event C Tag) → System C Name Tag → Prop}
    (prefixes : ∀ {τ evs}, P (τ ++ evs) → P τ) (start : I [] System.init)
    (step : ∀ {τ S evs S'}, Sound userName lower τ S → P (τ ++ evs) → I τ S →
      Step userName lower S evs S' → I (τ ++ evs) S')
    (run : System.Run userName lower τ S) (holds : P τ) : I τ S :=
  Machine.Run.guarded prefixes start
    (fun before holds inv taken => step (sound_of_run before) holds inv
      (steps (sound_of_run before) taken)) run holds

end Steps

end ColabEdit.Session
