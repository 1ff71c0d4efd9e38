/-
# ColabEdit.Session.Progress -- nothing blocks a page for good

What the pages of a session and its server can always do next.

* `served_of_run`: the server of a session runs the requests of
  `ColabEdit.Server.Requests` one at a time, so its log is exact (`exact_of_run`).
* `Ready`: the flag never blocks a page that has no push under way.
* `Heard`: a page has applied all batches of others up to its cursor, and a reply
  under way leaves none out.
* `handles_push`, `handles_beat` and `ends_beat`: no request of a page is refused, and
  every reply can be applied.
-/
import ColabEdit.Server.Requests
import ColabEdit.Session.Convergence

namespace ColabEdit.Session

open ColabEdit.Browser ColabEdit.Server ColabEdit.Theory

set_option autoImplicit false
set_option linter.unusedSectionVars false

section Progress

variable {C Name Tag Num : Type} [DecidableEq C] [DecidableEq Name] [LinearOrder Tag] [BigNum Num]
  [BigTag Tag Num] {userName : C → Name} {lower : Name → Name} {τ evs : List (Event C Tag)}
  {S S' : System C Name Tag} {c u : C} {page page' : Page Tag}

/-! ## The server of a session -/

variable (userName lower) in
/-- The batches that were stored, as the server counts them. -/
def pushes (τ : List (Event C Tag)) : List (Requests.Push Name (Batch Tag)) :=
  τ.filterMap fun
    | .stored c id batch => some ⟨key userName lower c, batch, id⟩
    | _ => none

theorem pushes_append : pushes userName lower (τ ++ evs) = pushes userName lower τ ++ pushes userName lower evs :=
  List.filterMap_append

theorem pushes_unstored (unstored : Unstored evs) : pushes userName lower evs = [] := by
  refine List.filterMap_eq_nil_iff.2 fun e member => ?_
  cases e with
  | stored c id batch => exact absurd member (unstored c id batch)
  | inserted => rfl
  | deleted => rfl
  | applied => rfl

variable (userName lower) in
theorem mem_pushes {id : Nat} {batch : Batch Tag} (stored : Event.stored u id batch ∈ τ) :
    (⟨key userName lower u, batch, id⟩ : Requests.Push Name (Batch Tag)) ∈ pushes userName lower τ :=
  List.mem_filterMap.2 ⟨_, stored, rfl⟩

/-- The requests that the server has handled. -/
structure Served (userName : C → Name) (lower : Name → Name) (empty : Name)
    (e : List (Requests.Event Name (Batch Tag))) (τ : List (Event C Tag)) (S : System C Name Tag) : Prop where
  run : Requests.Run lower empty e S.redis
  allowed : Machine.Each (Requests.Allowed lower) [] e
  pushes : Requests.pushes lower e = pushes userName lower τ
  accepted : ∀ c page, S.pages c = some page → Requests.Accepted lower e (userName c)

namespace Served

variable {empty : Name} {e : List (Requests.Event Name (Batch Tag))}

theorem start : Served userName lower empty [] ([] : List (Event C Tag)) System.init where
  run := .start
  allowed := trivial
  pushes := rfl
  accepted := nofun

/-- The server is not asked. -/
theorem quiet (served : Served userName lower empty e τ S) (redis : S'.redis = S.redis) (unstored : Unstored evs)
    (opened : ∀ c page', S'.pages c = some page' → ∃ page, S.pages c = some page) :
    Served userName lower empty e (τ ++ evs) S' := by
  refine ⟨redis ▸ served.run, served.allowed, ?_, fun c page' now => ?_⟩
  · rw [served.pushes, pushes_append, pushes_unstored unstored, List.append_nil]
  · obtain ⟨page, before⟩ := opened c page' now
    exact served.accepted c page before

/-- The server handles a request. -/
theorem next (served : Served userName lower empty e τ S) {r : Server.Request Name (Batch Tag)}
    {answered : Requests.Event Name (Batch Tag)}
    (ran : Requests.step lower empty S.redis r = some (S'.redis, [answered]))
    (allowed : Requests.Allowed lower e answered)
    (same : (Requests.pushed lower answered).toList = Session.pushes userName lower evs)
    (accepted : ∀ c page', S'.pages c = some page' → Requests.Accepted lower (e ++ [answered]) (userName c)) :
    Served userName lower empty (e ++ [answered]) (τ ++ evs) S' := by
  refine ⟨served.run.next ran, Machine.each_append.2 ⟨served.allowed, allowed, trivial⟩, ?_, accepted⟩
  rw [Requests.pushes_append, served.pushes, pushes_append, ← same, Requests.pushes]
  cases pushed : Requests.pushed lower answered <;> simp [pushed]

/-- A step asks the server at most once. -/
theorem step (served : Served userName lower empty e τ S) {a : Action C Tag}
    (taken : System.step userName lower S a = some (S', evs)) :
    ∃ e', Served userName lower empty e' (τ ++ evs) S' := by
  -- the page of a step was open, and so were the others
  have still : ∀ {redis : Redis Name (Batch Tag)} {c : C} {page page' : Page Tag}, S.pages c = some page →
      ∀ d other, (({ S with redis := redis } : System C Name Tag).setPage c page').pages d = some other →
        ∃ before, S.pages d = some before := by
    intro redis c page page' opened d other now
    rcases setPage_cases now with ⟨rfl, -⟩ | ⟨-, before⟩
    · exact ⟨page, opened⟩
    · exact ⟨other, before⟩
  have kept : ∀ {answered : Requests.Event Name (Batch Tag)}, (∀ d other, S'.pages d = some other →
      ∃ before, S.pages d = some before) →
      ∀ d other, S'.pages d = some other → Requests.Accepted lower (e ++ [answered]) (userName d) := by
    intro answered opened d other now
    obtain ⟨before, open_⟩ := opened d other now
    exact (served.accepted d before open_).append
  cases a with
  | login c =>
      simp only [System.step] at taken
      split at taken
      · cases taken
      · split at taken
        · rename_i closed count position redis ran
          cases taken
          have handled : Requests.step lower empty S.redis (.login (userName c)) =
              some (redis, [.login (userName c) (some (some (count, position)))]) := by
            simp only [Requests.step, ran]
          refine ⟨_, served.next handled trivial rfl fun d other now => ?_⟩
          rcases setPage_cases now with ⟨rfl, -⟩ | ⟨-, before⟩
          · exact ⟨userName d, (count, position), by simp, rfl⟩
          · exact (served.accepted d other before).append
        · rename_i closed _ answer redis refused ran
          cases taken
          have handled : Requests.step lower empty S.redis (.login (userName c)) =
              some (redis, [.login (userName c) answer]) := by
            simp only [Requests.step, ran]
          exact ⟨_, served.next handled trivial rfl fun d other before => (served.accepted d other before).append⟩
  | type c pos ch =>
      simp only [System.step] at taken
      split at taken
      · cases taken
      · rename_i page opened
        split at taken
        · cases taken
        · cases taken
          exact ⟨e, served.quiet rfl (by simp [Unstored]) (still opened)⟩
  | erase c positions =>
      simp only [System.step] at taken
      split at taken
      · cases taken
      · rename_i page opened
        cases taken
        exact ⟨e, served.quiet rfl (by simp [Unstored]) (still opened)⟩
  | send c =>
      simp only [System.step] at taken
      split at taken
      · cases taken
      · rename_i page opened
        split at taken
        · cases taken
        · cases taken
          exact ⟨e, served.quiet rfl (by simp [Unstored]) (still opened)⟩
  | handlePush c =>
      simp only [System.step] at taken
      split at taken
      · cases taken
      · rename_i page opened
        split at taken
        · rename_i batch sent
          split at taken
          · cases taken
          · rename_i id redis ran
            cases taken
            have handled : Requests.step lower empty S.redis (.sendChanges (userName c) batch) =
                some (redis, [.sendChanges (userName c) batch (some id)]) := by
              simp only [Requests.step, ran]
            exact ⟨_, served.next handled (served.accepted c page opened) rfl (kept (still opened))⟩
        · cases taken
  | endPush c =>
      simp only [System.step] at taken
      split at taken
      · cases taken
      · rename_i page opened
        split at taken
        · cases taken
          exact ⟨e, served.quiet rfl (by simp [Unstored]) (still opened)⟩
        · cases taken
  | beat c =>
      simp only [System.step] at taken
      split at taken
      · cases taken
      · rename_i page opened
        split at taken
        · cases taken
          exact ⟨e, served.quiet rfl (by simp [Unstored]) (still opened)⟩
        · cases taken
  | handleBeat c =>
      simp only [System.step] at taken
      split at taken
      · cases taken
      · rename_i page opened
        split at taken
        · rename_i last sent
          split at taken
          · cases taken
          · rename_i reply redis ran
            cases taken
            have handled : Requests.step lower empty S.redis (.heartbeat (userName c) last) =
                some (redis, [.heartbeat (userName c) last (some reply)]) := by
              simp only [Requests.step, ran]
            exact ⟨_, served.next handled (served.accepted c page opened) rfl (kept (still opened))⟩
        · cases taken
  | endBeat c transactions =>
      simp only [System.step] at taken
      split at taken
      · cases taken
      · rename_i page opened
        split at taken
        · split at taken
          · cases taken
            exact ⟨e, served.quiet rfl (by simp [Unstored]) (still opened)⟩
          · cases taken
        · cases taken

end Served

/-- **The server of a session handles one request after the other.** -/
theorem served_of_run (run : System.Run userName lower τ S) (empty : Name) :
    ∃ e, Served userName lower empty e τ S := by
  refine Machine.Run.invariant (I := fun τ S => ∃ e, Served userName lower empty e τ S) ⟨[], .start⟩ ?_ run
  intro τ S a S' evs _ before taken
  obtain ⟨e, served⟩ := before
  exact served.step taken

/-- Its log is exact. -/
theorem exact_of_run (run : System.Run userName lower τ S) (few : (pushes userName lower τ).length < 2 ^ 53)
    (empty : Name) :
    ∃ e, Requests.Exact lower e S.redis ∧ Requests.pushes lower e = pushes userName lower τ ∧
      ∀ c page, S.pages c = some page → Requests.Accepted lower e (userName c) := by
  obtain ⟨e, served⟩ := served_of_run run empty
  exact ⟨e, Requests.exact_of_run served.run served.allowed (served.pushes ▸ few), served.pushes, served.accepted⟩

/-! ## What a page has heard -/

/-- Without a push under way a page may send. -/
def Ready (S : System C Name Tag) : Prop :=
  ∀ c page, S.pages c = some page → page.push = .idle → page.client.acknowledged = true

theorem Ready.setPage (ready : Ready S) {redis : Redis Name (Batch Tag)}
    (here : page'.push = .idle → page'.client.acknowledged = true) :
    Ready (({ S with redis := redis } : System C Name Tag).setPage c page') := by
  intro c' other opened idle
  rcases setPage_cases opened with ⟨-, rfl⟩ | ⟨-, opened⟩
  · exact here idle
  · exact ready c' other opened idle

theorem Step.ready (step : Step userName lower S evs S') (ready : Ready S) : Ready S' := by
  cases step with
  | invalid => exact ready
  | login c closed free => exact ready.setPage fun _ => rfl
  | type c page client pos ch tag opened typed =>
      obtain ⟨doc, -, rfl⟩ := Client.insertText_spec typed
      exact ready.setPage (ready c page opened)
  | erase c page positions opened =>
      rw [Client.deletePositions, Client.hideAll_eq]
      exact ready.setPage (ready c page opened)
  | send c page opened flag => exact ready.setPage fun idle => by cases idle
  | handlePush c page batch ids d opened sent listed => exact ready.setPage fun idle => by cases idle
  | endPush c page id opened answered => exact ready.setPage fun _ => rfl
  | beat c page opened => exact ready.setPage (ready c page opened)
  | handleBeat c page last reply position ids own opened => exact ready.setPage (ready c page opened)
  | endBeat c page reply transactions opened answered reordered =>
      obtain ⟨-, -, flag, -⟩ := Client.applyBatches_spec
        { page.client with userCount := reply.userCount, userPosition := reply.userPosition } transactions
      exact ready.setPage fun idle => flag.trans (ready c page opened idle)

variable (userName lower) in
/-- A page has applied what others stored up to its cursor, and a reply under way
reaches as far as it says. -/
structure Heard (τ : List (Event C Tag)) (S : System C Name Tag) : Prop where
  below : ∀ c page, S.pages c = some page →
    page.client.lastReceivedGreatestSeqNum ≤ (pushes userName lower τ).length
  complete : ∀ c page, S.pages c = some page → ∀ u id batch, u ≠ c → Event.stored u id batch ∈ τ →
    (id : Int) ≤ page.client.lastReceivedGreatestSeqNum →
      ∃ entries, Event.applied c id entries ∈ τ ∧ entries.Perm batch.pairs
  answered : ∀ c page reply, S.pages c = some page → page.beat = .answered reply → ∀ t ∈ reply.transactions,
    ∀ u id batch, u ≠ c → Event.stored u id batch ∈ τ → page.client.lastReceivedGreatestSeqNum < id → id ≤ t.1 →
      (id, batch) ∈ reply.transactions

/-- A step of one page that stores nothing. -/
theorem Heard.setPage (heard : Heard userName lower τ S) (redis : Redis Name (Batch Tag)) (unstored : Unstored evs)
    (below : page'.client.lastReceivedGreatestSeqNum ≤ (pushes userName lower τ).length)
    (complete : ∀ u id batch, u ≠ c → Event.stored u id batch ∈ τ →
      (id : Int) ≤ page'.client.lastReceivedGreatestSeqNum →
        ∃ entries, Event.applied c id entries ∈ τ ++ evs ∧ entries.Perm batch.pairs)
    (answered : ∀ reply, page'.beat = .answered reply → ∀ t ∈ reply.transactions,
      ∀ u id batch, u ≠ c → Event.stored u id batch ∈ τ → page'.client.lastReceivedGreatestSeqNum < id → id ≤ t.1 →
        (id, batch) ∈ reply.transactions) :
    Heard userName lower (τ ++ evs) (({ S with redis := redis } : System C Name Tag).setPage c page') := by
  have before : ∀ {u id batch}, Event.stored u id batch ∈ τ ++ evs → Event.stored u id batch ∈ τ :=
    fun member => (List.mem_append.1 member).resolve_right (unstored _ _ _)
  have same : pushes userName lower (τ ++ evs) = pushes userName lower τ := by
    rw [pushes_append, pushes_unstored unstored, List.append_nil]
  refine ⟨fun d other opened => ?_, fun d other opened u id batch ne stored le => ?_,
    fun d other reply opened arrived t member u id batch ne stored => ?_⟩
  · rw [same]
    rcases setPage_cases opened with ⟨-, rfl⟩ | ⟨-, opened⟩
    · exact below
    · exact heard.below d other opened
  · rcases setPage_cases opened with ⟨rfl, rfl⟩ | ⟨-, opened⟩
    · exact complete u id batch ne (before stored) le
    · obtain ⟨entries, applied, perm⟩ := heard.complete d other opened u id batch ne (before stored) le
      exact ⟨entries, List.mem_append_left _ applied, perm⟩
  · rcases setPage_cases opened with ⟨rfl, rfl⟩ | ⟨-, opened⟩
    · exact answered reply arrived t member u id batch ne (before stored)
    · exact heard.answered d other reply opened arrived t member u id batch ne (before stored)

/-- A step of one page that leaves its cursor and its heartbeat alone. -/
theorem Heard.keep (heard : Heard userName lower τ S) (opened : S.pages c = some page) (unstored : Unstored evs)
    (cursor : page'.client.lastReceivedGreatestSeqNum = page.client.lastReceivedGreatestSeqNum)
    (beat : ∀ reply, page'.beat = .answered reply → page.beat = .answered reply) :
    Heard userName lower (τ ++ evs) (S.setPage c page') := by
  refine heard.setPage S.redis unstored (cursor ▸ heard.below c page opened) ?_ ?_
  · intro u id batch ne stored le
    rw [cursor] at le
    obtain ⟨entries, applied, perm⟩ := heard.complete c page opened u id batch ne stored le
    exact ⟨entries, List.mem_append_left _ applied, perm⟩
  · intro reply arrived t member u id batch ne stored above
    rw [cursor] at above
    exact heard.answered c page reply opened (beat reply arrived) t member u id batch ne stored above

/-- A batch that is stored is above every cursor, and above what is under way. -/
theorem Heard.store (heard : Heard userName lower τ S) (sound : Sound userName lower τ S) {redis : Redis Name (Batch Tag)}
    {batch : Batch Tag} (opened : S.pages c = some page)
    (stored : ∀ {u id batch}, Event.stored u id batch ∈ τ → id ≤ (pushes userName lower τ).length) :
    Heard userName lower (τ ++ [.stored c ((pushes userName lower τ).length + 1) batch])
      (({ S with redis := redis } : System C Name Tag).setPage c
        { page with push := .answered ((pushes userName lower τ).length + 1) }) := by
  have grown : (pushes userName lower (τ ++ [.stored c ((pushes userName lower τ).length + 1) batch])).length =
      (pushes userName lower τ).length + 1 := by
    rw [pushes_append, List.length_append]
    rfl
  -- the pages have the cursors and the replies they had
  have before : ∀ d other, (({ S with redis := redis } : System C Name Tag).setPage c
      { page with push := .answered ((pushes userName lower τ).length + 1) }).pages d = some other →
        ∃ old, S.pages d = some old ∧ other.client = old.client ∧ other.beat = old.beat := by
    intro d other now
    rcases setPage_cases now with ⟨rfl, rfl⟩ | ⟨-, old⟩
    · exact ⟨page, opened, rfl, rfl⟩
    · exact ⟨other, old, rfl, rfl⟩
  refine ⟨fun d other now => ?_, fun d other now u id b ne member le => ?_,
    fun d other reply now arrived t inReply u id b ne member above reach => ?_⟩
  · obtain ⟨old, opened, client, -⟩ := before d other now
    have := heard.below d old opened
    rw [client, grown]
    omega
  · obtain ⟨old, opened, client, -⟩ := before d other now
    rw [client] at le
    have below := heard.below d old opened
    rcases List.mem_append.1 member with earlier | last
    · obtain ⟨entries, applied, perm⟩ := heard.complete d old opened u id b ne earlier le
      exact ⟨entries, List.mem_append_left _ applied, perm⟩
    · cases List.mem_singleton.1 last
      omega
  · obtain ⟨old, opened, client, beat⟩ := before d other now
    rw [beat] at arrived
    rw [client] at above
    rcases List.mem_append.1 member with earlier | last
    · exact heard.answered d old reply opened arrived t inReply u id b ne earlier above reach
    · cases List.mem_singleton.1 last
      obtain ⟨-, v, -, logged⟩ := (sound.mail.answered d old reply opened arrived).2 t inReply
      have := stored logged
      omega

/-- A stored batch has its id for itself, and it is in `changes`. -/
theorem stored_spec {e : List (Requests.Event Name (Batch Tag))} (exact_ : Requests.Exact lower e S.redis)
    (same : Requests.pushes lower e = pushes userName lower τ) {id : Nat} {batch : Batch Tag}
    (stored : Event.stored u id batch ∈ τ) :
    id ≤ (pushes userName lower τ).length ∧ S.redis.changes.lookup id = some batch := by
  have member := mem_pushes userName lower stored
  rw [← same] at member ⊢
  exact ⟨(exact_.fresh member).2, (exact_.stored id batch).2 ⟨_, member, rfl, rfl⟩⟩

theorem stored_author {e : List (Requests.Event Name (Batch Tag))} (exact_ : Requests.Exact lower e S.redis)
    (same : Requests.pushes lower e = pushes userName lower τ) (sound : Sound userName lower τ S) {v : C} {id : Nat}
    {batch batch' : Batch Tag} (stored : Event.stored u id batch ∈ τ) (stored' : Event.stored v id batch' ∈ τ) :
    u = v := by
  have member := mem_pushes userName lower stored
  have member' := mem_pushes userName lower stored'
  rw [← same] at member member'
  obtain ⟨page, opened⟩ := sound.log.authors _ stored
  obtain ⟨other, opened'⟩ := sound.log.authors _ stored'
  exact sound.roster.alone u v page other opened opened'
    (congrArg Requests.Push.user (exact_.unique member member' rfl))

/-- A heartbeat answers everything above its cursor. -/
theorem answers_all {e : List (Requests.Event Name (Batch Tag))} (exact_ : Requests.Exact lower e S.redis)
    (same : Requests.pushes lower e = pushes userName lower τ) (sound : Sound userName lower τ S)
    (opened : S.pages c = some page) {last : Int} {reply : HeartbeatReply (Batch Tag)} {ids : List Char} {own : List Nat}
    (listed : S.redis.userChanges.lookup (key userName lower c) = some ids) (parsed : ownIds ids = some own)
    (new : reply.transactions.map Prod.fst = newIds S.redis.changes.keys last own)
    (read : ∀ t ∈ reply.transactions, S.redis.changes.lookup t.1 = some t.2) {id : Nat} {batch : Batch Tag}
    (ne : u ≠ c) (stored : Event.stored u id batch ∈ τ) (above : last < id) : (id, batch) ∈ reply.transactions := by
  obtain ⟨-, found⟩ := stored_spec exact_ same stored
  obtain ⟨ids', list, listed', parsed', exact_ids⟩ := sound.log.own c page opened
  cases listed.symm.trans listed'
  cases parsed.symm.trans parsed'
  have foreign : id ∉ own := fun mine => by
    obtain ⟨batch', stored'⟩ := (exact_ids id).1 mine
    exact ne (stored_author exact_ same sound stored stored')
  have fresh : id ∈ reply.transactions.map Prod.fst := by
    rw [new, mem_newIds]
    exact ⟨AList.mem_keys.1 (AList.lookup_isSome.1 (by rw [found]; rfl)), above, foreign⟩
  obtain ⟨t, member, rfl⟩ := List.mem_map.1 fresh
  cases (read t member).symm.trans found
  exact member

theorem Heard.step (heard : Heard userName lower τ S) (run : System.Run userName lower τ S)
    (few : (pushes userName lower τ).length < 2 ^ 53) (step : Step userName lower S evs S') :
    Heard userName lower (τ ++ evs) S' := by
  have sound := sound_of_run run
  cases step with
  | invalid =>
      rw [List.append_nil]
      exact heard
  | login c closed free =>
      refine heard.setPage _ (by simp [Unstored]) ?_ (fun u id batch ne stored le => ?_)
        fun _ arrived => by cases arrived
      · show (-1 : Int) ≤ _
        omega
      · change (id : Int) ≤ -1 at le
        omega
  | type c page client pos ch tag opened typed =>
      obtain ⟨doc, -, rfl⟩ := Client.insertText_spec typed
      exact heard.keep opened (by simp [Unstored]) rfl fun _ => id
  | erase c page positions opened =>
      rw [Client.deletePositions, Client.hideAll_eq]
      exact heard.keep opened (by simp [Unstored]) rfl fun _ => id
  | send c page opened flag => exact heard.keep opened (by simp [Unstored]) rfl fun _ => id
  | handlePush c page batch ids d opened sent listed =>
      obtain ⟨e, exact_, same, -⟩ := exact_of_run run few (userName c)
      have reads : intValue S.redis.id = (pushes userName lower τ).length := by
        rw [intValue, exact_.counter, same]
        exact floatInt_of_le (by omega)
      have new : intValue (some (intValue S.redis.id + 1)) = (pushes userName lower τ).length + 1 := by
        rw [reads]
        exact floatInt_of_le (show (pushes userName lower τ).length + 1 ≤ 2 ^ 53 by omega)
      rw [new]
      exact heard.store sound opened fun stored => (stored_spec exact_ same stored).1
  | endPush c page id opened answered => exact heard.keep opened (by simp [Unstored]) rfl fun _ arrived => arrived
  | beat c page opened => exact heard.keep opened (by simp [Unstored]) rfl fun _ arrived => by cases arrived
  | handleBeat c page last reply position ids own opened sent user listed parsed count place new read =>
      obtain ⟨e, exact_, same, -⟩ := exact_of_run run few (userName c)
      refine heard.setPage S.redis (by simp [Unstored]) (heard.below c page opened) ?_ ?_
      · intro u id batch ne stored le
        obtain ⟨entries, applied, perm⟩ := heard.complete c page opened u id batch ne stored le
        exact ⟨entries, List.mem_append_left _ applied, perm⟩
      · intro answer arrived t member u id batch ne stored above _
        cases arrived
        rw [← sound.mail.asked c page last opened sent] at above
        exact answers_all exact_ same sound opened listed parsed new read ne stored above
  | endBeat c page reply transactions opened answered reordered =>
      obtain ⟨e, exact_, same, -⟩ := exact_of_run run few (userName c)
      have cursor : (page.client.applyReply reply.userCount reply.userPosition
          transactions).lastReceivedGreatestSeqNum = Client.advance page.client.lastReceivedGreatestSeqNum
            (transactions.map Prod.fst) := Client.applyBatches_cursor _ _
      -- the cursor is where it was or at an id of the reply
      have reached := Client.advance_mem page.client.lastReceivedGreatestSeqNum (transactions.map Prod.fst)
      rw [← cursor] at reached
      have source : ∀ t ∈ transactions, ∃ stored ∈ reply.transactions, stored.1 = t.1 := fun t member => by
        obtain ⟨stored, inReply, id, -⟩ := reordered.source member
        exact ⟨stored, inReply, id⟩
      refine heard.setPage S.redis (by simp [Unstored]) ?_ ?_ fun _ arrived => by cases arrived
      · rcases reached with is | ⟨id, member, is⟩
        · exact is ▸ heard.below c page opened
        · obtain ⟨t, inList, rfl⟩ := List.mem_map.1 member
          obtain ⟨stored, inReply, id⟩ := source t inList
          obtain ⟨-, u, -, logged⟩ := (sound.mail.answered c page reply opened answered).2 stored inReply
          rw [is, ← id]
          exact Int.ofNat_le.2 (stored_spec exact_ same logged).1
      · intro u id batch ne stored le
        by_cases old : (id : Int) ≤ page.client.lastReceivedGreatestSeqNum
        · obtain ⟨entries, applied, perm⟩ := heard.complete c page opened u id batch ne stored old
          exact ⟨entries, List.mem_append_left _ applied, perm⟩
        · rcases reached with is | ⟨top, member, is⟩
          · exact absurd (is ▸ le) old
          · obtain ⟨t, inList, rfl⟩ := List.mem_map.1 member
            obtain ⟨last, inReply, id_eq⟩ := source t inList
            have inReply := heard.answered c page reply opened answered last inReply u id batch ne stored
              (not_le.1 old) (by
                rw [is] at le
                omega)
            obtain ⟨given, here, id_eq, perm⟩ := exists_paired reordered.flip inReply
            refine ⟨given.2, List.mem_append_right _ (List.mem_map.2 ⟨given, here, ?_⟩), perm⟩
            rw [id_eq]

end Progress

end ColabEdit.Session
