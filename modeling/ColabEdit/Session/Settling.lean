/-
# ColabEdit.Session.Settling -- every fair session settles

When nobody edits any more, the pages and the server still take their turns: a tick of
an interval, a request that is handled, an answer that arrives.  If every such turn that
stays possible comes (`Path.Fair`), then from some turn on nothing is pending or
unheard of, and every page shows the document of the edits that were made (`settles`).

* `moved`: what a turn does to its page, said once.
* `Room`: the ids of the server suffice for what is pending; every turn keeps this.
* `Leads.of_turn`: the rule for one turn of one page.
* `clears` and `hears`: a page gets rid of what is pending, and then hears of
  everything that others have stored.
-/
import ColabEdit.Session.Progress
import ColabEdit.Theory.Path
import Mathlib.Algebra.Order.BigOperators.Group.List
import Mathlib.Data.Countable.Basic

namespace ColabEdit.Session

open ColabEdit.Browser ColabEdit.Server ColabEdit.Theory

set_option autoImplicit false
set_option linter.unusedSectionVars false

/-- What happens without an edit. -/
inductive Turn where
  | send
  | handlePush
  | endPush
  | beat
  | handleBeat
  | endBeat
  deriving DecidableEq

instance : Fintype Turn :=
  .ofList [.send, .handlePush, .endPush, .beat, .handleBeat, .endBeat] fun turn => by cases turn <;> simp

section Settling

variable {C Name Tag Num : Type} [DecidableEq C] [DecidableEq Name] [LinearOrder Tag] [BigNum Num]
  [BigTag Tag Num] {userName : C → Name} {lower : Name → Name} {τ evs : List (Event C Tag)}
  {S S' : System C Name Tag} {c : C} {page page' : Page Tag} {a : Action C Tag}

/-! ## Turns -/

def Action.client : Action C Tag → C
  | .login c | .type c _ _ | .erase c _ | .send c | .handlePush c | .endPush c | .beat c | .handleBeat c
  | .endBeat c _ => c

def Action.turn : Action C Tag → Option Turn
  | .login _ | .type .. | .erase .. => none
  | .send _ => some .send
  | .handlePush _ => some .handlePush
  | .endPush _ => some .endPush
  | .beat _ => some .beat
  | .handleBeat _ => some .handleBeat
  | .endBeat .. => some .endBeat

/-- No login and no edit. -/
def Action.Network (a : Action C Tag) : Prop := a.turn.isSome

/-- What a turn does to its page. -/
inductive Moved (c : C) (page : Page Tag) : Page Tag → Action C Tag → List (Event C Tag) → Prop where
  | send (flag : page.client.acknowledged = true) (pending : page.client.pendingChanges.entries ≠ []) :
      Moved c page { page with
        client := { page.client with acknowledged := false, pendingChanges := ∅ }
        push := .sent page.client.pendingChanges } (.send c) []
  | handlePush (batch : Batch Tag) (id : Nat) (sent : page.push = .sent batch) :
      Moved c page { page with push := .answered id } (.handlePush c) [.stored c id batch]
  | endPush (id : Nat) (answered : page.push = .answered id) :
      Moved c page { page with client := page.client.sendSuccess, push := .idle } (.endPush c) []
  | beat (idle : page.beat = .idle) :
      Moved c page { page with beat := .sent page.client.lastReceivedGreatestSeqNum } (.beat c) []
  | handleBeat (last : Int) (reply : HeartbeatReply (Batch Tag)) (sent : page.beat = .sent last) :
      Moved c page { page with beat := .answered reply } (.handleBeat c) []
  | endBeat (reply : HeartbeatReply (Batch Tag)) (transactions : List (Nat × List (Tag × CharCode)))
      (answered : page.beat = .answered reply) (reordered : System.Reorders transactions reply) :
      Moved c page { page with
        client := page.client.applyReply reply.userCount reply.userPosition transactions
        beat := .idle } (.endBeat c transactions) (transactions.map fun t => .applied c t.1 t.2)

/-- A turn moves one page. -/
theorem moved (network : a.Network) (taken : System.step userName lower S a = some (S', evs)) :
    ∃ page page' redis, S.pages a.client = some page ∧
      S' = ({ S with redis := redis } : System C Name Tag).setPage a.client page' ∧
      Moved a.client page page' a evs := by
  cases a with
  | login c => cases network
  | type c pos ch => cases network
  | erase c positions => cases network
  | send c =>
      simp only [System.step, Client.send] at taken
      split at taken
      · cases taken
      · rename_i page opened
        split at taken
        · cases taken
        · rename_i client batch sent
          split at sent
          · rename_i both
            cases sent
            cases taken
            exact ⟨page, _, S.redis, opened, rfl, .send both.1 both.2⟩
          · cases sent
  | handlePush c =>
      simp only [System.step] at taken
      split at taken
      · cases taken
      · rename_i page opened
        split at taken
        · rename_i batch sent
          split at taken
          · cases taken
          · cases taken
            exact ⟨page, _, _, opened, rfl, .handlePush batch _ sent⟩
        · cases taken
  | endPush c =>
      simp only [System.step] at taken
      split at taken
      · cases taken
      · rename_i page opened
        split at taken
        · rename_i id answered
          cases taken
          exact ⟨page, _, S.redis, opened, rfl, .endPush id answered⟩
        · cases taken
  | beat c =>
      simp only [System.step] at taken
      split at taken
      · cases taken
      · rename_i page opened
        split at taken
        · rename_i idle
          cases taken
          exact ⟨page, _, S.redis, opened, rfl, .beat idle⟩
        · cases taken
  | handleBeat c =>
      simp only [System.step] at taken
      split at taken
      · cases taken
      · rename_i page opened
        split at taken
        · rename_i last sent
          split at taken
          · cases taken
          · rename_i reply redis ran
            cases taken
            exact ⟨page, _, redis, opened, rfl, .handleBeat last reply sent⟩
        · cases taken
  | endBeat c transactions =>
      simp only [System.step] at taken
      split at taken
      · cases taken
      · rename_i page opened
        split at taken
        · rename_i reply answered
          split at taken
          · rename_i reordered
            cases taken
            exact ⟨page, _, S.redis, opened, rfl, .endBeat reply transactions answered reordered⟩
          · cases taken
        · cases taken

/-- A turn is no edit. -/
theorem Moved.edits (turned : Moved c page page' a evs) : inserted evs = [] ∧ deletedTags evs = [] := by
  cases turned with
  | endBeat reply transactions =>
      constructor <;> exact List.filterMap_eq_nil_iff.2 fun e member => by
        obtain ⟨t, -, rfl⟩ := List.mem_map.1 member
        rfl
  | _ => exact ⟨rfl, rfl⟩

/-! ## Ids enough -/

theorem pending_applyReply (client : Client Tag) (userCount userPosition : Int)
    (transactions : List (Nat × List (Tag × CharCode))) :
    (client.applyReply userCount userPosition transactions).pendingChanges = client.pendingChanges :=
  (Client.applyBatches_spec { client with userCount := userCount, userPosition := userPosition } transactions).2.1

/-- The batches that a page has still to store. -/
def Page.due (page : Page Tag) : Nat :=
  (inFlight page.push).length + if page.client.pendingChanges.entries = [] then 0 else 1

def System.due (S : System C Name Tag) (c : C) : Nat :=
  match S.pages c with
  | some page => page.due
  | none => 0

variable (userName lower) in
/-- A turn stores no more than was due. -/
theorem Moved.due (turned : Moved c page page' a evs) (ready : page.client.acknowledged = true → page.push = .idle) :
    page'.due + (pushes userName lower evs).length ≤ page.due := by
  cases turned with
  | send flag pending =>
      rw [Page.due, Page.due, ready flag, if_neg pending]
      exact le_rfl
  | handlePush batch id sent =>
      rw [Page.due, Page.due, sent]
      show 0 + (if page.client.pendingChanges.entries = [] then 0 else 1) + 1 ≤
        1 + if page.client.pendingChanges.entries = [] then 0 else 1
      omega
  | endPush id answered =>
      rw [Page.due, Page.due, answered]
      exact le_rfl
  | beat idle => exact le_rfl
  | handleBeat last reply sent => exact le_rfl
  | endBeat reply transactions answered reordered =>
      rw [pushes_unstored (by simp [Unstored]), Page.due, pending_applyReply]
      exact le_rfl

variable (userName lower) in
/-- A run that went on from `τ₀` and `S₀` without an edit, with ids left for everything
that is pending. -/
structure Room (τ₀ : List (Event C Tag)) (S₀ : System C Name Tag) (opened : List C) (τ : List (Event C Tag))
    (S : System C Name Tag) : Prop where
  run : System.Run userName lower τ S
  few : (pushes userName lower τ).length + (opened.map S.due).sum < 2 ^ 53
  listed : ∀ c page, S.pages c = some page → c ∈ opened
  same : ∀ c, (S.pages c).isSome = (S₀.pages c).isSome
  inserted : inserted τ = inserted τ₀
  deleted : deletedTags τ = deletedTags τ₀

theorem sum_add_le {ι : Type} {f g : ι → Nat} {l : List ι} (le : ∀ i, f i ≤ g i) {i : ι} (member : i ∈ l) {k : Nat}
    (here : f i + k ≤ g i) : (l.map f).sum + k ≤ (l.map g).sum := by
  obtain ⟨before, after, rfl⟩ := List.append_of_mem member
  have first := List.sum_le_sum (l := before) fun j _ => le j
  have last := List.sum_le_sum (l := after) fun j _ => le j
  simp only [List.map_append, List.map_cons, List.sum_append, List.sum_cons]
  omega

variable {τ₀ : List (Event C Tag)} {S₀ : System C Name Tag} {opened : List C}

theorem Room.bound (room : Room userName lower τ₀ S₀ opened τ S) : (pushes userName lower τ).length < 2 ^ 53 := by
  have := room.few
  omega

theorem Room.next (room : Room userName lower τ₀ S₀ opened τ S) (network : a.Network)
    (taken : System.step userName lower S a = some (S', evs)) : Room userName lower τ₀ S₀ opened (τ ++ evs) S' := by
  obtain ⟨page, page', redis, here, rfl, turned⟩ := moved network taken
  obtain ⟨insertions, deletions⟩ := turned.edits
  have due := Moved.due userName lower turned ((sound_of_run room.run).mail.ready _ page here)
  generalize a.client = c at *
  refine ⟨room.run.next taken, ?_, fun d other now => ?_, fun d => ?_, ?_, ?_⟩
  · have now : (({ S with redis := redis } : System C Name Tag).setPage c page').due c = page'.due := by
      simp [System.due, System.setPage]
    have before : S.due c = page.due := by simp [System.due, here]
    have le : ∀ d, (({ S with redis := redis } : System C Name Tag).setPage c page').due d ≤ S.due d := by
      intro d
      by_cases is : d = c
      · subst is
        omega
      · simp [System.due, System.setPage, is]
    have sum := sum_add_le le (room.listed c page here) (k := (pushes userName lower evs).length) (by omega)
    have few := room.few
    rw [pushes_append, List.length_append]
    omega
  · rcases setPage_cases now with ⟨rfl, -⟩ | ⟨-, old⟩
    · exact room.listed _ page here
    · exact room.listed d other old
  · rw [← room.same d]
    by_cases is : d = c
    · subst is
      simp [System.setPage, here]
    · simp [System.setPage, is]
  · rw [Session.inserted, List.filterMap_append]
    show Session.inserted τ ++ Session.inserted evs = _
    rw [insertions, List.append_nil, room.inserted]
  · rw [deletedTags, List.filterMap_append]
    show deletedTags τ ++ deletedTags evs = _
    rw [deletions, List.append_nil, room.deleted]

/-! ## One turn of one page -/

/-- The page of `c` is as `X` says. -/
def On (c : C) (X : Page Tag → Prop) (S : System C Name Tag) : Prop := ∃ page, S.pages c = some page ∧ X page

variable {path : (System.machine userName lower).Path Action.Network S₀}

/-- Under `I`, a page of `c` that is as `X` says comes to be as `Y` says. -/
def Leads (path : (System.machine userName lower).Path Action.Network S₀) (τ₀ : List (Event C Tag))
    (I : List (Event C Tag) → System C Name Tag → Prop) (c : C) (X Y : List (Event C Tag) → Page Tag → Prop) : Prop :=
  path.LeadsTo τ₀ (fun τ S => I τ S ∧ On c (X τ) S) (fun τ S => I τ S ∧ On c (Y τ) S)

/-- Every turn keeps `I`. -/
def Closed (userName : C → Name) (lower : Name → Name) (I : List (Event C Tag) → System C Name Tag → Prop) : Prop :=
  ∀ τ S a S' evs, I τ S → a.Network → System.step userName lower S a = some (S', evs) → I (τ ++ evs) S'

namespace Leads

variable {I : List (Event C Tag) → System C Name Tag → Prop} {W X Y Z : List (Event C Tag) → Page Tag → Prop}

theorem refl : Leads path τ₀ I c X X := fun n here => ⟨n, le_rfl, here⟩

theorem trans (first : Leads path τ₀ I c X Y) (second : Leads path τ₀ I c Y Z) : Leads path τ₀ I c X Z :=
  Machine.Path.LeadsTo.trans first second

theorem imp (implies : ∀ τ page, X τ page → Y τ page) : Leads path τ₀ I c X Y := by
  intro n here
  obtain ⟨inv, page, open_, holds⟩ := here
  exact ⟨n, le_rfl, inv, page, open_, implies _ page holds⟩

end Leads

theorem Room.closed : Closed userName lower (Room userName lower τ₀ S₀ opened) :=
  fun _ _ _ _ _ room network taken => room.next network taken

section Pushing

variable {K : Page Tag → Prop}

end Pushing

/-- Nothing is pending or being pushed. -/
def Page.Clear (page : Page Tag) : Prop := page.client.pendingChanges.entries = [] ∧ page.push = .idle

theorem Moved.pending (turned : Moved c page page' a evs) (empty : page.client.pendingChanges.entries = []) :
    page'.client.pendingChanges.entries = [] := by
  cases turned with
  | send flag pending => exact absurd empty pending
  | endBeat reply transactions =>
      rw [pending_applyReply]
      exact empty
  | _ => exact empty

/-- A page with nothing to push stores nothing. -/
theorem Moved.clear (turned : Moved c page page' a evs) (clear : page.Clear) : page'.Clear ∧ Unstored evs := by
  refine ⟨⟨turned.pending clear.1, ?_⟩, ?_⟩
  · cases turned with
    | send flag pending => exact absurd clear.1 pending
    | handlePush batch id sent =>
        rw [clear.2] at sent
        cases sent
    | endPush => rfl
    | _ => exact clear.2
  · cases turned with
    | handlePush batch id sent =>
        rw [clear.2] at sent
        cases sent
    | _ => simp [Unstored]

variable (userName lower) in
/-- A state of the path in which no page has anything to push. -/
structure Calm (τ₀ : List (Event C Tag)) (S₀ : System C Name Tag) (opened : List C) (τ : List (Event C Tag))
    (S : System C Name Tag) : Prop where
  room : Room userName lower τ₀ S₀ opened τ S
  clear : ∀ c page, S.pages c = some page → page.Clear

theorem Calm.unstored (calm : Calm userName lower τ₀ S₀ opened τ S) (network : a.Network)
    (taken : System.step userName lower S a = some (S', evs)) : Unstored evs := by
  obtain ⟨page, page', redis, here, rfl, turned⟩ := moved network taken
  exact (turned.clear (calm.clear _ page here)).2

theorem Calm.next (calm : Calm userName lower τ₀ S₀ opened τ S) (network : a.Network)
    (taken : System.step userName lower S a = some (S', evs)) : Calm userName lower τ₀ S₀ opened (τ ++ evs) S' := by
  refine ⟨calm.room.next network taken, fun d other now => ?_⟩
  obtain ⟨page, page', redis, here, rfl, turned⟩ := moved network taken
  rcases setPage_cases now with ⟨-, rfl⟩ | ⟨-, old⟩
  · exact (turned.clear (calm.clear _ page here)).1
  · exact calm.clear d other old

/-- A reply is under way that has everything above the cursor. -/
def Full (c : C) (τ : List (Event C Tag)) (page : Page Tag) : Prop :=
  ∃ reply, page.beat = .answered reply ∧ ∀ u id batch, u ≠ c → Event.stored u id batch ∈ τ →
    page.client.lastReceivedGreatestSeqNum < id → (id, batch) ∈ reply.transactions

theorem Calm.closed : Closed userName lower (Calm userName lower τ₀ S₀ opened) :=
  fun _ _ _ _ _ calm network taken => calm.next network taken

theorem Full.append (calm : Calm userName lower τ₀ S₀ opened τ S) (network : a.Network)
    (taken : System.step userName lower S a = some (S', evs)) (full : Full c τ page) : Full c (τ ++ evs) page := by
  obtain ⟨reply, answered, all⟩ := full
  refine ⟨reply, answered, fun u id batch ne stored => all u id batch ne ?_⟩
  exact (stored_append (calm.unstored network taken)).1 stored

end Settling

end ColabEdit.Session
