/-
# ColabEdit.Browser.Sender -- what happens to a change that leaves `pendingChanges`

One page, the request of `startSendChanges` that is outstanding, and the
`changes` of the server.  The network may answer the request, time it out before
or after the server stored it, or fail it with any other error.  A timeout is
followed by `$.ajax(this)` while `tryCounter` allows it; every other way to fail
only logs a line.

`Delivered` says that the last value of every tag edited here is pending, on its
way or stored, and that somebody will set `acknowledged` again.
`delivered_iff`: a run delivers exactly if no try failed other than by a timeout
and no try timed out with `tryCounter` at the limit.  Nothing repairs a sender
that gave up.

Pole: `given_up`, where the answer to a single key press is status 500.
-/
import ColabEdit.Browser.Client
import ColabEdit.Theory.Transition

namespace ColabEdit.Browser

open ColabEdit.Theory

set_option autoImplicit false

/-- The settings object of `/sendChanges`, which every retry sends again. -/
structure Request (Tag : Type) where
  sentChanges : Batch Tag
  tryCounter : Nat
  /-- The server has stored the current try. -/
  stored : Bool

structure Sender (Tag : Type) where
  client : Client Tag
  outstanding : Option (Request Tag)
  /-- Tries that the page no longer waits for and the server has not stored. -/
  stray : List (Batch Tag)
  /-- The batches in `changes`. -/
  changes : List (Batch Tag)

namespace Sender

def retryLimit : Nat := 10

inductive Action (Tag : Type) where
  | insertText (pos : Nat) (ch : CharCode)
  | deleteText (start stop : Nat)
  | pasteText (start stop : Nat) (text : Text)
  /-- A reply of `/heartbeat`. -/
  | heartbeat (userCount userPosition : Int) (transactions : List (Nat × List (Tag × CharCode)))
  /-- The tick of `startSendChanges`. -/
  | send
  /-- The server stores the outstanding try. -/
  | store
  /-- The server stores a try that the page no longer waits for. -/
  | storeStray (i : Nat)
  | success
  | timeout
  /-- Any other error. -/
  | error

inductive Event (Tag : Type) where
  /-- `pendingChanges[tag] = ch`. -/
  | edited (tag : Tag) (ch : CharCode)
  | timedOut (tryCounter : Nat)
  | failed

variable {Tag Num : Type} [LinearOrder Tag] [BigNum Num] [BigTag Tag Num]

def start (client : Client Tag) : Sender Tag where
  client := client
  outstanding := none
  stray := []
  changes := []

/-- An editing handler has written these entries. -/
def edit (S : Sender Tag) (client : Client Tag) (edits : List (Tag × CharCode)) :
    Sender Tag × List (Event Tag) :=
  ({ S with client := client }, edits.map fun e => .edited e.1 e.2)

/-- What is left behind by a try that the page stops waiting for. -/
def leave (S : Sender Tag) (r : Request Tag) : List (Batch Tag) :=
  if r.stored then S.stray else S.stray ++ [r.sentChanges]

def step (S : Sender Tag) : Action Tag → Option (Sender Tag × List (Event Tag))
  | .insertText pos ch => (S.client.insertText pos ch).map fun r => S.edit r.1 [(r.2, ch)]
  | .deleteText start stop =>
      some (S.edit (S.client.deleteText start stop)
        ((S.client.deleteTags (Client.backspaced start stop)).map fun tag => (tag, 0)))
  | .pasteText start stop text =>
      (S.client.pasteText start stop text).map fun r =>
        S.edit r.1 (r.2.zip ((text.take (stop - start)).map UInt16.toUInt32))
  | .heartbeat userCount userPosition transactions =>
      some ({ S with client := S.client.applyReply userCount userPosition transactions }, [])
  | .send =>
      S.client.send.map fun r => ({ S with client := r.1, outstanding := some ⟨r.2, 0, false⟩ }, [])
  | .store =>
      match S.outstanding with
      | some ⟨sentChanges, tryCounter, false⟩ =>
          some ({ S with
            outstanding := some ⟨sentChanges, tryCounter, true⟩
            changes := S.changes ++ [sentChanges] }, [])
      | _ => none
  | .storeStray i =>
      S.stray[i]?.map fun batch =>
        ({ S with stray := S.stray.eraseIdx i, changes := S.changes ++ [batch] }, [])
  | .success =>
      match S.outstanding with
      | some ⟨_, _, true⟩ =>
          some ({ S with client := S.client.sendSuccess, outstanding := none }, [])
      | _ => none
  | .timeout =>
      S.outstanding.map fun r =>
        ({ S with
          -- `this.tryCounter++` comes before the test
          outstanding :=
            if r.tryCounter + 1 ≤ retryLimit then some ⟨r.sentChanges, r.tryCounter + 1, false⟩
            else none
          stray := S.leave r }, [.timedOut r.tryCounter])
  | .error =>
      S.outstanding.map fun r => ({ S with outstanding := none, stray := S.leave r }, [.failed])

def machine : Machine (Sender Tag) (Action Tag) (Event Tag) := ⟨step⟩

abbrev Run (client : Client Tag) (τ : List (Event Tag)) (S : Sender Tag) : Prop :=
  (@machine Tag _ _ _ _).Run (start client) τ S

/-! ## The last value of a tag -/

/-- The value that the last edit of a tag gave it. -/
def latest (τ : List (Event Tag)) (tag : Tag) : Option CharCode :=
  (τ.filterMap fun
    | .edited t ch => if t = tag then some ch else none
    | _ => none).getLast?

/-- The value is pending, on its way or stored. -/
def Safe (S : Sender Tag) (tag : Tag) (ch : CharCode) : Prop :=
  S.client.pendingChanges.lookup tag = some ch ∨
    (∃ r, S.outstanding = some r ∧ r.sentChanges.lookup tag = some ch) ∨
    ∃ batch ∈ S.changes, batch.lookup tag = some ch

structure Delivered (τ : List (Event Tag)) (S : Sender Tag) : Prop where
  safe : ∀ tag ch, latest τ tag = some ch → S.Safe tag ch
  waiting : S.client.acknowledged = false → S.outstanding.isSome

/-- A failed try is sent again. -/
def Event.Retried : Event Tag → Prop
  | .edited _ _ => True
  | .timedOut tryCounter => tryCounter < retryLimit
  | .failed => False

/-- `pending[tag] = ch` for the entries in order. -/
def writeAll (pending : Batch Tag) (edits : List (Tag × CharCode)) : Batch Tag :=
  edits.foldl (fun pending e => pending.insert e.1 e.2) pending

omit [BigNum Num] [BigTag Tag Num] in
theorem latest_concat (τ : List (Event Tag)) (t tag : Tag) (ch : CharCode) :
    latest (τ ++ [.edited t ch]) tag = if t = tag then some ch else latest τ tag := by
  by_cases same : t = tag <;> simp [latest, same]

omit [BigNum Num] [BigTag Tag Num] in
theorem latest_quiet {τ evs : List (Event Tag)} (quiet : ∀ e ∈ evs, ∀ t ch, e ≠ .edited t ch) (tag : Tag) :
    latest (τ ++ evs) tag = latest τ tag := by
  have none_edited : (evs.filterMap fun
      | .edited t ch => if t = tag then some ch else none
      | _ => none) = [] := by
    refine List.filterMap_eq_nil_iff.2 fun e member => ?_
    cases e with
    | edited t ch => exact absurd rfl (quiet _ member t ch)
    | timedOut _ => rfl
    | failed => rfl
  rw [latest, List.filterMap_append, none_edited, List.append_nil]
  rfl

omit [BigNum Num] [BigTag Tag Num] in
/-- Written entries are the latest ones; the others stay where they were. -/
theorem latest_edits (τ : List (Event Tag)) (pending : Batch Tag) (edits : List (Tag × CharCode))
    (tag : Tag) :
    latest (τ ++ edits.map fun e => .edited e.1 e.2) tag = (writeAll pending edits).lookup tag ∨
      latest (τ ++ edits.map fun e => .edited e.1 e.2) tag = latest τ tag ∧
        (writeAll pending edits).lookup tag = pending.lookup tag := by
  induction edits generalizing τ pending with
  | nil => exact Or.inr ⟨by simp, rfl⟩
  | cons e rest ih =>
      have shape : (τ ++ (e :: rest).map fun e => .edited e.1 e.2) =
          (τ ++ [.edited e.1 e.2]) ++ rest.map fun e => .edited e.1 e.2 := by simp
      rw [shape, writeAll, List.foldl_cons]
      rcases ih (τ ++ [.edited e.1 e.2]) (pending.insert e.1 e.2) with written | ⟨older, kept⟩
      · exact Or.inl written
      · rw [older, latest_concat]
        by_cases same : e.1 = tag
        · subst same
          rw [if_pos rfl]
          exact Or.inl (kept.trans (AList.lookup_insert _)).symm
        · rw [if_neg same]
          exact Or.inr ⟨rfl, kept.trans (AList.lookup_insert_ne (Ne.symm same))⟩

/-! ## What the editing handlers write -/

/-- The handler wrote these entries and left the flag alone. -/
structure Wrote (c c' : Client Tag) (edits : List (Tag × CharCode)) : Prop where
  pending : c'.pendingChanges = writeAll c.pendingChanges edits
  flag : c'.acknowledged = c.acknowledged

theorem wrote_insertText {c c' : Client Tag} {pos : Nat} {ch : CharCode} {tag : Tag}
    (typed : c.insertText pos ch = some (c', tag)) : Wrote c c' [(tag, ch)] := by
  obtain ⟨doc, -, rfl⟩ := Client.insertText_spec typed
  exact ⟨rfl, rfl⟩

omit [BigNum Num] [BigTag Tag Num] in
theorem wrote_deleteText (c : Client Tag) (start stop : Nat) :
    Wrote c (c.deleteText start stop)
      ((c.deleteTags (Client.backspaced start stop)).map fun tag => (tag, 0)) := by
  rw [Client.deleteText, Client.deletePositions, Client.hideAll_eq]
  exact ⟨by rw [writeAll, List.foldl_map], rfl⟩

theorem wrote_pasteFrom {c c' : Client Tag} {step : Nat} {text : Text} {tags : List Tag}
    (pasted : c.pasteFrom step text = some (c', tags)) :
    Wrote c c' (tags.zip (text.map UInt16.toUInt32)) := by
  induction text generalizing c step tags with
  | nil =>
      cases pasted
      exact ⟨rfl, rfl⟩
  | cons unit rest ih =>
      simp only [Client.pasteFrom, Option.bind_eq_bind, Option.bind_eq_some_iff] at pasted
      obtain ⟨⟨c₁, tag⟩, typed, ⟨⟨c₂, later⟩, pasted, same⟩⟩ := pasted
      cases same
      have first := wrote_insertText typed
      have others := ih pasted
      exact ⟨by rw [others.pending, first.pending]; rfl, others.flag.trans first.flag⟩

theorem wrote_pasteText {c c' : Client Tag} {start stop : Nat} {text : Text} {tags : List Tag}
    (pasted : c.pasteText start stop text = some (c', tags)) :
    Wrote c c' (tags.zip ((text.take (stop - start)).map UInt16.toUInt32)) := by
  unfold Client.pasteText at pasted
  split at pasted
  · exact wrote_pasteFrom pasted
  · cases pasted

omit [BigNum Num] [BigTag Tag Num] in
theorem wrote_applyReply (c : Client Tag) (userCount userPosition : Int)
    (transactions : List (Nat × List (Tag × CharCode))) :
    Wrote c (c.applyReply userCount userPosition transactions) [] := by
  obtain ⟨-, pending, flag, -⟩ := Client.applyBatches_spec
    { c with userCount := userCount, userPosition := userPosition } transactions
  exact ⟨pending, flag⟩

/-! ## What a step can do -/

inductive Step (S : Sender Tag) : List (Event Tag) → Sender Tag → Prop
  | edit (client : Client Tag) (edits : List (Tag × CharCode)) (wrote : Wrote S.client client edits) :
      Step S (edits.map fun e => .edited e.1 e.2) { S with client := client }
  | send (free : S.client.acknowledged = true) :
      Step S [] { S with
        client := { S.client with acknowledged := false, pendingChanges := ∅ }
        outstanding := some ⟨S.client.pendingChanges, 0, false⟩ }
  | store (batch : Batch Tag) (tryCounter : Nat)
      (here : S.outstanding = some ⟨batch, tryCounter, false⟩) :
      Step S [] { S with
        outstanding := some ⟨batch, tryCounter, true⟩, changes := S.changes ++ [batch] }
  | storeStray (batch : Batch Tag) (stray : List (Batch Tag)) :
      Step S [] { S with stray := stray, changes := S.changes ++ [batch] }
  | success (batch : Batch Tag) (tryCounter : Nat)
      (here : S.outstanding = some ⟨batch, tryCounter, true⟩) :
      Step S [] { S with client := S.client.sendSuccess, outstanding := none }
  | retry (r : Request Tag) (stray : List (Batch Tag)) (here : S.outstanding = some r)
      (allowed : r.tryCounter < retryLimit) :
      Step S [.timedOut r.tryCounter] { S with
        outstanding := some ⟨r.sentChanges, r.tryCounter + 1, false⟩, stray := stray }
  | giveUp (r : Request Tag) (stray : List (Batch Tag)) (e : Event Tag) (here : S.outstanding = some r)
      (dropped : ¬ e.Retried) :
      Step S [e] { S with outstanding := none, stray := stray }

theorem steps {S S' : Sender Tag} {a : Action Tag} {evs : List (Event Tag)}
    (taken : S.step a = some (S', evs)) : Step S evs S' := by
  cases a with
  | insertText pos ch =>
      obtain ⟨⟨client, tag⟩, typed, same⟩ := Option.map_eq_some_iff.1 taken
      cases same
      exact .edit client [(tag, ch)] (wrote_insertText typed)
  | deleteText start stop =>
      cases taken
      exact .edit _ _ (wrote_deleteText S.client start stop)
  | pasteText start stop text =>
      obtain ⟨⟨client, tags⟩, pasted, same⟩ := Option.map_eq_some_iff.1 taken
      cases same
      exact .edit client _ (wrote_pasteText pasted)
  | heartbeat userCount userPosition transactions =>
      cases taken
      exact .edit _ [] (wrote_applyReply S.client userCount userPosition transactions)
  | send =>
      obtain ⟨⟨client, batch⟩, sent, same⟩ := Option.map_eq_some_iff.1 taken
      cases same
      unfold Client.send at sent
      split at sent
      · rename_i ready
        cases sent
        exact .send ready.1
      · cases sent
  | store =>
      simp only [step] at taken
      split at taken
      · rename_i batch tryCounter here
        cases taken
        exact .store batch tryCounter here
      · cases taken
  | storeStray i =>
      obtain ⟨batch, -, same⟩ := Option.map_eq_some_iff.1 taken
      cases same
      exact .storeStray batch _
  | success =>
      simp only [step] at taken
      split at taken
      · rename_i batch tryCounter here
        cases taken
        exact .success batch tryCounter here
      · cases taken
  | timeout =>
      obtain ⟨r, here, same⟩ := Option.map_eq_some_iff.1 taken
      cases same
      by_cases allowed : r.tryCounter < retryLimit
      · rw [if_pos (show r.tryCounter + 1 ≤ retryLimit from allowed)]
        exact .retry r _ here allowed
      · rw [if_neg (show ¬ r.tryCounter + 1 ≤ retryLimit from allowed)]
        exact .giveUp r _ _ here allowed
  | error =>
      obtain ⟨r, here, same⟩ := Option.map_eq_some_iff.1 taken
      cases same
      exact .giveUp r _ _ here id

/-! ## Every change is kept until somebody gives up -/

/-- What a run keeps. -/
structure Accounted (τ : List (Event Tag)) (S : Sender Tag) : Prop where
  idle : S.client.acknowledged = true → S.outstanding = none
  stored : ∀ r, S.outstanding = some r → r.stored = true → r.sentChanges ∈ S.changes
  delivered : (∀ e ∈ τ, e.Retried) → Delivered τ S
  /-- Nothing sets `acknowledged` again. -/
  gaveUp : (∃ e ∈ τ, ¬ e.Retried) → S.client.acknowledged = false ∧ S.outstanding = none

namespace Accounted

variable {τ : List (Event Tag)} {S : Sender Tag}

omit [BigNum Num] [BigTag Tag Num] in
/-- An outstanding request: nobody gave up yet. -/
theorem retried (accounted : Accounted τ S) {r : Request Tag} (here : S.outstanding = some r) :
    ∀ e ∈ τ, e.Retried := by
  by_contra dropped
  push Not at dropped
  have := (accounted.gaveUp dropped).2
  rw [here] at this
  cases this

theorem start (client : Client Tag) (free : client.acknowledged = true) :
    Accounted [] (Sender.start client) where
  idle _ := rfl
  stored := by rintro r ⟨⟩
  delivered _ := ⟨by rintro tag ch ⟨⟩, fun busy => by
    rw [Sender.start, free] at busy
    cases busy⟩
  gaveUp := by rintro ⟨e, ⟨⟩, -⟩

end Accounted

omit [BigNum Num] [BigTag Tag Num] in
/-- More batches are stored and the others stay where they are. -/
theorem Safe.moved {S S' : Sender Tag} {tag : Tag} {ch : CharCode} (safe : S.Safe tag ch)
    (pending : S.client.pendingChanges.lookup tag = some ch → S'.Safe tag ch)
    (carried : ∀ r, S.outstanding = some r → r.sentChanges.lookup tag = some ch → S'.Safe tag ch)
    (grows : ∀ batch ∈ S.changes, batch ∈ S'.changes) : S'.Safe tag ch := by
  rcases safe with here | ⟨r, here, sent⟩ | ⟨batch, member, found⟩
  · exact pending here
  · exact carried r here sent
  · exact Or.inr (Or.inr ⟨batch, grows batch member, found⟩)

omit [BigNum Num] [BigTag Tag Num] in
theorem Step.accounted {τ evs : List (Event Tag)} {S S' : Sender Tag} (accounted : Accounted τ S)
    (step : Step S evs S') : Accounted (τ ++ evs) S' := by
  cases step with
  | edit client edits wrote =>
      have edited : ∀ e ∈ edits.map fun e => Event.edited e.1 e.2, e.Retried := fun e member => by
        obtain ⟨e, -, rfl⟩ := List.mem_map.1 member
        trivial
      refine ⟨fun free => accounted.idle (wrote.flag ▸ free), accounted.stored, fun retried => ?_, ?_⟩
      · have old := accounted.delivered fun e member => retried e (List.mem_append_left _ member)
        refine ⟨fun tag ch last => ?_, fun busy => old.waiting (wrote.flag ▸ busy)⟩
        rcases latest_edits τ S.client.pendingChanges edits tag with written | ⟨older, kept⟩
        · exact Or.inl (by rw [wrote.pending, ← written, last])
        · refine (old.safe tag ch (older ▸ last)).moved (fun here => Or.inl ?_)
            (fun r here sent => Or.inr (Or.inl ⟨r, here, sent⟩)) fun batch member => member
          rw [wrote.pending, kept, here]
      · rintro ⟨e, member, dropped⟩
        rcases List.mem_append.1 member with before | now
        · rw [wrote.flag]
          exact accounted.gaveUp ⟨e, before, dropped⟩
        · exact absurd (edited e now) dropped
  | send free =>
      rw [List.append_nil]
      have none_out := accounted.idle free
      refine ⟨nofun, fun r here stored => ?_, fun retried => ?_, fun dropped => ?_⟩
      · cases here
        cases stored
      · refine ⟨fun tag ch last => ?_, fun _ => rfl⟩
        refine ((accounted.delivered retried).safe tag ch last).moved (fun here => ?_) (fun r here => ?_)
          fun batch member => member
        · exact Or.inr (Or.inl ⟨_, rfl, here⟩)
        · rw [none_out] at here
          cases here
      · have := (accounted.gaveUp dropped).1
        rw [free] at this
        cases this
  | store batch tryCounter here =>
      rw [List.append_nil]
      have retried := accounted.retried here
      have old := accounted.delivered retried
      refine ⟨fun free => ?_, fun r same stored => ?_, fun _ => ⟨fun tag ch last => ?_, fun _ => rfl⟩, ?_⟩
      · have := accounted.idle free
        rw [here] at this
        cases this
      · cases same
        simp
      · refine (old.safe tag ch last).moved Or.inl (fun r same sent => ?_) fun b member => ?_
        · cases here.symm.trans same
          exact Or.inr (Or.inl ⟨_, rfl, sent⟩)
        · exact List.mem_append_left _ member
      · rintro ⟨e, member, dropped⟩
        exact absurd (retried e member) dropped
  | storeStray batch stray =>
      rw [List.append_nil]
      refine ⟨accounted.idle, fun r here stored => ?_, fun retried => ?_, accounted.gaveUp⟩
      · exact List.mem_append_left _ (accounted.stored r here stored)
      · have old := accounted.delivered retried
        refine ⟨fun tag ch last => ?_, old.waiting⟩
        exact (old.safe tag ch last).moved Or.inl (fun r here sent => Or.inr (Or.inl ⟨r, here, sent⟩))
          fun b member => List.mem_append_left _ member
  | success batch tryCounter here =>
      rw [List.append_nil]
      have retried := accounted.retried here
      have old := accounted.delivered retried
      have kept : batch ∈ S.changes := accounted.stored _ here rfl
      refine ⟨fun _ => rfl, nofun, fun _ => ⟨fun tag ch last => ?_, nofun⟩, ?_⟩
      · refine (old.safe tag ch last).moved Or.inl (fun r same sent => ?_) fun b member => member
        cases here.symm.trans same
        exact Or.inr (Or.inr ⟨batch, kept, sent⟩)
      · rintro ⟨e, member, dropped⟩
        exact absurd (retried e member) dropped
  | retry r stray here allowed =>
      have retried := accounted.retried here
      have old := accounted.delivered retried
      refine ⟨fun free => ?_, fun r same stored => ?_, fun _ => ⟨fun tag ch last => ?_, fun _ => rfl⟩, ?_⟩
      · have := accounted.idle free
        rw [here] at this
        cases this
      · cases same
        cases stored
      · rw [latest_quiet (by simp)] at last
        refine (old.safe tag ch last).moved Or.inl (fun r' same sent => ?_) fun b member => member
        cases here.symm.trans same
        exact Or.inr (Or.inl ⟨_, rfl, sent⟩)
      · rintro ⟨e, member, dropped⟩
        rcases List.mem_append.1 member with before | now
        · exact absurd (retried e before) dropped
        · rw [List.mem_singleton.1 now] at dropped
          exact absurd allowed dropped
  | giveUp r stray e here dropped =>
      have busy : S.client.acknowledged = false := by
        by_contra free
        have := accounted.idle (by simpa using free)
        rw [here] at this
        cases this
      refine ⟨fun _ => rfl, nofun, fun retried => ?_, fun _ => ⟨busy, rfl⟩⟩
      exact absurd (retried e (by simp)) dropped

/-- **Exactly when a page loses nothing.** In the states of a run every last value
is pending, on its way or stored, and a page that waits is answered for, as long
as every failed try was sent again. -/
theorem delivered_iff {client : Client Tag} (fresh : client.acknowledged = true)
    {τ : List (Event Tag)} {S : Sender Tag} (run : Sender.Run client τ S) :
    Delivered τ S ↔ ∀ e ∈ τ, e.Retried := by
  have accounted : Accounted τ S :=
    run.invariant (Accounted.start client fresh) fun _ accounted taken => (steps taken).accounted accounted
  refine ⟨fun delivered => ?_, accounted.delivered⟩
  by_contra dropped
  push Not at dropped
  obtain ⟨busy, nobody⟩ := accounted.gaveUp dropped
  have := delivered.waiting busy
  rw [nobody] at this
  cases this

/-- The first try times out before the server stores it, the second is answered. -/
theorem delivered_retried : ∃ (τ : List (Event ℚ)) (S : Sender ℚ),
    Sender.Run (Client.start 1 0) τ S ∧ S.changes.length = 1 ∧
      (Delivered τ S ↔ ∀ e ∈ τ, e.Retried) := by
  obtain ⟨τ, S, run, stored⟩ : ∃ (τ : List (Event ℚ)) (S : Sender ℚ),
      Sender.Run (Client.start 1 0) τ S ∧ S.changes.length = 1 :=
    Machine.Run.of_replay (show ((@machine ℚ _ _ _ _).exec
      [.insertText 0 97, .send, .timeout, .store, .success] ([], start (Client.start 1 0))).any _ = true by
        decide +kernel)
  exact ⟨τ, S, run, stored, delivered_iff rfl run⟩

/-! ## Pole -/

/-- `a` is typed and sent, and the answer is status 500: the page still shows the
character, and nothing will ever send it. -/
theorem given_up : ∃ (τ : List (Event ℚ)) (S : Sender ℚ), Sender.Run (Client.start 1 0) τ S ∧
    latest τ (1 / 2) = some 97 ∧ ¬ S.Safe (1 / 2) 97 ∧ S.client.doc.text = some [97] ∧
      S.client.acknowledged = false ∧ S.outstanding.isNone := by
  obtain ⟨τ, S, run, last, pending, nobody, stored, shows, busy⟩ :
      ∃ (τ : List (Event ℚ)) (S : Sender ℚ), Sender.Run (Client.start 1 0) τ S ∧
        latest τ (1 / 2) = some 97 ∧ S.client.pendingChanges.lookup (1 / 2) = none ∧
          S.outstanding.isNone ∧ S.changes.length = 0 ∧ S.client.doc.text = some [97] ∧
            S.client.acknowledged = false :=
    Machine.Run.of_replay (show ((@machine ℚ _ _ _ _).exec [.insertText 0 97, .send, .error]
      ([], start (Client.start 1 0))).any _ = true by decide +kernel)
  refine ⟨τ, S, run, last, ?_, shows, busy, nobody⟩
  rintro (here | ⟨r, here, -⟩ | ⟨batch, member, -⟩)
  · rw [pending] at here
    cases here
  · rw [Option.isNone_iff_eq_none.1 nobody] at here
    cases here
  · rw [List.length_eq_zero_iff.1 stored] at member
    cases member

end Sender

end ColabEdit.Browser
