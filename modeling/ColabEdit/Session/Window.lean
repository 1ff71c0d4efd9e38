/-
# ColabEdit.Session.Window -- one browser window through logins and logouts

The rest of `colab.js` around the document: the login, the three intervals it
starts, the logout.  `heartbeat`, `startSendChanges` and `getUserNames` keep the id
of their interval in a local variable, and `logOut` tests global variables of the
same names, so it stops nothing.  A login empties the editor and sets the cursor
back, and leaves `pps`, `ppsTags`, `ppsAck` and `pendingChanges` as they are.

The window runs against the server of `ColabEdit.Server.Requests`, a request at a
time, with any requests of others in between.

* `intervals_kept`: after any run, the intervals of every login are running.
* `run_served`: a run of the window is a run of the server.
* `replayed`: until the window has applied a batch since its login, a heartbeat of
  whichever of its names attaches every batch of every other name, whatever the window
  attached before.
* `once_a_login`: from then on, with all its heartbeats and in whichever order, it
  applies no batch twice and leaves out none of the names that it never entered under.
* `hears_itself`: with logins under two names, the batch that the window sends under
  one is attached again by the heartbeat of the other, unless the cursor has passed it.

What the server answers is known of runs in which nobody pushes or asks under a name
whose login was never accepted (`Requests.Allowed`).  The window itself leaves them when
its sender ticks after a logout under a name that was only written into the field.
-/
import ColabEdit.Browser.Caret
import ColabEdit.Browser.Desk
import ColabEdit.Server.Requests
import ColabEdit.Session.System

namespace ColabEdit.Session

open ColabEdit.Browser ColabEdit.Server ColabEdit.Theory

set_option autoImplicit false
set_option linter.unusedSectionVars false

/-- What runs every so often. -/
inductive Interval (Name : Type) where
  | heartbeat (guestName : Name)
  | startSendChanges
  | getUserNames
  deriving DecidableEq

structure Window (Name Tag : Type) where
  /-- The value of the field `UserName`. -/
  userName : Name
  /-- Which parts are displayed. -/
  loginSection : Bool
  textareaSection : Bool
  invalidGuestName : Bool
  client : Client Tag
  /-- `localStorage` has a count and a position. -/
  stored : Bool
  editor : Editor
  /-- The intervals that run, by their id. -/
  intervals : List (Nat × Interval Name)
  nextId : Nat
  /-- The global variables that `logOut` tests; `none` is `undefined`. -/
  heartBeatSetTimeout : Option Nat
  sendChangesSetTimeout : Option Nat
  getUserNamesSetTimeout : Option Nat

namespace Window

variable {Name Tag Num : Type} [LinearOrder Tag] [BigNum Num] [BigTag Tag Num]

/-- The page as it is loaded, with the field empty. -/
def loaded (empty : Name) : Window Name Tag where
  userName := empty
  loginSection := true
  textareaSection := false
  invalidGuestName := false
  client := Client.start 0 0
  stored := false
  editor := ⟨[], 0⟩
  intervals := []
  nextId := 0
  heartBeatSetTimeout := none
  sendChangesSetTimeout := none
  getUserNamesSetTimeout := none

def setInterval (w : Window Name Tag) (f : Interval Name) : Window Name Tag :=
  { w with intervals := w.intervals ++ [(w.nextId, f)], nextId := w.nextId + 1 }

/-- `if (typeof id !== 'undefined') clearTimeout(id)`. -/
def clearTimeout (w : Window Name Tag) : Option Nat → Window Name Tag
  | none => w
  | some id => { w with intervals := w.intervals.filter fun i => i.1 ≠ id }

/-- `var heartBeatSetTimeout` is local here, and so are the other two. -/
def heartbeat (w : Window Name Tag) (guestName : Name) : Window Name Tag :=
  w.setInterval (.heartbeat guestName)

def startSendChanges (w : Window Name Tag) : Window Name Tag := w.setInterval .startSendChanges

def getUserNames (w : Window Name Tag) : Window Name Tag := w.setInterval .getUserNames

/-- A listener that is added again is the same listener. -/
def performTasksForGuest (w : Window Name Tag) (guestName : Name) : Window Name Tag :=
  let w := { w with
    invalidGuestName := false
    loginSection := false
    textareaSection := true
    editor := ⟨[], 0⟩
    client := { w.client with lastReceivedGreatestSeqNum := -1 } }
  ((w.heartbeat guestName).startSendChanges).getUserNames

/-- The success handler of `/login`; `none` is the answer `'invalid'`. -/
def loginSuccess (w : Window Name Tag) (guestName : Name) : Option (Nat × Int) → Window Name Tag
  | none => { w with invalidGuestName := true }
  | some (userCount, userPosition) =>
      ({ w with
        client := { w.client with userCount := userCount, userPosition := userPosition }
        stored := true }).performTasksForGuest guestName

/-- `logOut` without its request. -/
def logOut (w : Window Name Tag) : Window Name Tag :=
  let w := { w with loginSection := true, textareaSection := false, stored := false }
  ((w.clearTimeout w.heartBeatSetTimeout).clearTimeout w.sendChangesSetTimeout).clearTimeout
    w.getUserNamesSetTimeout

/-- The attaches of a reply, on the tag list and on the screen. -/
def attachAll (T : Trix) (s : Pps Tag) (e : Editor) (entries : List (Tag × CharCode)) : Pps Tag × Editor :=
  entries.foldl (fun shown entry => Editor.attachBy Editor.deleteInDirection T shown.1 shown.2 entry.1 entry.2) (s, e)

/-- The success handler of `/heartbeat`. -/
def heartbeatSuccess (T : Trix) (w : Window Name Tag) (userCount userPosition : Int)
    (transactions : List (Nat × List (Tag × CharCode))) : Window Name Tag :=
  { w with
    client := w.client.applyReply userCount userPosition transactions
    stored := true
    editor := (attachAll T w.client.doc w.editor (transactions.flatMap Prod.snd)).2 }

inductive Action (Name Tag : Type) where
  /-- The user writes into the field `UserName`. -/
  | name (userName : Name)
  | loginAsGuest
  | logOut
  /-- A key press or a backspace. -/
  | edit (e : Edit)
  /-- A text pasted at a caret. -/
  | paste (start : Nat) (text : Text)
  /-- The interval with this id fires.  The batches of a reply come in some key order. -/
  | tick (id : Nat) (transactions : List (Nat × List (Tag × CharCode)))
  /-- A request of somebody else. -/
  | other (r : Request Name (Batch Tag))

inductive Event (Name Tag : Type) where
  /-- The server handled a request. -/
  | served (e : Requests.Event Name (Batch Tag))
  /-- The window entered as a guest. -/
  | entered (guestName : Name)
  /-- The heartbeat of a guest applied batches. -/
  | applied (guestName : Name) (transactions : List (Nat × List (Tag × CharCode)))

variable [DecidableEq Name] (T : Trix) (lower : Name → Name) (empty : Name)

/-- A handler and its answer are one step. -/
def step (S : Window Name Tag × Redis Name (Batch Tag)) :
    Action Name Tag → Option ((Window Name Tag × Redis Name (Batch Tag)) × List (Event Name Tag))
  | .name userName => if S.1.loginSection then some (({ S.1 with userName := userName }, S.2), []) else none
  | .loginAsGuest =>
      if S.1.loginSection then
        let r := (initialize_ lower S.1.userName).run Cmd.exec S.2
        match r.1 with
        | some answer =>
            some ((S.1.loginSuccess S.1.userName answer, r.2),
              .served (.login S.1.userName r.1) :: if answer.isSome then [.entered S.1.userName] else [])
        | none => some ((S.1, r.2), [.served (.login S.1.userName r.1)])
      else none
  | .logOut =>
      if S.1.textareaSection then
        let r := (Server.deinitialize_ empty S.1.userName).run Cmd.exec S.2
        some ((S.1.logOut, r.2), [.served (.deinitializeCall S.1.userName r.1)])
      else none
  | .edit e =>
      -- without the stored count and position `PPS.insert` throws
      if S.1.textareaSection ∧ S.1.stored then
        (S.1.client.handle e).map fun client =>
          (({ S.1 with client := client, editor := Editor.input S.1.editor.text e }, S.2), [])
      else none
  | .paste start text =>
      if S.1.textareaSection ∧ S.1.stored then
        (S.1.client.pasteText start (start + text.length) text).map fun pasted =>
          (({ S.1 with
              client := pasted.1
              editor := ⟨splice S.1.editor.text start start text, start + text.length⟩ }, S.2), [])
      else none
  | .tick id transactions =>
      match S.1.intervals.lookup id with
      | none => none
      | some (.heartbeat guestName) =>
          let last := S.1.client.lastReceivedGreatestSeqNum
          let r := (Server.heartbeat lower guestName last).run Cmd.exec S.2
          match r.1 with
          | some reply =>
              if System.Reorders transactions reply then
                some ((S.1.heartbeatSuccess T reply.userCount reply.userPosition transactions, r.2),
                  [.served (.heartbeat guestName last r.1), .applied guestName transactions])
              else none
          | none => some ((S.1, r.2), [.served (.heartbeat guestName last r.1)])
      | some .startSendChanges =>
          match S.1.client.send with
          | none => some (S, [])
          | some (client, batch) =>
              let r := (insertText lower UserOrder.getChangeId S.1.userName batch).run Cmd.exec S.2
              let client := if r.1.isSome then client.sendSuccess else client
              some (({ S.1 with client := client }, r.2), [.served (.sendChanges S.1.userName batch r.1)])
      | some .getUserNames => some (S, [])
  | .other r => (Requests.step lower empty S.2 r).map fun answered => ((S.1, answered.1), answered.2.map .served)

def machine : Machine (Window Name Tag × Redis Name (Batch Tag)) (Action Name Tag) (Event Name Tag) :=
  ⟨step T lower empty⟩

/-- A run from `window.onload`, which logs out. -/
abbrev Run (τ : List (Event Name Tag)) (S : Window Name Tag × Redis Name (Batch Tag)) : Prop :=
  (machine T lower empty).Run ((loaded empty).logOut, Redis.empty) τ S

/-! ## What a step can do -/

/-- The part of the window that the intervals are in. -/
def SameIntervals (w w' : Window Name Tag) : Prop :=
  w'.intervals = w.intervals ∧ w'.nextId = w.nextId ∧ w'.heartBeatSetTimeout = w.heartBeatSetTimeout ∧
    w'.sendChangesSetTimeout = w.sendChangesSetTimeout ∧ w'.getUserNamesSetTimeout = w.getUserNamesSetTimeout

/-- What the user and the sender do with the page. -/
inductive Touched (c : Client Tag) : Client Tag → Prop
  | same : Touched c c
  | edit {e : Edit} {client : Client Tag} (handled : c.handle e = some client) : Touched c client
  | paste {start stop : Nat} {text : Text} {client : Client Tag} {tags : List Tag}
      (pasted : c.pasteText start stop text = some (client, tags)) : Touched c client
  | send {client : Client Tag} {batch : Batch Tag} (sends : c.send = some (client, batch)) : Touched c client
  | sent {client : Client Tag} {batch : Batch Tag} (sends : c.send = some (client, batch)) :
      Touched c client.sendSuccess

inductive Step (S : Window Name Tag × Redis Name (Batch Tag)) :
    List (Event Name Tag) → Window Name Tag × Redis Name (Batch Tag) → Prop
  /-- No request. -/
  | page (w : Window Name Tag) (intervals : SameIntervals S.1 w) (touched : Touched S.1.client w.client) :
      Step S [] (w, S.2)
  /-- A request of the window or of somebody else that brings nothing new to the page. -/
  | request (w : Window Name Tag) (r : Request Name (Batch Tag)) (redis : Redis Name (Batch Tag))
      (answered : List (Requests.Event Name (Batch Tag)))
      (ran : Requests.step lower empty S.2 r = some (redis, answered)) (intervals : SameIntervals S.1 w)
      (touched : Touched S.1.client w.client) : Step S (answered.map .served) (w, redis)
  | logOut (redis : Redis Name (Batch Tag)) (answered : List (Requests.Event Name (Batch Tag)))
      (ran : Requests.step lower empty S.2 (.deinitializeCall S.1.userName) = some (redis, answered)) :
      Step S (answered.map .served) (S.1.logOut, redis)
  /-- A login that is accepted. -/
  | enter (answer : Nat × Int) (redis : Redis Name (Batch Tag))
      (ran : (initialize_ lower S.1.userName).run Cmd.exec S.2 = (some (some answer), redis)) :
      Step S [.served (.login S.1.userName (some (some answer))), .entered S.1.userName]
        (S.1.loginSuccess S.1.userName (some answer), redis)
  /-- A heartbeat that is answered. -/
  | beat (id : Nat) (guestName : Name) (transactions : List (Nat × List (Tag × CharCode)))
      (reply : HeartbeatReply (Batch Tag)) (redis : Redis Name (Batch Tag))
      (found : S.1.intervals.lookup id = some (.heartbeat guestName))
      (ran : (Server.heartbeat lower guestName S.1.client.lastReceivedGreatestSeqNum).run Cmd.exec S.2 =
        (some reply, redis))
      (reordered : System.Reorders transactions reply) :
      Step S [.served (.heartbeat guestName S.1.client.lastReceivedGreatestSeqNum (some reply)),
          .applied guestName transactions]
        (S.1.heartbeatSuccess T reply.userCount reply.userPosition transactions, redis)

variable {T lower empty} {τ evs : List (Event Name Tag)} {S S' : Window Name Tag × Redis Name (Batch Tag)}
  {w w' : Window Name Tag}

theorem SameIntervals.refl : SameIntervals w w := ⟨rfl, rfl, rfl, rfl, rfl⟩

theorem steps {a : Action Name Tag} (taken : step T lower empty S a = some (S', evs)) :
    Step T lower empty S evs S' := by
  cases a with
  | name userName =>
      simp only [step] at taken
      split at taken
      · cases taken
        exact .page _ ⟨rfl, rfl, rfl, rfl, rfl⟩ .same
      · cases taken
  | loginAsGuest =>
      simp only [step] at taken
      split at taken
      · rcases ran : (initialize_ lower S.1.userName).run Cmd.exec S.2 with ⟨_ | _ | answer, redis⟩
        · rw [ran] at taken
          cases taken
          refine .request _ (.login S.1.userName) _ [.login S.1.userName none] ?_ .refl .same
          simp only [Requests.step, ran]
        · rw [ran] at taken
          cases taken
          refine .request _ (.login S.1.userName) _ [.login S.1.userName (some none)] ?_ ⟨rfl, rfl, rfl, rfl, rfl⟩ .same
          simp only [Requests.step, ran]
        · rw [ran] at taken
          cases taken
          exact .enter answer redis ran
      · cases taken
  | logOut =>
      simp only [step] at taken
      split at taken
      · cases taken
        exact .logOut _ [_] rfl
      · cases taken
  | edit e =>
      simp only [step] at taken
      split at taken
      · obtain ⟨client, handled, is⟩ := Option.map_eq_some_iff.1 taken
        cases is
        exact .page _ ⟨rfl, rfl, rfl, rfl, rfl⟩ (.edit handled)
      · cases taken
  | paste start text =>
      simp only [step] at taken
      split at taken
      · obtain ⟨⟨client, tags⟩, pasted, is⟩ := Option.map_eq_some_iff.1 taken
        cases is
        exact .page _ ⟨rfl, rfl, rfl, rfl, rfl⟩ (.paste pasted)
      · cases taken
  | tick id transactions =>
      rcases found : S.1.intervals.lookup id with _ | ⟨guestName⟩ | _ | _
      · simp [step, found] at taken
      · simp only [step, found] at taken
        rcases ran : (Server.heartbeat lower guestName S.1.client.lastReceivedGreatestSeqNum).run Cmd.exec S.2 with
          ⟨_ | reply, redis⟩
        · rw [ran] at taken
          cases taken
          refine .request _ (.heartbeat guestName S.1.client.lastReceivedGreatestSeqNum) _ [.heartbeat _ _ none] ?_
            .refl .same
          simp only [Requests.step, ran]
        · rw [ran] at taken
          dsimp only at taken
          split at taken
          · rename_i reordered
            cases taken
            exact .beat id guestName transactions reply redis found ran reordered
          · cases taken
      · simp only [step, found] at taken
        rcases sends : S.1.client.send with _ | ⟨client, batch⟩
        · rw [sends] at taken
          cases taken
          exact .page _ .refl .same
        · rw [sends] at taken
          cases taken
          refine .request _ (.sendChanges S.1.userName batch) _ [_] rfl ⟨rfl, rfl, rfl, rfl, rfl⟩ ?_
          dsimp only
          split
          · exact .sent sends
          · exact .send sends
      · simp only [step, found] at taken
        cases taken
        exact .page _ .refl .same
  | other r =>
      obtain ⟨⟨redis, answered⟩, ran, is⟩ := Option.map_eq_some_iff.1 taken
      cases is
      exact .request _ r redis answered ran .refl .same

/-! ## The intervals -/

/-- The requests of a trace. -/
def served (τ : List (Event Name Tag)) : List (Requests.Event Name (Batch Tag)) :=
  τ.filterMap fun
    | .served e => some e
    | _ => none

/-- The guests of a trace. -/
def entered (τ : List (Event Name Tag)) : List Name :=
  τ.filterMap fun
    | .entered guestName => some guestName
    | _ => none

theorem served_append : served (τ ++ evs) = served τ ++ served evs := List.filterMap_append

@[simp] theorem served_map (answered : List (Requests.Event Name (Batch Tag))) :
    served (answered.map Event.served : List (Event Name Tag)) = answered := by
  rw [served, List.filterMap_map]
  exact List.filterMap_some

theorem entered_append : entered (τ ++ evs) = entered τ ++ entered evs := List.filterMap_append

@[simp] theorem entered_map (answered : List (Requests.Event Name (Batch Tag))) :
    entered (answered.map Event.served : List (Event Name Tag)) = [] := by
  rw [entered, List.filterMap_map]
  exact List.filterMap_eq_nil_iff.2 fun _ _ => rfl

/-- The intervals that one login starts. -/
def started (guestName : Name) : List (Interval Name) :=
  [.heartbeat guestName, .startSendChanges, .getUserNames]

/-- Every interval that was started runs, under an id of its own, and no global
variable knows one. -/
structure Running (τ : List (Event Name Tag)) (w : Window Name Tag) : Prop where
  heartBeat : w.heartBeatSetTimeout = none
  sendChanges : w.sendChangesSetTimeout = none
  userNames : w.getUserNamesSetTimeout = none
  intervals : w.intervals.map Prod.snd = (entered τ).flatMap started
  ids : w.intervals.map Prod.fst = List.range w.nextId

theorem Running.same (running : Running τ w) (same : SameIntervals w w') (quiet : entered evs = []) :
    Running (τ ++ evs) w' := by
  obtain ⟨intervals, next, heartBeat, sendChanges, userNames⟩ := same
  refine ⟨heartBeat.trans running.heartBeat, sendChanges.trans running.sendChanges,
    userNames.trans running.userNames, ?_, by rw [intervals, next]; exact running.ids⟩
  rw [intervals, running.intervals, entered_append, quiet, List.append_nil]

theorem Running.setInterval_ids (ids : w.intervals.map Prod.fst = List.range w.nextId) (f : Interval Name) :
    (w.setInterval f).intervals.map Prod.fst = List.range (w.setInterval f).nextId := by
  rw [setInterval, List.map_append, ids, List.range_succ]
  rfl

/-- A login starts its three intervals. -/
theorem Running.enter (running : Running τ w) (guestName : Name) (answer : Nat × Int)
    (e : Requests.Event Name (Batch Tag)) :
    Running (τ ++ [.served e, .entered guestName]) (w.loginSuccess guestName (some answer)) := by
  refine ⟨running.heartBeat, running.sendChanges, running.userNames, ?_, ?_⟩
  · have all : entered (τ ++ [.served e, .entered guestName]) = entered τ ++ [guestName] := entered_append
    rw [all, List.flatMap_append, ← running.intervals]
    simp [loginSuccess, performTasksForGuest, heartbeat, startSendChanges, getUserNames, setInterval, started]
  · exact setInterval_ids (setInterval_ids (setInterval_ids running.ids _) _) _

theorem Running.logOut (running : Running τ w) : SameIntervals w w.logOut := by
  obtain ⟨heartBeat, sendChanges, userNames, -, -⟩ := running
  simp [Window.logOut, SameIntervals, heartBeat, sendChanges, userNames, clearTimeout]

theorem Running.step (running : Running τ S.1) (taken : Step T lower empty S evs S') : Running (τ ++ evs) S'.1 := by
  cases taken with
  | page w intervals => exact running.same intervals rfl
  | request w r redis answered ran intervals => exact running.same intervals (entered_map _)
  | logOut redis answered => exact running.same running.logOut (entered_map _)
  | enter answer redis => exact running.enter S.1.userName answer _
  | beat id guestName transactions reply redis => exact running.same ⟨rfl, rfl, rfl, rfl, rfl⟩ rfl

theorem running_of_run (run : Run T lower empty τ S) : Running τ S.1 :=
  Machine.Run.invariant (I := fun τ (S : Window Name Tag × Redis Name (Batch Tag)) => Running τ S.1)
    ⟨rfl, rfl, rfl, rfl, rfl⟩ (fun _ running taken => running.step (steps taken)) run

/-- **No interval ever stops.**  After any run the intervals are those that the
logins started, each login its three. -/
theorem intervals_kept (run : Run T lower empty τ S) :
    S.1.intervals.map Prod.snd = (entered τ).flatMap started ∧ (S.1.intervals.map Prod.fst).Nodup := by
  have running := running_of_run run
  exact ⟨running.intervals, by rw [running.ids]; exact List.nodup_range⟩

/-- Two names, six intervals: the first three run on after the logout. -/
theorem intervals_kept_two : ∃ (τ : List (Event Char ℚ)) (S : Window Char ℚ × Redis Char (Batch ℚ)),
    Run Trix.clamped Char.toLower ' ' τ S ∧
      S.1.intervals.map Prod.snd = started 'a' ++ started 'b' ∧ (S.1.intervals.map Prod.fst).Nodup := by
  obtain ⟨τ, S, run, guests⟩ : ∃ (τ : List (Event Char ℚ)) (S : Window Char ℚ × Redis Char (Batch ℚ)),
      Run Trix.clamped Char.toLower ' ' τ S ∧ entered τ = ['a', 'b'] :=
    Machine.Run.of_replay (show ((machine Trix.clamped Char.toLower ' ').exec
      [.name 'a', .loginAsGuest, .logOut, .name 'b', .loginAsGuest]
      ([], ((loaded ' ').logOut, Redis.empty))).any _ = true by decide +kernel)
  obtain ⟨intervals, distinct⟩ := intervals_kept run
  refine ⟨τ, S, run, ?_, distinct⟩
  rw [intervals, guests]
  rfl

/-! ## What the server sees -/

/-- A step is at most one request at the server. -/
theorem Step.served (taken : Step T lower empty S evs S') :
    S'.2 = S.2 ∧ Window.served evs = [] ∨ ∃ r, Requests.step lower empty S.2 r = some (S'.2, Window.served evs) := by
  cases taken with
  | page w => exact .inl ⟨rfl, rfl⟩
  | request w r redis answered ran => exact .inr ⟨r, by rw [served_map]; exact ran⟩
  | logOut redis answered ran => exact .inr ⟨_, by rw [served_map]; exact ran⟩
  | enter answer redis ran =>
      refine .inr ⟨.login S.1.userName, ?_⟩
      simp only [Requests.step, ran]
      rfl
  | beat id guestName transactions reply redis found ran =>
      refine .inr ⟨.heartbeat guestName S.1.client.lastReceivedGreatestSeqNum, ?_⟩
      simp only [Requests.step, ran]
      rfl

/-- **A run of the window is a run of the server.** -/
theorem run_served (run : Run T lower empty τ S) : Requests.Run lower empty (served τ) S.2 := by
  refine Machine.Run.invariant (I := fun τ (S : Window Name Tag × Redis Name (Batch Tag)) =>
    Requests.Run lower empty (served τ) S.2) .start (fun _ ran taken => ?_) run
  rw [served_append]
  rcases (steps taken).served with ⟨same, quiet⟩ | ⟨r, answered⟩
  · rw [same, quiet, List.append_nil]
    exact ran
  · exact ran.next answered

/-- Only an accepted login enters a guest. -/
theorem Step.entered (taken : Step T lower empty S evs S') :
    Window.entered evs = [] ∨ ∃ answer : Nat × Int, S'.1 = S.1.loginSuccess S.1.userName (some answer) ∧
      evs = [.served (.login S.1.userName (some (some answer))), .entered S.1.userName] := by
  cases taken with
  | page w => exact .inl rfl
  | request w r redis answered => exact .inl (entered_map _)
  | logOut redis answered => exact .inl (entered_map _)
  | enter answer redis => exact .inr ⟨answer, rfl, rfl⟩
  | beat id guestName transactions reply redis => exact .inl rfl

/-- The guests of the trace were accepted. -/
theorem accepted_of_run (run : Run T lower empty τ S) :
    ∀ guestName ∈ entered τ, Requests.Accepted lower (served τ) guestName := by
  refine Machine.Run.invariant (I := fun τ (_ : Window Name Tag × Redis Name (Batch Tag)) =>
    ∀ guestName ∈ entered τ, Requests.Accepted lower (served τ) guestName) nofun ?_ run
  intro τ S a S' evs _ accepted taken guestName member
  rw [served_append]
  rw [entered_append, List.mem_append] at member
  rcases member with old | new
  · exact (accepted guestName old).append
  · rcases (steps taken).entered with quiet | ⟨answer, -, rfl⟩
    · rw [quiet] at new
      cases new
    · obtain rfl := List.mem_singleton.1 new
      exact ⟨S.1.userName, answer, List.mem_append_right _ List.mem_cons_self, rfl⟩

/-- Every heartbeat that runs is one of a guest that entered. -/
theorem heartbeat_accepted (run : Run T lower empty τ S) {id : Nat} {guestName : Name}
    (found : S.1.intervals.lookup id = some (.heartbeat guestName)) :
    guestName ∈ entered τ ∧ Requests.Accepted lower (served τ) guestName := by
  have member : Interval.heartbeat guestName ∈ (entered τ).flatMap started := by
    rw [← (running_of_run run).intervals]
    obtain ⟨before, after, split, -⟩ := List.lookup_eq_some_iff.1 found
    rw [split]
    simp
  obtain ⟨guest, inTrace, starts⟩ := List.mem_flatMap.1 member
  have same : guestName = guest := by simpa [started] using starts
  subst same
  exact ⟨inTrace, accepted_of_run run guestName inTrace⟩

/-! ## Heartbeats -/

/-- **What a heartbeat applies**: the batches above the cursor that other names
pushed, each in some key order. -/
theorem beaten {guestName : Name} {transactions : List (Nat × List (Tag × CharCode))}
    {reply : HeartbeatReply (Batch Tag)} {redis : Redis Name (Batch Tag)} {last : Int}
    (exact_ : Requests.Exact lower (served τ) S.2) (accepted : Requests.Accepted lower (served τ) guestName)
    (ran : (Server.heartbeat lower guestName last).run Cmd.exec S.2 = (some reply, redis))
    (reordered : System.Reorders transactions reply) :
    redis = S.2 ∧ List.Forall₂ (fun given p => given.1 = p.id ∧ given.2.Perm p.batch.pairs) transactions
      ((Requests.pushes lower (served τ)).filter fun p => last < p.id ∧ p.user ≠ lower guestName) := by
  obtain ⟨reply', ran', replied⟩ := exact_.heartbeat accepted last
  cases ran.symm.trans ran'
  rw [System.Reorders, replied, List.forall₂_map_right_iff] at reordered
  exact ⟨rfl, reordered⟩

theorem ticked {guestName : Name} {id : Nat} {transactions : List (Nat × List (Tag × CharCode))}
    (exact_ : Requests.Exact lower (served τ) S.2) (accepted : Requests.Accepted lower (served τ) guestName)
    (found : S.1.intervals.lookup id = some (.heartbeat guestName))
    (taken : step T lower empty S (.tick id transactions) = some (S', evs)) :
    (∃ userCount userPosition, S' = (S.1.heartbeatSuccess T userCount userPosition transactions, S.2)) ∧
      List.Forall₂ (fun given p => given.1 = p.id ∧ given.2.Perm p.batch.pairs) transactions
        ((Requests.pushes lower (served τ)).filter fun p =>
          S.1.client.lastReceivedGreatestSeqNum < p.id ∧ p.user ≠ lower guestName) := by
  obtain ⟨reply, ran, -⟩ := exact_.heartbeat accepted S.1.client.lastReceivedGreatestSeqNum
  simp only [step, found, ran] at taken
  split at taken
  · rename_i reordered
    cases taken
    exact ⟨⟨_, _, rfl⟩, (beaten exact_ accepted ran reordered).2⟩
  · cases taken

/-- Such a heartbeat is answered. -/
theorem ticks {guestName : Name} {id : Nat} (exact_ : Requests.Exact lower (served τ) S.2)
    (accepted : Requests.Accepted lower (served τ) guestName)
    (found : S.1.intervals.lookup id = some (.heartbeat guestName)) :
    ∃ transactions, (step T lower empty S (.tick id transactions)).isSome := by
  obtain ⟨reply, ran, -⟩ := exact_.heartbeat accepted S.1.client.lastReceivedGreatestSeqNum
  refine ⟨reply.transactions.map fun t => (t.1, t.2.pairs), ?_⟩
  have reordered : System.Reorders (reply.transactions.map fun t => (t.1, t.2.pairs)) reply := by
    rw [System.Reorders, List.forall₂_map_left_iff]
    exact List.forall₂_same.2 fun t _ => ⟨rfl, .refl _⟩
  simp only [step, found, ran]
  rw [if_pos reordered]
  rfl

/-- A heartbeat attaches the entries of its batches. -/
theorem heartbeatSuccess_doc (T : Trix) (w : Window Name Tag) (userCount userPosition : Int)
    (transactions : List (Nat × List (Tag × CharCode))) :
    (w.heartbeatSuccess T userCount userPosition transactions).client.doc =
      w.client.doc.attachAll (transactions.flatMap Prod.snd) :=
  (Client.applyBatches_spec { w.client with userCount := userCount, userPosition := userPosition } transactions).1

/-! ## The page of a window -/

theorem sorted_attachAll {s : Pps Tag} (sorted : s.ppsTags.Pairwise (· ≤ ·)) (entries : List (Tag × CharCode)) :
    (s.attachAll entries).ppsTags.Pairwise (· ≤ ·) := by
  induction entries generalizing s with
  | nil => exact sorted
  | cons e rest ih =>
      rw [Pps.attachAll_cons]
      apply ih
      by_cases zero : e.2 = 0
      · rw [zero, Pps.attach_zero]
        exact sorted
      · rw [Pps.attach_of_ne s e.1 zero]
        exact Pps.sorted_push s e.1 e.2 true

/-- The cursor is at most `last`, and what is to be sent is in the tag list. -/
structure Listed (last : Nat) (c : Client Tag) : Prop where
  sorted : c.doc.ppsTags.Pairwise (· ≤ ·)
  pending : ∀ t ∈ c.pendingChanges.keys, t ∈ c.doc.ppsTags
  cursor : c.lastReceivedGreatestSeqNum ≤ last

namespace Listed

variable {last last' : Nat} {c client : Client Tag}

theorem start : Listed last (Client.start 0 0 : Client Tag) where
  sorted := by simp [Client.start, Pps.fresh, BigTag.tag0_lt_tag1.le]
  pending := nofun
  cursor := by
    show (-1 : Int) ≤ last
    omega

theorem mono (listed : Listed last c) (le : last ≤ last') : Listed last' c :=
  ⟨listed.sorted, listed.pending, listed.cursor.trans (Int.ofNat_le.2 le)⟩

theorem insertText (listed : Listed last c) {pos : Nat} {ch : CharCode} {tag : Tag}
    (typed : c.insertText pos ch = some (client, tag)) : Listed last client := by
  obtain ⟨doc, inserted, rfl⟩ := Client.insertText_spec typed
  obtain rfl := Pps.insert_push listed.sorted inserted
  refine ⟨Pps.sorted_push _ _ _ _, fun t member => Pps.mem_push.2 ?_, listed.cursor⟩
  rw [← AList.mem_keys, AList.mem_insert, AList.mem_keys] at member
  exact (or_comm.1 member).imp_left (listed.pending t)

theorem pasteFrom {text : Text} {step : Nat} {tags : List Tag} (listed : Listed last c)
    (pasted : c.pasteFrom step text = some (client, tags)) : Listed last client := by
  induction text generalizing c step tags with
  | nil =>
      cases pasted
      exact listed
  | cons unit rest ih =>
      obtain ⟨⟨c', tag⟩, typed, later⟩ := Option.bind_eq_some_iff.1 pasted
      obtain ⟨⟨c'', tags'⟩, others, same⟩ := Option.bind_eq_some_iff.1 later
      cases same
      exact ih (listed.insertText typed) others

theorem pasteText {text : Text} {start stop : Nat} {tags : List Tag} (listed : Listed last c)
    (pasted : c.pasteText start stop text = some (client, tags)) : Listed last client := by
  unfold Client.pasteText at pasted
  split at pasted
  · exact listed.pasteFrom pasted
  · cases pasted

theorem deletePositions (listed : Listed last c) (positions : List Nat) :
    Listed last (c.deletePositions positions) := by
  have found : ∀ t ∈ c.deleteTags positions, t ∈ c.doc.ppsTags := fun t member => by
    obtain ⟨pos, -, at_pos⟩ := List.mem_filterMap.1 member
    exact Pps.delete_mem at_pos
  unfold Client.deletePositions
  generalize c.deleteTags positions = tags at found
  induction tags generalizing c with
  | nil => exact listed
  | cons t rest ih =>
      refine ih ⟨listed.sorted, fun u member => ?_, listed.cursor⟩ fun u member =>
        found u (List.mem_cons_of_mem _ member)
      rw [Client.hideTag, ← AList.mem_keys, AList.mem_insert, AList.mem_keys] at member
      rcases member with rfl | old
      · exact found _ List.mem_cons_self
      · exact listed.pending u old

theorem handle (listed : Listed last c) {e : Edit} (handled : c.handle e = some client) : Listed last client := by
  cases e with
  | type ch start stop =>
      obtain ⟨typed, is, rfl⟩ := Option.map_eq_some_iff.1 handled
      exact listed.insertText is
  | backspace start stop =>
      cases handled
      exact listed.deletePositions _

theorem send {batch : Batch Tag} (listed : Listed last c) (sends : c.send = some (client, batch)) :
    Listed last client ∧ client.doc = c.doc ∧ ∀ t ∈ batch.keys, t ∈ c.doc.ppsTags := by
  unfold Client.send at sends
  split at sends
  · cases sends
    exact ⟨⟨listed.sorted, nofun, listed.cursor⟩, rfl, listed.pending⟩
  · cases sends

theorem applyReply (listed : Listed last c) (userCount userPosition : Int)
    {transactions : List (Nat × List (Tag × CharCode))} (ids : ∀ t ∈ transactions, t.1 ≤ last) :
    Listed last (c.applyReply userCount userPosition transactions) := by
  obtain ⟨doc, pending, -⟩ := Client.applyBatches_spec
    { c with userCount := userCount, userPosition := userPosition } transactions
  have sorted := sorted_attachAll listed.sorted (transactions.flatMap Prod.snd)
  refine ⟨?_, ?_, ?_⟩
  · rw [Client.applyReply, doc]
    exact sorted
  · rw [Client.applyReply, doc, pending]
    exact fun t member => Pps.mem_attachAll_of_mem (listed.pending t member)
  · rw [Client.applyReply, Client.applyBatches_cursor]
    rcases Client.advance_mem c.lastReceivedGreatestSeqNum (transactions.map Prod.fst) with same | ⟨id, member, same⟩
    · rw [same]
      exact listed.cursor
    · obtain ⟨t, inList, rfl⟩ := List.mem_map.1 member
      rw [same]
      exact Int.ofNat_le.2 (ids t inList)

end Listed

theorem clearTimeout_client (w : Window Name Tag) (id : Option Nat) : (w.clearTimeout id).client = w.client := by
  cases id <;> rfl

theorem logOut_client (w : Window Name Tag) : w.logOut.client = w.client := by
  simp [Window.logOut, clearTimeout_client]

theorem Listed.touched {last : Nat} {c client : Client Tag} (listed : Listed last c) (touched : Touched c client) :
    Listed last client := by
  cases touched with
  | same => exact listed
  | edit handled => exact listed.handle handled
  | paste pasted => exact listed.pasteText pasted
  | send sends => exact (listed.send sends).1
  | sent sends =>
      obtain ⟨kept, -⟩ := listed.send sends
      exact ⟨kept.sorted, kept.pending, kept.cursor⟩

theorem Listed.step (run : Run T lower empty τ S) (allowed : Machine.Each (Requests.Allowed lower) [] (served τ))
    (few : (Requests.pushes lower (served τ)).length < 2 ^ 53)
    (listed : Listed (Requests.pushes lower (served τ)).length S.1.client) (taken : Step T lower empty S evs S') :
    Listed (Requests.pushes lower (served (τ ++ evs))).length S'.1.client := by
  have more : (Requests.pushes lower (served τ)).length ≤ (Requests.pushes lower (served (τ ++ evs))).length := by
    rw [served_append]
    exact Requests.pushes_length_le
  have exact_ := Requests.exact_of_run (run_served run) allowed few
  refine Listed.mono ?_ more
  cases taken with
  | page w intervals touched => exact listed.touched touched
  | request w r redis answered ran intervals touched => exact listed.touched touched
  | logOut redis answered =>
      rw [logOut_client]
      exact listed
  | enter answer redis =>
      have above : (-1 : Int) ≤ (Requests.pushes lower (served τ)).length := by omega
      exact ⟨listed.sorted, listed.pending, above⟩
  | beat id guestName transactions reply redis found ran reordered =>
      have batches := (beaten exact_ (heartbeat_accepted run found).2 ran reordered).2
      refine listed.applyReply reply.userCount reply.userPosition fun t member => ?_
      obtain ⟨p, inLog, same, -⟩ := exists_paired batches member
      rw [same]
      exact (exact_.fresh (List.mem_filter.1 inLog).1).2

/-- The ids of the batches applied since the last login. -/
def noted (ids : List Nat) : Event Name Tag → List Nat
  | .served _ => ids
  | .entered _ => []
  | .applied _ transactions => ids ++ transactions.map Prod.fst

def recent (τ : List (Event Name Tag)) : List Nat := τ.foldl noted []

@[simp] theorem recent_map (answered : List (Requests.Event Name (Batch Tag))) :
    recent (τ ++ answered.map .served) = recent τ := by
  rw [recent, List.foldl_append, ← recent]
  generalize recent τ = ids
  induction answered generalizing ids with
  | nil => rfl
  | cons e rest ih => exact ih ids

theorem recent_beat {e : Requests.Event Name (Batch Tag)} {guestName : Name}
    {transactions : List (Nat × List (Tag × CharCode))} :
    recent (τ ++ [.served e, .applied guestName transactions]) = recent τ ++ transactions.map Prod.fst := by
  rw [recent, List.foldl_append]
  rfl

theorem Touched.cursor {c client : Client Tag} (touched : Touched c client) :
    client.lastReceivedGreatestSeqNum = c.lastReceivedGreatestSeqNum := by
  have inserted : ∀ {c client : Client Tag} {pos : Nat} {ch : CharCode} {tag : Tag},
      c.insertText pos ch = some (client, tag) →
        client.lastReceivedGreatestSeqNum = c.lastReceivedGreatestSeqNum := by
    intro c client pos ch tag typed
    obtain ⟨doc, -, rfl⟩ := Client.insertText_spec typed
    rfl
  have pasted : ∀ {text : Text} {c client : Client Tag} {step : Nat} {tags : List Tag},
      c.pasteFrom step text = some (client, tags) →
        client.lastReceivedGreatestSeqNum = c.lastReceivedGreatestSeqNum := by
    intro text
    induction text with
    | nil =>
        intro c client step tags is
        cases is
        rfl
    | cons unit rest ih =>
        intro c client step tags is
        obtain ⟨⟨c', tag⟩, typed, later⟩ := Option.bind_eq_some_iff.1 is
        obtain ⟨⟨c'', tags'⟩, others, same⟩ := Option.bind_eq_some_iff.1 later
        cases same
        exact (ih others).trans (inserted typed)
  have sent : ∀ {batch : Batch Tag} {client : Client Tag}, c.send = some (client, batch) →
      client.lastReceivedGreatestSeqNum = c.lastReceivedGreatestSeqNum := by
    intro batch client sends
    unfold Client.send at sends
    split at sends
    · cases sends
      rfl
    · cases sends
  cases touched with
  | same => rfl
  | @edit e client handled =>
      cases e with
      | type ch start stop =>
          obtain ⟨typed, is, rfl⟩ := Option.map_eq_some_iff.1 handled
          exact inserted is
      | backspace start stop =>
          cases handled
          rw [Client.deleteText, Client.deletePositions, Client.hideAll_eq]
  | paste is =>
      unfold Client.pasteText at is
      split at is
      · exact pasted is
      · cases is
  | send sends => exact sent sends
  | sent sends =>
      have kept := sent sends
      exact kept

/-- Nothing applied since the last login: the cursor is where the login put it. -/
theorem cursor_of_recent (run : Run T lower empty τ S) :
    recent τ = [] → S.1.client.lastReceivedGreatestSeqNum = -1 := by
  refine Machine.Run.invariant (I := fun τ (S : Window Name Tag × Redis Name (Batch Tag)) =>
    recent τ = [] → S.1.client.lastReceivedGreatestSeqNum = -1) (fun _ => rfl) (fun _ before taken nothing => ?_) run
  cases steps taken with
  | page w intervals touched => exact touched.cursor.trans (before (by rwa [List.append_nil] at nothing))
  | request w r redis answered ran intervals touched => exact touched.cursor.trans (before (by rwa [recent_map] at nothing))
  | logOut redis answered =>
      rw [logOut_client]
      exact before (by rwa [recent_map] at nothing)
  | enter answer redis => rfl
  | beat id guestName transactions reply redis =>
      rw [recent_beat, List.append_eq_nil_iff, List.map_eq_nil_iff] at nothing
      obtain ⟨none, rfl⟩ := nothing
      exact before none

/-- **A login brings everything back.**  Whatever the window has attached before, until
it has applied a batch since its last login a heartbeat of any of its guests attaches
every batch that any name other than that guest's ever pushed, those of its own other
names among them, to the document it has; the document and its tags stay as they are
exactly if these batches only delete tags that show nothing. -/
theorem replayed {id : Nat} {guestName : Name} {transactions : List (Nat × List (Tag × CharCode))}
    (run : Run T lower empty τ S) (nothing : recent τ = [])
    (found : S.1.intervals.lookup id = some (.heartbeat guestName))
    (tick : step T lower empty S (.tick id transactions) = some (S', evs))
    (allowed : Machine.Each (Requests.Allowed lower) [] (served τ))
    (few : (Requests.pushes lower (served τ)).length < 2 ^ 53) :
    List.Forall₂ (fun given p => given.1 = p.id ∧ given.2.Perm p.batch.pairs) transactions
        ((Requests.pushes lower (served τ)).filter fun p => p.user ≠ lower guestName) ∧
      S'.1.client.doc = S.1.client.doc.attachAll (transactions.flatMap Prod.snd) ∧
      (S'.1.client.doc.text = S.1.client.doc.text ∧ S'.1.client.doc.ppsTags.Perm S.1.client.doc.ppsTags ↔
        ∀ e ∈ transactions.flatMap Prod.snd, e.2 = 0 ∧ e.1 ∉ S.1.client.doc.drawn) := by
  have exact_ := Requests.exact_of_run (run_served run) allowed few
  obtain ⟨⟨userCount, userPosition, rfl⟩, batches⟩ := ticked exact_ (heartbeat_accepted run found).2 found tick
  have doc : (S.1.heartbeatSuccess T userCount userPosition transactions).client.doc =
      S.1.client.doc.attachAll (transactions.flatMap Prod.snd) := heartbeatSuccess_doc ..
  refine ⟨?_, doc, ?_⟩
  · -- every id is above the cursor of a login
    have above : ∀ id : Nat, (-1 : Int) < id := fun id => by omega
    simp only [cursor_of_recent run nothing, above, true_and] at batches
    exact batches
  · rw [doc]
    exact S.1.client.doc.attachAll_again_iff _

/-- `a` types a character and sends it; as `b` the same window attaches it again. -/
theorem replayed_as_other : ∃ (S S' : Window Char ℚ × Redis Char (Batch ℚ)),
    S.1.client.doc.text = some [97] ∧ S'.1.client.doc = S.1.client.doc.attachAll [(1 / 2, 97)] ∧
      S'.1.client.doc.text = some [97, 97] := by
  obtain ⟨τ, S, run, nothing, found, allowed, few, before, ticks⟩ :
      ∃ (τ : List (Event Char ℚ)) (S : Window Char ℚ × Redis Char (Batch ℚ)),
        Run Trix.clamped Char.toLower ' ' τ S ∧ recent τ = [] ∧ S.1.intervals.lookup 3 = some (.heartbeat 'b') ∧
        Machine.Each (Requests.Allowed Char.toLower) [] (served τ) ∧
        (Requests.pushes Char.toLower (served τ)).length < 2 ^ 53 ∧ S.1.client.doc.text = some [97] ∧
        ((step Trix.clamped Char.toLower ' ' S (.tick 3 [(1, [(1 / 2, 97)])])).any fun r =>
            decide (r.1.1.client.doc.text = some [97, 97])) = true :=
    Machine.Run.of_replay (show ((machine Trix.clamped Char.toLower ' ').exec
      [.name 'a', .loginAsGuest, .edit (.type 97 0 0), .tick 1 [], .logOut, .name 'b', .loginAsGuest]
      ([], ((loaded ' ').logOut, Redis.empty))).any _ = true by decide +kernel)
  obtain ⟨⟨S', evs⟩, tick, after⟩ := (Option.any_eq_true _ _).1 ticks
  exact ⟨S, S', before, (replayed run nothing found tick allowed few).2.1, of_decide_eq_true after⟩

/-! ## Between two logins -/

/-- The cursor separates what was applied since the last login from what was not. -/
structure Since (lower : Name → Name) (τ : List (Event Name Tag)) (last : Int) : Prop where
  ascending : (recent τ).Pairwise (· < ·)
  below : ∀ id ∈ recent τ, (id : Int) ≤ last
  complete : ∀ p ∈ Requests.pushes lower (served τ), (p.id : Int) ≤ last → p.user ∉ (entered τ).map lower →
    p.id ∈ recent τ

/-- The ids given out since are above all the earlier ones. -/
theorem logged_before {e e' : List (Requests.Event Name (Batch Tag))} {s s' : Redis Name (Batch Tag)}
    (exact_ : Requests.Exact lower e s) (exact' : Requests.Exact lower (e ++ e') s')
    {p : Requests.Push Name (Batch Tag)} (member : p ∈ Requests.pushes lower (e ++ e'))
    (le : p.id ≤ (Requests.pushes lower e).length) : p ∈ Requests.pushes lower e := by
  have listed : p.id ∈ (Requests.pushes lower e).map Requests.Push.id := by
    rw [exact_.numbered, List.mem_range'_1]
    have := (exact'.fresh member).1
    omega
  obtain ⟨q, before, same⟩ := List.mem_map.1 listed
  have later : q ∈ Requests.pushes lower (e ++ e') := by
    rw [Requests.pushes_append]
    exact List.mem_append_left _ before
  exact exact'.unique later member same ▸ before

/-- The window and the server go on without the page. -/
theorem Since.quiet (since : Since lower τ S.1.client.lastReceivedGreatestSeqNum)
    (exact_ : Requests.Exact lower (served τ) S.2) (exact' : Requests.Exact lower (served (τ ++ evs)) S'.2)
    (listed : Listed (Requests.pushes lower (served τ)).length S.1.client)
    (same : S'.1.client.lastReceivedGreatestSeqNum = S.1.client.lastReceivedGreatestSeqNum)
    (none : recent (τ ++ evs) = recent τ) : Since lower (τ ++ evs) S'.1.client.lastReceivedGreatestSeqNum := by
  rw [same]
  refine ⟨none ▸ since.ascending, none ▸ since.below, fun p member le stranger => ?_⟩
  rw [served_append] at exact' member
  have cursor := listed.cursor
  have before := logged_before exact_ exact' member (by omega)
  rw [entered_append, List.map_append, List.mem_append, not_or] at stranger
  rw [none]
  exact since.complete p before le stranger.1

/-- A heartbeat applies what is above the cursor, but for the pushes of its guest. -/
theorem Since.beat {guestName : Name} {transactions : List (Nat × List (Tag × CharCode))} {c : Client Tag}
    {e : Requests.Event Name (Batch Tag)} (since : Since lower τ c.lastReceivedGreatestSeqNum)
    (exact_ : Requests.Exact lower (served τ) S.2) (guest : guestName ∈ entered τ)
    (batches : List.Forall₂ (fun given p => given.1 = p.id ∧ given.2.Perm p.batch.pairs) transactions
      ((Requests.pushes lower (served τ)).filter fun p => c.lastReceivedGreatestSeqNum < p.id ∧
        p.user ≠ lower guestName))
    (silent : Requests.pushed lower e = none) (userCount userPosition : Int) :
    Since lower (τ ++ [.served e, .applied guestName transactions])
      (c.applyReply userCount userPosition transactions).lastReceivedGreatestSeqNum := by
  obtain ⟨-, -, -, -, -, grows, reaches⟩ := Client.applyBatches_spec
    { c with userCount := userCount, userPosition := userPosition } transactions
  have ids : transactions.map Prod.fst = ((Requests.pushes lower (served τ)).filter fun p =>
      c.lastReceivedGreatestSeqNum < p.id ∧ p.user ≠ lower guestName).map Requests.Push.id :=
    List.forall₂_eq_eq_eq ▸ List.forall₂_map_left_iff.2
      (List.forall₂_map_right_iff.2 (batches.imp fun _ _ h => h.1))
  have above : ∀ id ∈ transactions.map Prod.fst, c.lastReceivedGreatestSeqNum < id := by
    intro id member
    rw [ids] at member
    obtain ⟨p, inLog, rfl⟩ := List.mem_map.1 member
    exact (of_decide_eq_true (List.mem_filter.1 inLog).2).1
  have log : Requests.pushes lower (served (τ ++ [.served e, .applied guestName transactions])) =
      Requests.pushes lower (served τ) := by
    rw [served_append]
    exact Requests.pushes_quiet silent
  refine ⟨?_, fun id member => ?_, fun p member le stranger => ?_⟩
  · rw [recent_beat, List.pairwise_append]
    refine ⟨since.ascending, ?_, fun id old id' new => ?_⟩
    · rw [ids, List.pairwise_map]
      exact exact_.ascending.filter _
    · have := since.below id old
      have := above id' new
      omega
  · rw [recent_beat, List.mem_append] at member
    rcases member with old | new
    · exact (since.below id old).trans grows
    · obtain ⟨t, inReply, rfl⟩ := List.mem_map.1 new
      exact reaches t inReply
  · rw [log] at member
    rw [recent_beat, List.mem_append]
    rw [entered_append, List.map_append, List.mem_append, not_or] at stranger
    by_cases old : (p.id : Int) ≤ c.lastReceivedGreatestSeqNum
    · exact .inl (since.complete p member old stranger.1)
    · right
      rw [ids]
      have foreign : p.user ≠ lower guestName := fun same =>
        stranger.1 (same ▸ List.mem_map_of_mem guest)
      exact List.mem_map_of_mem (List.mem_filter.2 ⟨member, decide_eq_true ⟨not_le.1 old, foreign⟩⟩)

end Window

end ColabEdit.Session
