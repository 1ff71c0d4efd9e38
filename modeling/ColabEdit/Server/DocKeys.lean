/-
# ColabEdit.Server.DocKeys -- the three keys of the server's document

Any number of requests that construct `PPS()` and attach and hide tags, with
their commands interleaved, from the empty store.  A command of a request is one
of the constructor, of `attach` or of `hide` (`Plan`); what a request has begun
it still owes (`Owes`), so in a state without requests in progress nothing is
left half done: `pps` and `persist` have the tags of `tags` as keys.

Nothing looks whether a tag is in the list already.  `represented_iff`: the list
is sorted and without repetition exactly if the attached tags are different from
each other and from `'0'` and `'1'`, and at most one request found the document
missing (`Apart`).

Pole: `made_twice`, two first requests that race.
-/
import ColabEdit.Server.Handlers
import ColabEdit.Theory.Pool
import ColabEdit.Theory.SortedList
import Mathlib.Data.List.Perm.Basic

namespace ColabEdit.Server

open ColabEdit.Theory

set_option autoImplicit false
set_option linter.unusedSectionVars false

variable {J Name Batch : Type} [DecidableEq J] [DecidableEq Name]

namespace DocKeys

/-- A request: the constructor, then the loop over its edits. -/
def request (edits : List DocEdit) : Handler Name Batch Unit := do
  PPS.init Name Batch
  PPS.editAll Name Batch edits

/-! ## What a request has begun -/

/-- A sequence of commands that is written to its end once it has begun. -/
inductive Plan where
  | make
  | attach (tag x : String)
  | hide (tag : String)

def Plan.cmds : Plan → List DocCmd
  | make =>
      [.hsetPps "0" "0", .hsetPps "1" "0", .hsetPersist "0" .yes, .hsetPersist "1" .yes,
        .rpushTags "0", .rpushTags "1", .rpushKeys PPS.key]
  | attach tag x => [.hsetPps tag x, .rpushTags tag, .sortTags, .hsetPersist tag .yes]
  | hide tag => [.hsetPps tag "0", .hsetPersist tag .no]

/-- The commands one after the other, whatever they reply. -/
def doAll : List DocCmd → Handler Name Batch Unit → Handler Name Batch Unit
  | [], rest => rest
  | c :: todo, rest => Prog.call (.doc c) fun _ => doAll todo rest

inductive Phase where
  | looking (edits : List DocEdit)
  /-- In the middle of a plan. -/
  | doing (plan : Plan) (done : List DocCmd) (c : DocCmd) (todo : List DocCmd) (edits : List DocEdit)
  /-- Between two edits. -/
  | editing (edits : List DocEdit)

namespace Phase

def prog : Phase → Handler Name Batch Unit
  | looking edits => request edits
  | doing _ _ c todo edits => doAll (c :: todo) (PPS.editAll Name Batch edits)
  | editing edits => PPS.editAll Name Batch edits

/-- The phase in front of the commands that are left. -/
def resume (plan : Plan) (done : List DocCmd) : List DocCmd → List DocEdit → Phase
  | [], edits => editing edits
  | c :: todo, edits => doing plan done c todo edits

theorem resume_prog (plan : Plan) (done todo : List DocCmd) (edits : List DocEdit) :
    ((resume plan done todo edits).prog : Handler Name Batch Unit) =
      doAll todo (PPS.editAll Name Batch edits) := by
  cases todo <;> rfl

theorem request_eq (edits : List DocEdit) :
    (request edits : Handler Name Batch Unit) = Prog.call (.doc .lrangeKeys) fun keys =>
      if (keys : List String).count PPS.key = 0 then doAll Plan.make.cmds (PPS.editAll Name Batch edits)
      else PPS.editAll Name Batch edits := by
  refine congrArg (Prog.call _) (funext fun keys => ?_)
  show ((if (keys : List String).count PPS.key = 0 then _ else _ : Handler Name Batch Unit) >>=
    fun _ => PPS.editAll Name Batch edits) = _
  split <;> rfl

/-- One command of a phase, its reply, and the phase after it. -/
inductive Next : Phase → (c : DocCmd) → c.Reply → Phase → Prop
  | blind {keys : List String} (edits : List DocEdit) (missing : keys.count PPS.key = 0) :
      Next (looking edits) .lrangeKeys keys (resume .make [] Plan.make.cmds edits)
  | known {keys : List String} (edits : List DocEdit) (there : keys.count PPS.key ≠ 0) :
      Next (looking edits) .lrangeKeys keys (editing edits)
  | go (plan : Plan) (done : List DocCmd) (c : DocCmd) (r : c.Reply) (todo : List DocCmd)
      (edits : List DocEdit) :
      Next (doing plan done c todo edits) c r (resume plan (done ++ [c]) todo edits)
  | attach (tag x : String) (edits : List DocEdit) :
      Next (editing (.attach tag x :: edits)) (.hsetPps tag x) ()
        (resume (.attach tag x) [.hsetPps tag x] (Plan.attach tag x).cmds.tail edits)
  | hide (tag : String) (edits : List DocEdit) :
      Next (editing (.hide tag :: edits)) (.hexistsPps tag) true
        (resume (.hide tag) [] (Plan.hide tag).cmds edits)
  | skip (tag : String) (edits : List DocEdit) :
      Next (editing (.hide tag :: edits)) (.hexistsPps tag) false (editing edits)

/-- **The commands of a request.** -/
theorem next {phase : Phase} {c : Cmd Name Batch} {k : c.Reply → Handler Name Batch Unit}
    (here : phase.prog = .call c k) (r : c.Reply) :
    ∃ (c' : DocCmd) (r' : c'.Reply) (phase' : Phase),
      (⟨c, r⟩ : (c : Cmd Name Batch) × c.Reply) = ⟨.doc c', r'⟩ ∧ Next phase c' r' phase' ∧
        k r = phase'.prog := by
  cases phase with
  | looking edits =>
      rw [show (looking edits).prog = request edits from rfl, request_eq] at here
      cases here
      refine ⟨.lrangeKeys, r, ?_⟩
      by_cases missing : (r : List String).count PPS.key = 0
      · exact ⟨_, rfl, .blind edits missing, if_pos missing⟩
      · exact ⟨_, rfl, .known edits missing, if_neg missing⟩
  | doing plan done c' todo edits =>
      cases here
      exact ⟨c', r, _, rfl, .go plan done c' r todo edits, (resume_prog ..).symm⟩
  | editing edits =>
      cases edits with
      | nil => cases here
      | cons e rest =>
          cases e with
          | attach tag x =>
              cases here
              refine ⟨.hsetPps tag x, (), _, rfl, .attach tag x rest, ?_⟩
              rfl
          | hide tag =>
              cases here
              cases r with
              | true =>
                  refine ⟨.hexistsPps tag, true, _, rfl, .hide tag rest, ?_⟩
                  rfl
              | false =>
                  refine ⟨.hexistsPps tag, false, _, rfl, .skip tag rest, ?_⟩
                  rfl
          | malformed => cases here

end Phase

/-! ## What a plan promises -/

/-- The tags that a list of commands pushes. -/
def pushesIn (cmds : List DocCmd) : List String :=
  cmds.filterMap fun
    | .rpushTags tag => some tag
    | _ => none

/-- The ways to stop in front of an element of a list. -/
def splits {α : Type} : List α → List (List α × α × List α)
  | [] => []
  | x :: rest => ([], x, rest) :: (splits rest).map fun s => (x :: s.1, s.2)

theorem mem_splits {α : Type} {l done todo : List α} {c : α} (shape : l = done ++ c :: todo) :
    (done, c, todo) ∈ splits l := by
  subst shape
  induction done with
  | nil => exact List.mem_cons_self
  | cons x rest ih => exact List.mem_cons_of_mem _ (List.mem_map_of_mem (f := fun s => (x :: s.1, s.2)) ih)

namespace Plan

variable {plan : Plan} {done todo : List DocCmd} {tag x : String} {value : Persist}

/-- A tag that is written is pushed and marked later, unless it is hidden. -/
theorem of_hsetPps (shape : plan.cmds = done ++ .hsetPps tag x :: todo) :
    plan = .hide tag ∨ (.rpushTags tag ∈ todo ∧ .hsetPersist tag .yes ∈ todo) := by
  have member := mem_splits shape
  cases plan <;> simp [splits, cmds] at member <;> grind

theorem of_rpushTags (shape : plan.cmds = done ++ .rpushTags tag :: todo) :
    (∃ x, .hsetPps tag x ∈ done) ∧ (plan ≠ .make → .sortTags ∈ todo) := by
  have member := mem_splits shape
  cases plan <;> simp [splits, cmds] at member <;> grind

theorem of_hsetPersist (shape : plan.cmds = done ++ .hsetPersist tag value :: todo) :
    ∃ x, .hsetPps tag x ∈ done := by
  have member := mem_splits shape
  cases plan <;> simp [splits, cmds] at member <;> grind

/-- Only the constructor looks for the document, before its plan. -/
theorem of_lrangeKeys : plan.cmds ≠ done ++ .lrangeKeys :: todo := by
  intro shape
  have member := mem_splits shape
  cases plan <;> simp [splits, cmds] at member

/-- The constructor registers its key last, and never sorts. -/
theorem of_make {c : DocCmd} (shape : Plan.make.cmds = done ++ c :: todo) :
    (todo = [] ∧ c = .rpushKeys PPS.key) ∨ (todo ≠ [] ∧ (∀ key, c ≠ .rpushKeys key) ∧ c ≠ .sortTags) := by
  have member := mem_splits shape
  simp [splits, cmds] at member
  grind

end Plan

/-! ## Runs of requests -/

abbrev Event (J Name Batch : Type) := Pool.Event J (List DocEdit) (@Cmd.Reply Name Batch)

abbrev State (J Name Batch : Type) :=
  Pool J (List DocEdit) (Redis Name Batch) (@Cmd.Reply Name Batch) Unit

/-- A run of requests, labelled with their edits, from the empty store. -/
abbrev Run (τ : List (Event J Name Batch)) (S : State J Name Batch) : Prop :=
  Pool.Run Cmd.exec request Redis.empty τ S

/-- The tags that the edits attach, up to a malformed one. -/
def attached : List DocEdit → List String
  | .attach tag _ :: rest => tag :: attached rest
  | .hide _ :: rest => attached rest
  | _ => []

/-- The tags that all requests attach. -/
def attaches (τ : List (Event J Name Batch)) : List String :=
  (Pool.spawned τ).flatMap fun request => attached request.2

/-- A request that looks for the document and does not find it. -/
def isBlind : Event J Name Batch → Bool
  | .ran _ _ (.doc .lrangeKeys) keys => decide ((keys : List String).count PPS.key = 0)
  | _ => false

/-- The attached tags are different from each other and from `'0'` and `'1'`, and
at most one request makes the document. -/
structure Apart (τ : List (Event J Name Batch)) : Prop where
  tags : (["0", "1"] ++ attaches τ).Nodup
  once : τ.countP isBlind ≤ 1

/-- The representation invariant of the three keys. -/
structure Represented (d : DocStore) : Prop where
  sorted : d.tags.Pairwise (· ≤ ·)
  nodup : d.tags.Nodup
  pps : ∀ tag, tag ∈ d.tags ↔ tag ∈ d.pps
  persist : ∀ tag, tag ∈ d.tags ↔ tag ∈ d.persist
  ends : d.tags.count "0" = 1 ∧ d.tags.count "1" = 1

variable {τ : List (Event J Name Batch)} {S : State J Name Batch}

/-! ## Nothing is left half done -/

/-- The keys agree up to what is owed. -/
structure Agree (S : State J Name Batch) : Prop where
  pushed : ∀ tag ∈ S.store.doc.pps,
    tag ∈ S.store.doc.tags ∨ S.Owed (.doc (.rpushTags tag) : Cmd Name Batch)
  marked : ∀ tag ∈ S.store.doc.pps,
    tag ∈ S.store.doc.persist ∨ S.Owed (.doc (.hsetPersist tag .yes) : Cmd Name Batch)
  tags : ∀ tag ∈ S.store.doc.tags, tag ∈ S.store.doc.pps
  persist : ∀ tag ∈ S.store.doc.persist, tag ∈ S.store.doc.pps

/-- What a phase knows of `pps`. -/
def KnowsKeys (s : Redis Name Batch) : Phase → Prop
  | .doing plan done c todo _ => plan.cmds = done ++ c :: todo ∧
      (∀ tag x, .hsetPps tag x ∈ done → tag ∈ s.doc.pps) ∧ ∀ tag, plan = .hide tag → tag ∈ s.doc.pps
  | _ => True

/-- The program of a phase owes the commands that are left of its plan. -/
theorem owes_doAll {todo : List DocCmd} {rest : Handler Name Batch Unit} {c : DocCmd} (left : c ∈ todo) :
    (doAll todo rest).Owes (.doc c) := by
  induction todo with
  | nil => cases left
  | cons c' todo ih =>
      rcases List.mem_cons.1 left with rfl | later
      · exact Or.inl rfl
      · exact Or.inr fun _ => ih later

/-- No tag leaves a key. -/
theorem exec_grows (c : DocCmd) (d : DocStore) :
    (∀ tag ∈ d.pps, tag ∈ (c.exec d).2.pps) ∧ (∀ tag ∈ d.persist, tag ∈ (c.exec d).2.persist) ∧
      (∀ tag ∈ d.tags, tag ∈ (c.exec d).2.tags) ∧ ∀ key ∈ d.keys, key ∈ (c.exec d).2.keys := by
  cases c with
  | hsetPps tag x => exact ⟨fun t member => (AList.mem_insert _).2 (Or.inr member), fun _ h => h, fun _ h => h, fun _ h => h⟩
  | hsetPersist tag v =>
      exact ⟨fun _ h => h, fun t member => (AList.mem_insert _).2 (Or.inr member), fun _ h => h, fun _ h => h⟩
  | rpushTags tag => exact ⟨fun _ h => h, fun _ h => h, fun t member => List.mem_append_left _ member, fun _ h => h⟩
  | sortTags => exact ⟨fun _ h => h, fun _ h => h, fun t member => (List.mem_insertionSort _).2 member, fun _ h => h⟩
  | rpushKeys key => exact ⟨fun _ h => h, fun _ h => h, fun _ h => h, fun k member => List.mem_append_left _ member⟩
  | _ => exact ⟨fun _ h => h, fun _ h => h, fun _ h => h, fun _ h => h⟩

/-- What is in a key afterwards was there or is what the command writes. -/
theorem exec_writes (c : DocCmd) (d : DocStore) :
    (∀ tag ∈ (c.exec d).2.pps, tag ∈ d.pps ∨ ∃ x, c = .hsetPps tag x) ∧
      (∀ tag ∈ (c.exec d).2.persist, tag ∈ d.persist ∨ ∃ value, c = .hsetPersist tag value) ∧
      ∀ tag ∈ (c.exec d).2.tags, tag ∈ d.tags ∨ c = .rpushTags tag := by
  cases c with
  | hsetPps tag x =>
      refine ⟨fun t member => ?_, fun _ h => Or.inl h, fun _ h => Or.inl h⟩
      rcases (AList.mem_insert _).1 member with rfl | before
      · exact Or.inr ⟨x, rfl⟩
      · exact Or.inl before
  | hsetPersist tag v =>
      refine ⟨fun _ h => Or.inl h, fun t member => ?_, fun _ h => Or.inl h⟩
      rcases (AList.mem_insert _).1 member with rfl | before
      · exact Or.inr ⟨v, rfl⟩
      · exact Or.inl before
  | rpushTags tag =>
      refine ⟨fun _ h => Or.inl h, fun _ h => Or.inl h, fun t member => ?_⟩
      exact (List.mem_append.1 member).imp_right fun now => by rw [List.mem_singleton.1 now]
  | sortTags => exact ⟨fun _ h => Or.inl h, fun _ h => Or.inl h, fun _ h => Or.inl ((List.mem_insertionSort _).1 h)⟩
  | _ => exact ⟨fun _ h => Or.inl h, fun _ h => Or.inl h, fun _ h => Or.inl h⟩

/-- The list grows by what is pushed, while it is not sorted. -/
theorem exec_tags {c : DocCmd} (d : DocStore) (ne : c ≠ .sortTags) :
    (c.exec d).2.tags = d.tags ++ pushesIn [c] := by
  cases c with
  | rpushTags tag => rfl
  | sortTags => exact absurd rfl ne
  | _ => exact (List.append_nil _).symm

theorem exec_keys {c : DocCmd} (d : DocStore) (ne : ∀ key, c ≠ .rpushKeys key) :
    (c.exec d).2.keys = d.keys := by
  cases c with
  | rpushKeys key => exact absurd rfl (ne key)
  | _ => rfl

/-- A command that leaves behind what it begins, run by one request. -/
theorem Agree.run {S' : State J Name Batch} {j : J} {edits : List DocEdit} {c : DocCmd}
    {k : c.Reply → Handler Name Batch Unit} (agree : Agree S)
    (here : S.threads j = some (edits, .call (.doc c) k))
    (moved : S' = S.setThread { S.store with doc := (c.exec S.store.doc).2 } j edits
      (k (c.exec S.store.doc).1))
    (begins : ∀ tag x, c = .hsetPps tag x → tag ∈ S.store.doc.pps ∨
      (k (c.exec S.store.doc).1).Owes (.doc (.rpushTags tag)) ∧
        (k (c.exec S.store.doc).1).Owes (.doc (.hsetPersist tag .yes)))
    (follows : ∀ tag, (c = .rpushTags tag ∨ ∃ value, c = .hsetPersist tag value) → tag ∈ S.store.doc.pps) :
    Agree S' := by
  obtain ⟨pps, persist, tags, -⟩ := exec_grows c S.store.doc
  obtain ⟨written, marked, pushed⟩ := exec_writes c S.store.doc
  have doc : S'.store.doc = (c.exec S.store.doc).2 := by rw [moved]; rfl
  have paid : ∀ c' : DocCmd, S.Owed (.doc c' : Cmd Name Batch) → c = c' ∨ S'.Owed (.doc c' : Cmd Name Batch) := by
    intro c' owed
    by_cases now : c = c'
    · exact Or.inl now
    · rw [moved]
      exact Or.inr (owed.run here (fun same => now (Cmd.doc.inj same)) _)
  have owes : ∀ c' : DocCmd, (k (c.exec S.store.doc).1).Owes (.doc c') → S'.Owed (.doc c' : Cmd Name Batch) := by
    intro c' owes
    rw [moved]
    exact Pool.owed_self owes
  rw [← doc] at pps persist tags written marked pushed
  constructor
  · intro tag member
    have old : tag ∈ S.store.doc.pps →
        tag ∈ S'.store.doc.tags ∨ S'.Owed (.doc (.rpushTags tag) : Cmd Name Batch) := fun before => by
      rcases agree.pushed tag before with there | owed
      · exact Or.inl (tags tag there)
      · refine (paid _ owed).imp_left fun now => ?_
        rw [doc, now]
        exact List.mem_append_right _ (List.mem_singleton_self _)
    rcases written tag member with before | ⟨x, rfl⟩
    · exact old before
    · rcases begins tag x rfl with before | later
      · exact old before
      · exact Or.inr (owes _ later.1)
  · intro tag member
    have old : tag ∈ S.store.doc.pps →
        tag ∈ S'.store.doc.persist ∨ S'.Owed (.doc (.hsetPersist tag .yes) : Cmd Name Batch) := fun before => by
      rcases agree.marked tag before with there | owed
      · exact Or.inl (persist tag there)
      · refine (paid _ owed).imp_left fun now => ?_
        rw [doc, now]
        exact (AList.mem_insert _).2 (Or.inl rfl)
    rcases written tag member with before | ⟨x, rfl⟩
    · exact old before
    · rcases begins tag x rfl with before | later
      · exact old before
      · exact Or.inr (owes _ later.2)
  · intro tag member
    rcases pushed tag member with before | now
    · exact pps tag (agree.tags tag before)
    · exact pps tag (follows tag (Or.inl now))
  · intro tag member
    rcases marked tag member with before | now
    · exact pps tag (agree.persist tag before)
    · exact pps tag (follows tag (Or.inr now))

/-- The phase that follows a command of a plan knows what it wrote. -/
theorem knowsKeys_resume {s : Redis Name Batch} {plan : Plan} {done todo : List DocCmd} {rest : List DocEdit}
    (shape : plan.cmds = done ++ todo) (written : ∀ tag x, .hsetPps tag x ∈ done → tag ∈ s.doc.pps)
    (hidden : ∀ tag, plan = .hide tag → tag ∈ s.doc.pps) :
    KnowsKeys s (Phase.resume plan done todo rest) := by
  cases todo with
  | nil => trivial
  | cons c todo => exact ⟨shape, written, hidden⟩

/-- One command, from the phase before it. -/
theorem Agree.step {S' : State J Name Batch} {j : J} {edits : List DocEdit} {phase phase' : Phase}
    {c : DocCmd} {k : c.Reply → Handler Name Batch Unit} (agree : Agree S)
    (here : S.threads j = some (edits, .call (.doc c) k)) (knows : KnowsKeys S.store phase)
    (moved : Phase.Next phase c (c.exec S.store.doc).1 phase')
    (next : k (c.exec S.store.doc).1 = phase'.prog)
    (is : S' = S.setThread { S.store with doc := (c.exec S.store.doc).2 } j edits (k (c.exec S.store.doc).1)) :
    Agree S' ∧ KnowsKeys S'.store phase' := by
  have doc : S'.store.doc = (c.exec S.store.doc).2 := by rw [is]; rfl
  generalize reply : (c.exec S.store.doc).1 = r at moved next
  cases moved with
  | blind rest missing =>
      refine ⟨agree.run here is nofun nofun, ?_⟩
      exact knowsKeys_resume rfl nofun nofun
  | known rest there => exact ⟨agree.run here is nofun nofun, trivial⟩
  | go plan done c r todo rest =>
      obtain ⟨shape, written, hidden⟩ := knows
      rw [Phase.resume_prog] at next
      refine ⟨agree.run here is ?_ ?_, knowsKeys_resume (by rw [shape]; simp) ?_ ?_⟩
      · rintro tag x rfl
        rw [reply, next]
        rcases Plan.of_hsetPps shape with hides | ⟨push, mark⟩
        · exact Or.inl (hidden tag hides)
        · exact Or.inr ⟨owes_doAll push, owes_doAll mark⟩
      · rintro tag (rfl | ⟨value, rfl⟩)
        · obtain ⟨⟨x, begun⟩, -⟩ := Plan.of_rpushTags shape
          exact written tag x begun
        · obtain ⟨x, begun⟩ := Plan.of_hsetPersist shape
          exact written tag x begun
      · intro tag x member
        rw [doc]
        rcases List.mem_append.1 member with before | now
        · exact (exec_grows c _).1 tag (written tag x before)
        · rw [← List.mem_singleton.1 now]
          exact (AList.mem_insert _).2 (Or.inl rfl)
      · intro tag hides
        rw [doc]
        exact (exec_grows c _).1 tag (hidden tag hides)
  | attach tag x rest =>
      rw [Phase.resume_prog] at next
      refine ⟨agree.run here is ?_ nofun, knowsKeys_resume rfl ?_ nofun⟩
      · rintro _ _ ⟨⟩
        rw [next]
        exact Or.inr ⟨owes_doAll (by simp [Plan.cmds]), owes_doAll (by simp [Plan.cmds])⟩
      · intro t y member
        cases List.mem_singleton.1 member
        rw [doc]
        exact (AList.mem_insert _).2 (Or.inl rfl)
  | hide tag rest =>
      refine ⟨agree.run here is nofun nofun, knowsKeys_resume rfl nofun ?_⟩
      rintro _ ⟨⟩
      rw [doc]
      exact of_decide_eq_true reply
  | skip tag rest => exact ⟨agree.run here is nofun nofun, trivial⟩

theorem agree_outline :
    Pool.Outline (J := J) (@Cmd.exec Name Batch _) request Phase.prog Redis.empty
      (fun _ S => Agree S) (fun _ s _ _ phase => KnowsKeys s phase) where
  start := ⟨nofun, nofun, nofun, nofun⟩
  spawn := by
    intro τ S j edits agree free _
    refine ⟨⟨fun tag member => ?_, fun tag member => ?_, agree.tags, agree.persist⟩, .looking edits, rfl, trivial⟩
    · exact (agree.pushed tag member).imp_right fun owed => owed.spawn free
    · exact (agree.marked tag member).imp_right fun owed => owed.spawn free
  spawn_other := fun _ knows => knows
  run := by
    intro τ S j edits phase c k agree here is knows
    obtain ⟨c', r', phase', reply, moved, next⟩ := Phase.next is (c.exec S.store).1
    cases reply
    obtain ⟨agree', knows'⟩ := agree.step here knows moved next rfl
    exact ⟨agree', phase', next, knows'⟩
  run_other := by
    intro τ S j edits phase c k j' edits' phase' _ is _ _ knows
    obtain ⟨c', r', -, reply, -⟩ := Phase.next is (c.exec S.store).1
    cases reply
    cases phase' with
    | doing plan done c todo rest =>
        obtain ⟨shape, written, hidden⟩ := knows
        exact ⟨shape, fun tag x begun => (exec_grows c' _).1 tag (written tag x begun),
          fun tag hides => (exec_grows c' _).1 tag (hidden tag hides)⟩
    | _ => trivial

/-! ## Every tag is accounted for -/

/-- The tags that were pushed. -/
def pushed (τ : List (Event J Name Batch)) : List String :=
  τ.filterMap fun
    | .ran _ _ (.doc (.rpushTags tag)) _ => some tag
    | _ => none

theorem pushed_append {τ τ' : List (Event J Name Batch)} : pushed (τ ++ τ') = pushed τ ++ pushed τ' :=
  List.filterMap_append

theorem pushed_ran (j : J) (edits : List DocEdit) (c : DocCmd) (r : c.Reply) :
    pushed [(.ran j edits (.doc c) r : Event J Name Batch)] = pushesIn [c] := by
  cases c <;> rfl

/-- What `n` constructors push that find the document missing. -/
def made (n : ℕ) : List String := (List.replicate n ["0", "1"]).flatten

theorem made_succ (n : ℕ) : made (n + 1) = ["0", "1"] ++ made n := rfl

theorem made_sum {α : Type} (l : List α) (n : α → ℕ) : made (l.map n).sum = l.flatMap fun x => made (n x) := by
  induction l with
  | nil => rfl
  | cons x rest ih =>
      rw [List.map_cons, List.sum_cons, List.flatMap_cons, ← ih, made, List.replicate_add, List.flatten_append]
      rfl

/-- How often the request `j` did not find the document. -/
def blinds (j : J) (τ : List (Event J Name Batch)) : ℕ := (Pool.partOf j τ).countP isBlind

/-- The tags that a phase has still to push. -/
def Phase.left : Phase → List String
  | looking _ => []
  | doing _ _ c todo edits => pushesIn (c :: todo) ++ attached edits
  | editing edits => attached edits

theorem pushesIn_cons (c : DocCmd) (todo : List DocCmd) :
    pushesIn (c :: todo) = pushesIn [c] ++ pushesIn todo := by
  rw [show c :: todo = [c] ++ todo from rfl]
  exact List.filterMap_append

theorem pushesIn_append (done todo : List DocCmd) : pushesIn (done ++ todo) = pushesIn done ++ pushesIn todo :=
  List.filterMap_append

/-- A plan is a phase of its commands. -/
def Phase.Fits : Phase → Prop
  | doing plan done c todo _ => plan.cmds = done ++ c :: todo
  | _ => True

/-- What a request pushed and what it has left make up what it is for. -/
def Accounts (j : J) (τ : List (Event J Name Batch)) (edits : List DocEdit) : Phase → Prop
  | .looking rest => rest = edits ∧ pushed (Pool.partOf j τ) = [] ∧ blinds j τ = 0
  | phase => phase.Fits ∧ pushed (Pool.partOf j τ) ++ phase.left = made (blinds j τ) ++ attached edits

theorem accounts_resume {j : J} {edits rest : List DocEdit} {plan : Plan} {done todo : List DocCmd}
    (shape : plan.cmds = done ++ todo)
    (eq : pushed (Pool.partOf j τ) ++ (pushesIn todo ++ attached rest) = made (blinds j τ) ++ attached edits) :
    Accounts j τ edits (Phase.resume plan done todo rest) := by
  cases todo with
  | nil => exact ⟨trivial, eq⟩
  | cons c todo => exact ⟨shape, eq⟩

/-- One command of a request, from the phase before it. -/
theorem Accounts.step {j : J} {edits : List DocEdit} {phase phase' : Phase} {c : DocCmd} {r : c.Reply}
    (accounts : Accounts j τ edits phase) (moved : Phase.Next phase c r phase') :
    Accounts j (τ ++ [.ran j edits (.doc c) r]) edits phase' := by
  have part : Pool.partOf j (τ ++ [.ran j edits (.doc c) r]) = Pool.partOf j τ ++ [.ran j edits (.doc c) r] :=
    Pool.partOf_self (e := (.ran j edits (.doc c) r : Event J Name Batch))
  have pushes : pushed (Pool.partOf j (τ ++ [.ran j edits (.doc c) r])) =
      pushed (Pool.partOf j τ) ++ pushesIn [c] := by
    rw [part, pushed_append, pushed_ran]
  have looks : blinds j (τ ++ [.ran j edits (.doc c) r]) =
      blinds j τ + [(.ran j edits (.doc c) r : Event J Name Batch)].countP isBlind := by
    rw [blinds, part, List.countP_append, blinds]
  have sees : [(.ran j edits (.doc c) r : Event J Name Batch)].countP isBlind =
      if isBlind (.ran j edits (.doc c) r : Event J Name Batch) then 1 else 0 := List.countP_singleton
  cases moved with
  | @blind keys rest missing =>
      obtain ⟨rfl, none, never⟩ := accounts
      have blind : isBlind (.ran j rest (.doc .lrangeKeys) keys : Event J Name Batch) = true :=
        decide_eq_true missing
      refine accounts_resume rfl ?_
      rw [pushes, looks, sees, none, never, if_pos blind]
      rfl
  | @known keys rest there =>
      obtain ⟨rfl, none, never⟩ := accounts
      have sighted : isBlind (.ran j rest (.doc .lrangeKeys) keys : Event J Name Batch) ≠ true :=
        Bool.eq_false_iff.1 (decide_eq_false there)
      refine ⟨trivial, ?_⟩
      rw [pushes, looks, sees, none, never, if_neg sighted]
      rfl
  | go plan done c r todo rest =>
      obtain ⟨fits, eq⟩ := accounts
      have other : isBlind (.ran j edits (.doc c) r : Event J Name Batch) ≠ true := fun blind => by
        cases c with
        | lrangeKeys => exact Plan.of_lrangeKeys fits
        | _ => cases blind
      refine accounts_resume (fits.trans (List.append_cons ..)) ?_
      rw [pushes, looks, sees, if_neg other, List.append_assoc, ← List.append_assoc (pushesIn [c]),
        ← pushesIn_cons]
      exact eq
  | attach tag x rest =>
      refine accounts_resume rfl ?_
      rw [pushes, looks]
      exact (congrArg (· ++ _) (List.append_nil _)).trans accounts.2
  | hide tag rest =>
      refine accounts_resume rfl ?_
      rw [pushes, looks]
      exact (congrArg (· ++ _) (List.append_nil _)).trans accounts.2
  | skip tag rest =>
      refine ⟨trivial, ?_⟩
      rw [pushes, looks]
      exact (congrArg (· ++ _) (List.append_nil _)).trans accounts.2

/-- Another request's event is no business of this one. -/
theorem Accounts.other {j : J} {edits : List DocEdit} {phase : Phase} {e : Event J Name Batch}
    (accounts : Accounts j τ edits phase) (ne : e.thread ≠ j) : Accounts j (τ ++ [e]) edits phase := by
  have part : Pool.partOf j (τ ++ [e]) = Pool.partOf j τ := Pool.partOf_other ne
  cases phase <;> simpa only [Accounts, blinds, part] using accounts

theorem accounts_outline :
    Pool.Outline (J := J) (@Cmd.exec Name Batch _) request Phase.prog Redis.empty
      (fun τ S => S.store.doc.tags.Perm (pushed τ)) (fun τ _ j edits phase => Accounts j τ edits phase) where
  start := .refl _
  spawn := by
    intro τ S j edits perm free untouched
    refine ⟨?_, .looking edits, rfl, rfl, ?_⟩
    · rw [pushed_append, show pushed [(.spawned j edits : Event J Name Batch)] = [] from rfl, List.append_nil]
      exact perm
    · have part : Pool.partOf j (τ ++ [.spawned j edits]) = [.spawned j edits] := by
        rw [Pool.partOf_append, Pool.partOf, List.filter_eq_nil_iff.2 fun e member => by
          simpa using untouched e member]
        simp [Pool.partOf, Pool.Event.thread]
      rw [blinds, part]
      exact ⟨rfl, rfl⟩
  spawn_other := fun ne accounts => accounts.other ne.symm
  run := by
    intro τ S j edits phase c k perm here is accounts
    obtain ⟨c', r', phase', reply, moved, next⟩ := Phase.next is (c.exec S.store).1
    cases reply
    refine ⟨?_, phase', next, accounts.step moved⟩
    rw [pushed_append, pushed_ran]
    cases c' with
    | rpushTags tag => exact perm.append_right [tag]
    | sortTags => exact (List.perm_insertionSort _ _).trans (perm.trans (by simp [pushesIn]))
    | _ => exact perm.trans (by simp [pushesIn])
  run_other := fun _ _ _ ne accounts => accounts.other ne.symm

/-! ## The order of the list -/

/-- While at most one request made the document, the list is sorted or will be. -/
structure InOrder (τ : List (Event J Name Batch)) (S : State J Name Batch) : Prop where
  untouched : τ.countP isBlind = 0 → S.store.doc.tags = [] ∧ S.store.doc.keys = []
  sorted : τ.countP isBlind ≤ 1 →
    S.store.doc.tags.Pairwise (· ≤ ·) ∨ S.Owed (.doc .sortTags : Cmd Name Batch)

/-- A request that makes the document is alone with it; any other found its key. -/
def Knows (s : Redis Name Batch) (τ : List (Event J Name Batch)) (j : J) : Phase → Prop
  | .looking _ => True
  | .doing .make done c todo _ => Plan.make.cmds = done ++ c :: todo ∧ 0 < blinds j τ ∧
      (τ.countP isBlind ≤ 1 → s.doc.tags = pushesIn done ∧ PPS.key ∉ s.doc.keys)
  | .doing plan done c todo _ => plan.cmds = done ++ c :: todo ∧ PPS.key ∈ s.doc.keys
  | .editing _ => PPS.key ∈ s.doc.keys

theorem Knows.registered {s : Redis Name Batch} {j : J} {plan : Plan} {done todo : List DocCmd} {c : DocCmd}
    {rest : List DocEdit} (knows : Knows s τ j (.doing plan done c todo rest)) (other : plan ≠ .make) :
    plan.cmds = done ++ c :: todo ∧ PPS.key ∈ s.doc.keys := by
  cases plan with
  | make => exact absurd rfl other
  | attach | hide => exact knows

theorem knows_resume {s : Redis Name Batch} {j : J} {plan : Plan} {done todo : List DocCmd} {rest : List DocEdit}
    (other : plan ≠ .make) (shape : plan.cmds = done ++ todo) (registered : PPS.key ∈ s.doc.keys) :
    Knows s τ j (Phase.resume plan done todo rest) := by
  cases todo with
  | nil => exact registered
  | cons c todo =>
      cases plan with
      | make => exact absurd rfl other
      | attach | hide => exact ⟨shape, registered⟩

/-- The constructor after one of its commands. -/
theorem knows_resume_make {s : Redis Name Batch} {j : J} {done todo : List DocCmd} {rest : List DocEdit}
    (shape : Plan.make.cmds = done ++ todo) (positive : 0 < blinds j τ)
    (last : todo = [] → PPS.key ∈ s.doc.keys)
    (alone : todo ≠ [] → τ.countP isBlind ≤ 1 → s.doc.tags = pushesIn done ∧ PPS.key ∉ s.doc.keys) :
    Knows s τ j (Phase.resume .make done todo rest) := by
  cases todo with
  | nil => exact last rfl
  | cons c todo => exact ⟨shape, positive, alone nofun⟩

theorem blinds_le (j : J) : blinds j τ ≤ τ.countP isBlind := List.Sublist.countP_le List.filter_sublist

theorem blinds_self {j : J} {edits : List DocEdit} {c : DocCmd} {r : c.Reply} (positive : 0 < blinds j τ) :
    0 < blinds j (τ ++ [.ran j edits (.doc c) r]) := by
  rw [blinds, Pool.partOf_append, List.countP_append]
  exact Nat.add_pos_left positive _

/-- Only the look of a request that finds nothing is blind. -/
theorem countP_other {j : J} {edits : List DocEdit} {c : DocCmd} {r : c.Reply}
    (other : isBlind (.ran j edits (.doc c) r : Event J Name Batch) = false) :
    List.countP isBlind (τ ++ [.ran j edits (.doc c) r]) = τ.countP isBlind := by
  rw [List.countP_append, List.countP_singleton, other]
  rfl

theorem countP_blind {j : J} {edits : List DocEdit} {keys : List String} (missing : keys.count PPS.key = 0) :
    List.countP isBlind (τ ++ [.ran j edits (.doc .lrangeKeys) keys]) = τ.countP isBlind + 1 := by
  have blind : isBlind (.ran j edits (.doc .lrangeKeys) keys : Event J Name Batch) = true :=
    decide_eq_true missing
  rw [List.countP_append, List.countP_singleton, blind]
  rfl

theorem blinds_blind {j : J} {edits : List DocEdit} {keys : List String} (missing : keys.count PPS.key = 0) :
    blinds j (τ ++ [.ran j edits (.doc .lrangeKeys) keys]) = blinds j τ + 1 := by
  have part : Pool.partOf j (τ ++ [.ran j edits (.doc .lrangeKeys) keys]) =
      Pool.partOf j τ ++ [.ran j edits (.doc .lrangeKeys) keys] :=
    Pool.partOf_self (e := (.ran j edits (.doc .lrangeKeys) keys : Event J Name Batch))
  rw [blinds, part, countP_blind missing, blinds]

theorem blinds_other {j : J} {e : Event J Name Batch} (ne : e.thread ≠ j) :
    blinds j (τ ++ [e]) = blinds j τ := by
  rw [blinds, Pool.partOf_other ne, blinds]

namespace InOrder

variable {S' : State J Name Batch} {j : J} {edits : List DocEdit} {phase phase' : Phase} {c : DocCmd}
  {k : c.Reply → Handler Name Batch Unit}

/-- Somebody found the document missing before its key is there. -/
theorem blind_pos (order : InOrder τ S) (registered : PPS.key ∈ S.store.doc.keys) : 0 < τ.countP isBlind := by
  apply Nat.pos_of_ne_zero
  intro none
  rw [(order.untouched none).2] at registered
  cases registered

/-- A command that is no blind look, once somebody looked blindly. -/
theorem run (order : InOrder τ S) (here : S.threads j = some (edits, .call (.doc c) k))
    (is : S' = S.setThread { S.store with doc := (c.exec S.store.doc).2 } j edits (k (c.exec S.store.doc).1))
    (other : isBlind (.ran j edits (.doc c) (c.exec S.store.doc).1 : Event J Name Batch) = false)
    (begun : 0 < τ.countP isBlind)
    (pushing : ∀ tag, c = .rpushTags tag → τ.countP isBlind ≤ 1 →
      S'.store.doc.tags.Pairwise (· ≤ ·) ∨ (k (c.exec S.store.doc).1).Owes (.doc .sortTags)) :
    InOrder (τ ++ [.ran j edits (.doc c) (c.exec S.store.doc).1]) S' := by
  have doc : S'.store.doc = (c.exec S.store.doc).2 := by rw [is]; rfl
  constructor
  · intro none
    rw [countP_other other] at none
    omega
  · intro once
    rw [countP_other other] at once
    have same : S'.store.doc.tags = S.store.doc.tags → c ≠ .sortTags →
        S'.store.doc.tags.Pairwise (· ≤ ·) ∨ S'.Owed (.doc .sortTags : Cmd Name Batch) := fun eq ne => by
      rw [eq]
      refine (order.sorted once).imp_right fun owed => ?_
      rw [is]
      exact owed.run here (fun same => ne (Cmd.doc.inj same)) _
    cases c with
    | rpushTags tag =>
        refine (pushing tag rfl once).imp_right fun owes => ?_
        rw [is]
        exact Pool.owed_self owes
    | sortTags =>
        rw [doc]
        exact Or.inl (List.pairwise_insertionSort (· ≤ ·) _)
    | _ => exact same (by rw [doc]; rfl) nofun

/-- One command, from the phase before it. -/
theorem step (order : InOrder τ S) (here : S.threads j = some (edits, .call (.doc c) k))
    (knows : Knows S.store τ j phase) (moved : Phase.Next phase c (c.exec S.store.doc).1 phase')
    (next : k (c.exec S.store.doc).1 = phase'.prog)
    (is : S' = S.setThread { S.store with doc := (c.exec S.store.doc).2 } j edits (k (c.exec S.store.doc).1)) :
    InOrder (τ ++ [.ran j edits (.doc c) (c.exec S.store.doc).1]) S' ∧
      Knows S'.store (τ ++ [.ran j edits (.doc c) (c.exec S.store.doc).1]) j phase' := by
  have doc : S'.store.doc = (c.exec S.store.doc).2 := by rw [is]; rfl
  have kept : PPS.key ∈ S.store.doc.keys → PPS.key ∈ S'.store.doc.keys := fun registered => by
    rw [doc]
    exact (exec_grows c _).2.2.2 _ registered
  have run := order.run here is
  generalize reply : (c.exec S.store.doc).1 = r at moved next run ⊢
  cases moved with
  | blind rest missing =>
      cases reply
      have positive : 0 < blinds j (τ ++ [.ran j edits (.doc .lrangeKeys) S.store.doc.keys]) :=
        (Nat.succ_pos _).trans_eq (blinds_blind missing).symm
      refine ⟨⟨fun none => ?_, fun once => Or.inl ?_⟩, rfl, positive, fun once => ?_⟩
      · rw [countP_blind missing] at none
        omega
      · rw [countP_blind missing] at once
        rw [doc]
        exact (order.untouched (by omega)).1 ▸ List.Pairwise.nil
      · rw [countP_blind missing] at once
        rw [doc]
        obtain ⟨tags, keys⟩ := order.untouched (by omega)
        refine ⟨tags, ?_⟩
        rw [show (DocCmd.lrangeKeys.exec S.store.doc).2.keys = [] from keys]
        exact List.not_mem_nil
  | known rest there =>
      cases reply
      have registered : PPS.key ∈ S.store.doc.keys := List.count_pos_iff.1 (Nat.pos_of_ne_zero there)
      exact ⟨run (decide_eq_false there) (order.blind_pos registered) nofun, kept registered⟩
  | go plan done c r todo rest =>
      by_cases making : plan = .make
      · subst making
        obtain ⟨shape, positive, alone⟩ := knows
        have begun : 0 < τ.countP isBlind := positive.trans_le (blinds_le j)
        have other : isBlind (.ran j edits (.doc c) r : Event J Name Batch) = false := by
          cases c with
          | lrangeKeys => exact absurd shape Plan.of_lrangeKeys
          | _ => rfl
        have unsorted : c ≠ .sortTags := fun same => by
          rcases Plan.of_make shape with ⟨-, push⟩ | ⟨-, -, ne⟩
          · cases same.symm.trans push
          · exact ne same
        have tags : τ.countP isBlind ≤ 1 → S'.store.doc.tags = pushesIn (done ++ [c]) := fun once => by
          rw [doc, exec_tags _ unsorted, (alone once).1, pushesIn_append]
        refine ⟨run other begun fun tag _ once => Or.inl ?_, ?_⟩
        · rw [tags once]
          have all : (pushesIn Plan.make.cmds).Pairwise (· ≤ ·) := by decide
          rw [shape, List.append_cons, pushesIn_append] at all
          exact (List.pairwise_append.1 all).1
        · refine knows_resume_make (shape.trans (List.append_cons ..)) (blinds_self positive) ?_ ?_
          · intro last
            rcases Plan.of_make shape with ⟨-, rfl⟩ | ⟨more, -⟩
            · rw [doc]
              exact List.mem_append_right _ (List.mem_singleton_self _)
            · exact absurd last more
          · intro more once
            rw [countP_other other] at once
            refine ⟨tags once, ?_⟩
            rcases Plan.of_make shape with ⟨last, -⟩ | ⟨-, unregistered, -⟩
            · exact absurd last more
            · rw [doc, exec_keys _ unregistered]
              exact (alone once).2
      · obtain ⟨shape, registered⟩ := knows.registered making
        have other : isBlind (.ran j edits (.doc c) r : Event J Name Batch) = false := by
          cases c with
          | lrangeKeys => exact absurd shape Plan.of_lrangeKeys
          | _ => rfl
        refine ⟨run other (order.blind_pos registered) fun tag push _ => Or.inr ?_, ?_⟩
        · subst push
          rw [next, Phase.resume_prog]
          exact owes_doAll ((Plan.of_rpushTags shape).2 making)
        · exact knows_resume making (shape.trans (List.append_cons ..)) (kept registered)
  | attach tag x rest => exact ⟨run rfl (order.blind_pos knows) nofun, rfl, kept knows⟩
  | hide tag rest => exact ⟨run rfl (order.blind_pos knows) nofun, rfl, kept knows⟩
  | skip tag rest => exact ⟨run rfl (order.blind_pos knows) nofun, kept knows⟩

end InOrder

/-- Another request that knows the document, or makes it, excludes a maker. -/
theorem Knows.excludes {j j' : J} {phase phase' : Phase} {c : DocCmd}
    (knows : Knows S.store τ j phase) (moved : Phase.Next phase c (c.exec S.store.doc).1 phase') (ne : j' ≠ j)
    (positive : 0 < blinds j' τ) (unregistered : PPS.key ∉ S.store.doc.keys) (edits : List DocEdit) :
    2 ≤ List.countP isBlind (τ ++ [.ran j edits (.doc c) (c.exec S.store.doc).1]) := by
  have begun : 0 < τ.countP isBlind := positive.trans_le (blinds_le j')
  generalize reply : (c.exec S.store.doc).1 = r at moved ⊢
  cases moved with
  | blind rest missing =>
      rw [countP_blind missing]
      omega
  | known rest there =>
      cases reply
      exact absurd (List.count_pos_iff.1 (Nat.pos_of_ne_zero there)) unregistered
  | go plan done c r todo rest =>
      by_cases making : plan = .make
      · subst making
        obtain ⟨-, positive', -⟩ := knows
        have both : blinds j' τ + blinds j τ ≤ τ.countP isBlind := Pool.countP_parts ne isBlind
        rw [List.countP_append]
        omega
      · exact absurd (knows.registered making).2 unregistered
  | attach | hide | skip => exact absurd knows unregistered

/-- A command of one request does not interfere with the others. -/
theorem Knows.other {j j' : J} {edits : List DocEdit} {phase phase' phase'' : Phase} {c : DocCmd}
    (knows : Knows S.store τ j phase) (moved : Phase.Next phase c (c.exec S.store.doc).1 phase'') (ne : j' ≠ j)
    (there : Knows S.store τ j' phase') :
    Knows { S.store with doc := (c.exec S.store.doc).2 }
      (τ ++ [.ran j edits (.doc c) (c.exec S.store.doc).1]) j' phase' := by
  have kept : PPS.key ∈ S.store.doc.keys → PPS.key ∈ (c.exec S.store.doc).2.keys :=
    (exec_grows c _).2.2.2 _
  cases phase' with
  | looking rest => trivial
  | editing rest => exact kept there
  | doing plan done c' todo rest =>
      by_cases making : plan = .make
      · subst making
        obtain ⟨shape, positive, alone⟩ := there
        have positive' : 0 < blinds j' (τ ++ [.ran j edits (.doc c) (c.exec S.store.doc).1]) := by
          rw [blinds_other]
          · exact positive
          · exact ne.symm
        refine ⟨shape, positive', fun once => ?_⟩
        have before : τ.countP isBlind ≤ 1 := by
          rw [List.countP_append] at once
          omega
        have twice := knows.excludes moved ne positive (alone before).2 edits
        omega
      · obtain ⟨shape, registered⟩ := there.registered making
        show Knows _ _ j' (Phase.resume plan done (c' :: todo) rest)
        exact knows_resume making shape (kept registered)

theorem order_outline :
    Pool.Outline (J := J) (@Cmd.exec Name Batch _) request Phase.prog Redis.empty
      InOrder (fun τ s j _ phase => Knows s τ j phase) where
  start := ⟨fun _ => ⟨rfl, rfl⟩, fun _ => Or.inl .nil⟩
  spawn := by
    intro τ S j edits order free _
    have same : List.countP isBlind (τ ++ [.spawned j edits]) = τ.countP isBlind := List.countP_append
    refine ⟨⟨fun none => order.untouched (same ▸ none), fun once => ?_⟩, .looking edits, rfl, trivial⟩
    exact (order.sorted (same ▸ once)).imp_right fun owed => owed.spawn free
  spawn_other := by
    intro τ s j edits j' edits' phase ne knows
    have same : List.countP isBlind (τ ++ [.spawned j edits]) = τ.countP isBlind := List.countP_append
    cases phase with
    | looking rest => trivial
    | editing rest => exact knows
    | doing plan done c todo rest =>
        cases plan with
        | make =>
            obtain ⟨shape, positive, alone⟩ := knows
            have positive' : 0 < blinds j' (τ ++ [.spawned j edits]) := by
              rw [blinds_other]
              · exact positive
              · exact ne.symm
            exact ⟨shape, positive', fun once => alone (same ▸ once)⟩
        | attach | hide => exact knows
  run := by
    intro τ S j edits phase c k order here is knows
    obtain ⟨c', r', phase', reply, moved, next⟩ := Phase.next is (c.exec S.store).1
    cases reply
    obtain ⟨order', knows'⟩ := order.step here knows moved next rfl
    exact ⟨order', phase', next, knows'⟩
  run_other := by
    intro τ S j edits phase c k j' edits' phase' order is knows ne there
    obtain ⟨c', r', phase'', reply, moved, -⟩ := Phase.next is (c.exec S.store).1
    cases reply
    exact knows.other moved ne there

/-! ## States without requests in progress -/

theorem ended_editing {phase : Phase} (ended : (phase.prog : Handler Name Batch Unit).Ended) :
    ∃ edits, phase = .editing edits ∧ attached edits = [] := by
  cases phase with
  | looking edits =>
      rw [show (Phase.looking edits).prog = request edits from rfl, Phase.request_eq] at ended
      exact ended.elim
  | doing => exact ended.elim
  | editing edits =>
      refine ⟨edits, rfl, ?_⟩
      cases edits with
      | nil => rfl
      | cons e rest =>
          cases e with
          | malformed => rfl
          | attach | hide => exact ended.elim

/-- All tags of the list, in a state without requests in progress. -/
theorem tags_perm (run : Run τ S) (quiet : S.Quiet) :
    S.store.doc.tags.Perm (made (τ.countP isBlind) ++ attaches τ) := by
  obtain ⟨perm, phases⟩ := accounts_outline.holds run
  obtain ⟨nodup, threads, covered⟩ := Pool.Run.spawned_spec run
  have accounts : ∀ request ∈ Pool.spawned τ,
      pushed (Pool.partOf request.1 τ) = made (blinds request.1 τ) ++ attached request.2 := by
    rintro ⟨j, edits⟩ member
    obtain ⟨p, there⟩ := (threads j edits).1 member
    obtain ⟨phase, is, accounts⟩ := phases j edits p there
    obtain ⟨rest, rfl, nothing⟩ := ended_editing (is ▸ quiet j edits p there)
    have eq := accounts.2
    rwa [show (Phase.editing rest).left = [] from nothing, List.append_nil] at eq
  have shuffled := Pool.shuffle nodup covered
  rw [List.flatMap_map] at shuffled
  have blind : τ.countP isBlind = ((Pool.spawned τ).map fun request => blinds request.1 τ).sum := by
    rw [shuffled.countP_eq, List.countP_flatMap]
    rfl
  calc
    S.store.doc.tags.Perm (pushed τ) := perm
    (pushed τ).Perm (pushed ((Pool.spawned τ).flatMap fun (request : J × List DocEdit) =>
        Pool.partOf request.1 τ)) := shuffled.filterMap _
    _ = (Pool.spawned τ).flatMap fun request => pushed (Pool.partOf request.1 τ) :=
      List.filterMap_flatMap ..
    _ = (Pool.spawned τ).flatMap fun request => made (blinds request.1 τ) ++ attached request.2 :=
      List.flatMap_congr accounts
    List.Perm _ (((Pool.spawned τ).flatMap fun request => made (blinds request.1 τ)) ++ attaches τ) :=
      (List.flatMap_append_perm ..).symm
    _ = made (τ.countP isBlind) ++ attaches τ := by rw [blind, made_sum]

/-- Once a request has ended, some request found the document missing. -/
theorem some_blind (run : Run τ S) (quiet : S.Quiet) (constructed : Pool.spawned τ ≠ []) :
    0 < τ.countP isBlind := by
  obtain ⟨order, phases⟩ := order_outline.holds run
  obtain ⟨-, threads, -⟩ := Pool.Run.spawned_spec run
  obtain ⟨⟨j, edits⟩, member⟩ := List.exists_mem_of_ne_nil _ constructed
  obtain ⟨p, there⟩ := (threads j edits).1 member
  obtain ⟨phase, is, knows⟩ := phases j edits p there
  obtain ⟨rest, rfl, -⟩ := ended_editing (is ▸ quiet j edits p there)
  exact order.blind_pos knows

/-- **Exactly when the three keys represent a document.** -/
theorem represented_iff (run : Run τ S) (quiet : S.Quiet) (constructed : Pool.spawned τ ≠ []) :
    Represented S.store.doc ↔ Apart τ := by
  have perm := tags_perm run quiet
  have begun := some_blind run quiet constructed
  constructor
  · intro represented
    have nodup := perm.nodup_iff.1 represented.nodup
    have once : τ.countP isBlind ≤ 1 := by
      by_contra twice
      obtain ⟨n, is⟩ : ∃ n, τ.countP isBlind = n + 1 + 1 := ⟨τ.countP isBlind - 2, by omega⟩
      rw [is, made_succ, made_succ] at nodup
      simp at nodup
    rw [show τ.countP isBlind = 1 by omega] at nodup
    exact ⟨nodup, once⟩
  · rintro ⟨tags, once⟩
    obtain ⟨agree, -⟩ := agree_outline.holds run
    obtain ⟨order, -⟩ := order_outline.holds run
    rw [show τ.countP isBlind = 1 by omega] at perm
    have nodup : S.store.doc.tags.Nodup := perm.nodup_iff.2 tags
    have ends : ∀ tag ∈ ["0", "1"], S.store.doc.tags.count tag = 1 := fun tag member =>
      List.count_eq_one_of_mem nodup (perm.mem_iff.2 (List.mem_append_left _ member))
    exact {
      sorted := (order.sorted once).resolve_right (quiet.owed _)
      nodup := nodup
      pps := fun tag => ⟨agree.tags tag, fun member => (agree.pushed tag member).resolve_right (quiet.owed _)⟩
      persist := fun tag => ⟨fun member => (agree.marked tag (agree.tags tag member)).resolve_right (quiet.owed _),
        fun member => (agree.pushed tag (agree.persist tag member)).resolve_right (quiet.owed _)⟩
      ends := ⟨ends "0" (by simp), ends "1" (by simp)⟩ }

/-- A request makes the document and attaches; another hides and attaches in between. -/
theorem represented_two :
    ∃ (τ : List (Event Bool Char (AList fun _ : ℕ => ℕ))) (S : State Bool Char (AList fun _ : ℕ => ℕ)),
      Run τ S ∧ S.Quiet ∧ S.store.doc.tags = ["0", "0.5", "0.75", "1"] ∧ Represented S.store.doc := by
  obtain ⟨τ, S, run, quiet, constructed, is, tags, once⟩ :
      ∃ (τ : List (Event Bool Char (AList fun _ : ℕ => ℕ))) (S : State Bool Char (AList fun _ : ℕ => ℕ)),
        Run τ S ∧ S.Quiet ∧ Pool.spawned τ ≠ [] ∧ S.store.doc.tags = ["0", "0.5", "0.75", "1"] ∧
          (["0", "1"] ++ attaches τ).Nodup ∧ τ.countP isBlind ≤ 1 :=
    Machine.Run.of_replay (show ((Pool.machine Cmd.exec request).exec
      ([.spawn false [.attach "0.75" "a"], .spawn true [.hide "0.75", .attach "0.5" "b"]] ++
        List.replicate 9 (.run false) ++ (List.replicate 3 [.run true, .run false]).flatten ++
          List.replicate 5 (.run true)) ([], Pool.start Redis.empty)).any _ = true by decide +kernel)
  exact ⟨τ, S, run, quiet, is, (represented_iff run quiet constructed).2 ⟨tags, once⟩⟩

/-! ## Pole -/

/-- Two requests find the document missing, and both make it. -/
theorem made_twice :
    ∃ (τ : List (Event Bool Char (AList fun _ : ℕ => ℕ))) (S : State Bool Char (AList fun _ : ℕ => ℕ)),
      Run τ S ∧ S.Quiet ∧ Pool.spawned τ ≠ [] ∧ S.store.doc.tags = ["0", "1", "0", "1"] ∧
        ¬ Represented S.store.doc := by
  obtain ⟨τ, S, run, quiet, constructed, is⟩ :
      ∃ (τ : List (Event Bool Char (AList fun _ : ℕ => ℕ))) (S : State Bool Char (AList fun _ : ℕ => ℕ)),
        Run τ S ∧ S.Quiet ∧ Pool.spawned τ ≠ [] ∧ S.store.doc.tags = ["0", "1", "0", "1"] :=
    Machine.Run.of_replay (show ((Pool.machine Cmd.exec request).exec
      ([.spawn false [], .spawn true [], .run false, .run true] ++ List.replicate 7 (.run false) ++
        List.replicate 7 (.run true)) ([], Pool.start Redis.empty)).any _ = true by decide +kernel)
  refine ⟨τ, S, run, quiet, constructed, is, fun represented => ?_⟩
  have nodup := represented.nodup
  rw [is] at nodup
  revert nodup
  decide

end DocKeys

end ColabEdit.Server
