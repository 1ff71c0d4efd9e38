/-
# ColabEdit.Server.ChangeId -- when no batch is overwritten

`get_change_id` reads the counter, writes it and reads it again, and any command
of another request may come between.  The ids are distinct, and every answered
request finds its batch stored, in every run in which no request writes the
counter while another is between its two reads (`Undisturbed`).

The invariant `Counting` follows each request through its reads.  A request that
has written the counter and not read it back holds a value above every id handed
out so far, and there is at most one such request.

Pole: `id_returned_twice` is a run of two requests that get one id.
-/
import ColabEdit.Server.Phases

namespace ColabEdit.Server.Traffic

open ColabEdit.Browser ColabEdit.Theory

set_option autoImplicit false
set_option linter.unusedSectionVars false

section Reads

variable {J Name Batch : Type} [DecidableEq J]

/-! ## The reads of the counter -/

def Event.gotBy (j : J) : Event J Name Batch → Option (Option Nat)
  | .pushRan i _ .getId r => if i = j then some r else none
  | _ => none

/-- What a request read from the counter, in order. -/
def gets (τ : List (Event J Name Batch)) (j : J) : List (Option Nat) := τ.filterMap (Event.gotBy j)

/-- The id that `get_change_id` returned to a request: its second read. -/
def changeId (τ : List (Event J Name Batch)) (j : J) : Option Nat := (gets τ j)[1]?.map intValue

/-- The request has written the counter. -/
def Raised (τ : List (Event J Name Batch)) (j : J) : Prop :=
  ∃ user v, Event.pushRan j user (.setId v) () ∈ τ

def Event.pusher : Event J Name Batch → Option J
  | .pushRan j _ _ _ => some j
  | _ => none

/-- The request that writes the counter, and what it writes. -/
def Event.written : Event J Name Batch → Option (J × Nat)
  | .pushRan j _ (.setId v) _ => some (j, v)
  | _ => none

/-- The event does not write the counter past the numbers that are exact, nor
while another request is between its two reads. -/
def Undisturbed (past : List (Event J Name Batch)) (e : Event J Name Batch) : Prop :=
  ∀ w ∈ e.written, w.2 ≤ 2 ^ 53 ∧
    ∀ j' ∈ past.filterMap Event.pusher, j' ≠ w.1 → (gets past j').length ≠ 1

instance (past : List (Event J Name Batch)) : DecidablePred (Undisturbed past) := fun e =>
  inferInstanceAs (Decidable (∀ w ∈ e.written, _))

variable {τ evs : List (Event J Name Batch)} {i j : J} {user : Name} {c : Cmd Name Batch} {r : c.Reply}

theorem gets_append : gets (τ ++ evs) j = gets τ j ++ gets evs j := List.filterMap_append

theorem gets_other (ne : i ≠ j) : gets [Event.pushRan i user c r] j = [] := by
  cases c <;> simp [gets, Event.gotBy, ne]

theorem gets_self (r : Option Nat) : gets ([.pushRan j user .getId r] : List (Event J Name Batch)) j = [r] := by
  simp [gets, Event.gotBy]

theorem pusher_of_gets (some : (gets τ j).length ≠ 0) : j ∈ τ.filterMap Event.pusher := by
  obtain ⟨r, member⟩ := List.exists_mem_of_length_pos (Nat.pos_of_ne_zero some)
  obtain ⟨e, old, got⟩ := List.mem_filterMap.1 member
  refine List.mem_filterMap.2 ⟨e, old, ?_⟩
  cases e with
  | pushRan i user c r =>
      cases c <;> simp_all [Event.gotBy, Event.pusher]
  | _ => cases got

/-- The command neither reads nor writes the counter, and stores no batch. -/
def Aside : Cmd Name Batch → Prop
  | .getId | .setId _ | .allocate | .hsetChanges _ _ => False
  | _ => True

theorem Aside.gets (aside : Aside c) : gets [Event.pushRan i user c r] j = [] := by
  cases c <;> first | rfl | exact aside.elim

theorem Aside.exec [DecidableEq Name] (aside : Aside c) (s : Redis Name Batch) :
    (c.exec s).2.id = s.id ∧ (c.exec s).2.changes = s.changes := by
  cases c <;> first | exact ⟨rfl, rfl⟩ | exact aside.elim

theorem IsDoc.aside (isDoc : IsDoc c) : Aside c := by
  cases c <;> trivial

theorem raised_append : Raised (τ ++ evs) j ↔ Raised τ j ∨ Raised evs j := by
  simp only [Raised, List.mem_append, exists_or]

theorem raised_other (ne : i ≠ j) : ¬ Raised [Event.pushRan i user c r] j := by
  rintro ⟨user', v, member⟩
  cases List.mem_singleton.1 member
  exact ne rfl

theorem Aside.raised (aside : Aside c) : ¬ Raised [Event.pushRan i user c r] j := by
  rintro ⟨user', v, member⟩
  cases List.mem_singleton.1 member
  exact aside.elim

end Reads

section Counting

variable {J Name Batch : Type} [DecidableEq J] [DecidableEq Name] [Changes Batch]

/-! ## The invariant -/

/-- `get_change_id` after its write. -/
def reread : Handler Name Batch Nat := Prog.call .getId fun r => .ret (intValue r)

/-- What is known of a request in a phase: `g` is what it read from the counter,
`raised` whether it wrote it, `given` are all ids handed out. -/
def Stage (g : List (Option Nat)) (raised : Prop) (given : Nat → Prop) (redis : Redis Name Batch)
    (batch : Batch) : PushPhase Name Batch → Prop
  | .editing p => p.Only IsDoc ∧ g = [] ∧ ¬ raised
  | .allocating q =>
      (∃ r, q = Prog.call (.setId (intValue r + 1)) (fun _ => reread) ∧ g = [r] ∧ ¬ raised ∧
        intValue redis.id = intValue r) ∨
      (∃ r w, q = reread ∧ g = [r] ∧ raised ∧ redis.id = some w ∧ w ≤ 2 ^ 53 ∧ ∀ i, given i → i < w) ∨
      (∃ r r', q = .ret (intValue r') ∧ g = [r, r'])
  | .owning i | .appending i _ | .writing i _ | .answered i =>
      g[1]?.map intValue = some i ∧ redis.changes.lookup i = some batch
  | .failed => True

/-- The ids handed out. -/
def Given (τ : List (Event J Name Batch)) (i : Nat) : Prop := ∃ j, changeId τ j = some i

structure Counting (τ : List (Event J Name Batch)) (S : Traffic J Name Batch) : Prop where
  pushes : ∀ j user batch rest, S.threads j = some (.push user batch rest) →
    ∃ phase, rest = PushPhase.prog UserOrder.getChangeId user batch phase ∧
      Stage (gets τ j) (Raised τ j) (Given τ) S.redis batch phase
  beats : ∀ j user last rest, S.threads j = some (.beat user last rest) → rest.Only IsRead
  silent : ∀ j, S.threads j = none → ∀ user c r, Event.pushRan j user c r ∉ τ
  alone : ∀ j j', Raised τ j → (gets τ j).length = 1 → Raised τ j' → (gets τ j').length = 1 → j = j'
  distinct : ∀ j j' i, changeId τ j = some i → changeId τ j' = some i → j = j'
  counted : ∀ j i, changeId τ j = some i → i ≤ intValue S.redis.id

variable {lower : Name → Name} {τ evs : List (Event J Name Batch)} {S S' : Traffic J Name Batch}
  {j : J} {user : Name} {batch : Batch} {rest rest' : Handler Name Batch Nat}
  {c : Cmd Name Batch} {redis' : Redis Name Batch}

/-- What another request does matters to a request between its two reads, and to
one whose batch is stored. -/
theorem Stage.frame {g : List (Option Nat)} {raised : Prop} {given given' : Nat → Prop}
    {redis : Redis Name Batch} {phase : PushPhase Name Batch} (stage : Stage g raised given redis batch phase)
    (counter : g.length = 1 → redis'.id = redis.id)
    (stored : ∀ i, g[1]?.map intValue = some i → redis'.changes.lookup i = redis.changes.lookup i)
    (handed : raised → g.length = 1 → ∀ i, given' i → given i) :
    Stage g raised given' redis' batch phase := by
  have kept : ∀ i, g[1]?.map intValue = some i ∧ redis.changes.lookup i = some batch →
      g[1]?.map intValue = some i ∧ redis'.changes.lookup i = some batch :=
    fun i both => ⟨both.1, (stored i both.1).trans both.2⟩
  cases phase with
  | editing p => exact stage
  | allocating q =>
      rcases stage with ⟨r, isSet, reads, unraised, same⟩ | ⟨r, w, isGet, reads, isRaised, is, le, above⟩ |
        returned
      · refine Or.inl ⟨r, isSet, reads, unraised, ?_⟩
        rw [counter (by simp [reads]), same]
      · exact Or.inr (Or.inl ⟨r, w, isGet, reads, isRaised, (counter (by simp [reads])).trans is, le,
          fun i member => above i (handed isRaised (by simp [reads]) i member)⟩)
      · exact Or.inr (Or.inr returned)
  | owning i => exact kept i stage
  | appending i tail => exact kept i stage
  | writing i ids => exact kept i stage
  | answered i => exact kept i stage
  | failed => trivial

/-- A command of one `/sendChanges` request. -/
theorem Counting.ran (counting : Counting τ S) (here : S.threads j = some (.push user batch rest))
    (r : c.Reply) {phase : PushPhase Name Batch}
    (is : rest' = phase.prog UserOrder.getChangeId user batch)
    (stage : Stage (gets (τ ++ [.pushRan j user c r]) j) (Raised (τ ++ [.pushRan j user c r]) j)
      (Given (τ ++ [.pushRan j user c r])) redis' batch phase)
    (counter : ∀ j', j' ≠ j → (gets τ j').length = 1 → redis'.id = S.redis.id)
    (stored : ∀ j', j' ≠ j → ∀ i, changeId τ j' = some i →
      redis'.changes.lookup i = S.redis.changes.lookup i)
    (handed : ∀ j', j' ≠ j → Raised τ j' → (gets τ j').length = 1 →
      ∀ i, Given (τ ++ [.pushRan j user c r]) i → Given τ i)
    (alone : ∀ j', j' ≠ j → Raised τ j' → (gets τ j').length = 1 →
      Raised (τ ++ [.pushRan j user c r]) j → (gets (τ ++ [.pushRan j user c r]) j).length ≠ 1)
    (distinct : ∀ j', j' ≠ j → ∀ i, changeId τ j' = some i →
      changeId (τ ++ [.pushRan j user c r]) j ≠ some i)
    (counted : ∀ i, changeId (τ ++ [.pushRan j user c r]) j = some i → i ≤ intValue redis'.id)
    (grows : intValue S.redis.id ≤ intValue redis'.id) :
    Counting (τ ++ [.pushRan j user c r])
      (({ S with redis := redis' } : Traffic J Name Batch).setThread j (.push user batch rest')) := by
  have gets_eq : ∀ j', j' ≠ j → gets (τ ++ [.pushRan j user c r]) j' = gets τ j' := fun j' ne => by
    rw [gets_append, gets_other ne.symm, List.append_nil]
  have changeId_eq : ∀ j', j' ≠ j → changeId (τ ++ [.pushRan j user c r]) j' = changeId τ j' :=
    fun j' ne => by rw [changeId, changeId, gets_eq j' ne]
  have raised_iff : ∀ j', j' ≠ j → (Raised (τ ++ [.pushRan j user c r]) j' ↔ Raised τ j') :=
    fun j' ne => by rw [raised_append, or_iff_left (raised_other ne.symm)]
  refine ⟨?_, ?_, ?_, ?_, ?_, ?_⟩
  · intro j' user' batch' rest'' there
    rcases setThread_cases there with ⟨rfl, same⟩ | ⟨ne, there⟩
    · cases same
      exact ⟨phase, is, stage⟩
    · obtain ⟨phase', is', stage'⟩ := counting.pushes j' user' batch' rest'' there
      refine ⟨phase', is', ?_⟩
      rw [gets_eq j' ne]
      have framed := stage'.frame (counter j' ne) (stored j' ne) (handed j' ne)
      rwa [← raised_iff j' ne] at framed
  · intro j' user' last rest'' there
    rcases setThread_cases there with ⟨-, same⟩ | ⟨-, there⟩
    · cases same
    · exact counting.beats j' user' last rest'' there
  · intro j' absent user' c' r' member
    have ne : j' ≠ j := by
      rintro rfl
      simp [setThread] at absent
    have before : S.threads j' = none := by simpa [setThread, ne] using absent
    rcases List.mem_append.1 member with old | new
    · exact counting.silent j' before user' c' r' old
    · cases List.mem_singleton.1 new
      exact ne rfl
  · intro j₁ j₂ raised₁ one₁ raised₂ one₂
    by_cases first : j₁ = j <;> by_cases second : j₂ = j
    · exact first.trans second.symm
    · subst first
      rw [raised_iff j₂ second] at raised₂
      rw [gets_eq j₂ second] at one₂
      exact absurd one₁ (alone j₂ second raised₂ one₂ raised₁)
    · subst second
      rw [raised_iff j₁ first] at raised₁
      rw [gets_eq j₁ first] at one₁
      exact absurd one₂ (alone j₁ first raised₁ one₁ raised₂)
    · rw [raised_iff j₁ first] at raised₁
      rw [gets_eq j₁ first] at one₁
      rw [raised_iff j₂ second] at raised₂
      rw [gets_eq j₂ second] at one₂
      exact counting.alone j₁ j₂ raised₁ one₁ raised₂ one₂
  · intro j₁ j₂ i id₁ id₂
    by_cases first : j₁ = j <;> by_cases second : j₂ = j
    · exact first.trans second.symm
    · subst first
      rw [changeId_eq j₂ second] at id₂
      exact absurd id₁ (distinct j₂ second i id₂)
    · subst second
      rw [changeId_eq j₁ first] at id₁
      exact absurd id₂ (distinct j₁ first i id₁)
    · rw [changeId_eq j₁ first] at id₁
      rw [changeId_eq j₂ second] at id₂
      exact counting.distinct j₁ j₂ i id₁ id₂
  · intro j' i given
    by_cases same : j' = j
    · exact counted i (same ▸ given)
    · rw [changeId_eq j' same] at given
      exact (counting.counted j' i given).trans grows

/-- A command that leaves the counter alone. -/
theorem Counting.ran_quiet (counting : Counting τ S)
    (here : S.threads j = some (.push user batch rest)) (r : c.Reply)
    (unread : gets ([.pushRan j user c r] : List (Event J Name Batch)) j = [])
    (unwritten : ¬ Raised ([.pushRan j user c r] : List (Event J Name Batch)) j)
    {phase : PushPhase Name Batch} (is : rest' = phase.prog UserOrder.getChangeId user batch)
    (stage : Stage (gets τ j) (Raised τ j) (Given τ) redis' batch phase)
    (counter : redis'.id = S.redis.id)
    (stored : ∀ j', j' ≠ j → ∀ i, changeId τ j' = some i →
      redis'.changes.lookup i = S.redis.changes.lookup i) :
    Counting (τ ++ [.pushRan j user c r])
      (({ S with redis := redis' } : Traffic J Name Batch).setThread j (.push user batch rest')) := by
  have gets_eq : ∀ j', gets (τ ++ [.pushRan j user c r]) j' = gets τ j' := fun j' => by
    by_cases same : j' = j
    · rw [same, gets_append, unread, List.append_nil]
    · rw [gets_append, gets_other (Ne.symm same), List.append_nil]
  have raised_iff : Raised (τ ++ [.pushRan j user c r]) j ↔ Raised τ j := by
    rw [raised_append, or_iff_left unwritten]
  have changeId_eq : ∀ j', changeId (τ ++ [.pushRan j user c r]) j' = changeId τ j' := fun j' => by
    rw [changeId, changeId, gets_eq]
  have given_eq : Given (τ ++ [.pushRan j user c r]) = Given τ := by
    funext i
    simp only [Given, changeId_eq]
  refine counting.ran here r is ?_ (fun _ _ _ => counter) stored (fun _ _ _ _ i => ?_) ?_ ?_ ?_ ?_
  · rw [gets_eq, given_eq]
    have := raised_iff
    rw [propext this]
    exact stage
  · rw [given_eq]
    exact id
  · intro j' ne raised one raised' one'
    rw [gets_eq] at one'
    exact ne (counting.alone j' j raised one (raised_iff.1 raised') one')
  · intro j' ne i given given'
    rw [changeId_eq] at given'
    exact ne (counting.distinct j' j i given given')
  · intro i given
    rw [changeId_eq] at given
    rw [counter]
    exact counting.counted j i given
  · rw [counter]

/-- The first read of the counter. -/
theorem Counting.firstRead (counting : Counting τ S)
    (here : S.threads j = some (.push user batch rest)) (reads : gets τ j = []) (unraised : ¬ Raised τ j)
    {r : Option Nat}
    (is : rest' = (PushPhase.allocating (.call (.setId (intValue r + 1)) fun _ => reread)).prog
      UserOrder.getChangeId user batch) (reply : S.redis.id = r) :
    Counting (τ ++ [.pushRan j user .getId r])
      (({ S with redis := S.redis } : Traffic J Name Batch).setThread j (.push user batch rest')) := by
  have one : gets (τ ++ [.pushRan j user .getId r]) j = [r] := by
    rw [gets_append, reads, gets_self, List.nil_append]
  have unraised' : ¬ Raised (τ ++ [.pushRan j user .getId r]) j := by
    rw [raised_append]
    rintro (old | ⟨user', v, member⟩)
    · exact unraised old
    · cases List.mem_singleton.1 member
  have unknown : changeId (τ ++ [.pushRan j user .getId r]) j = none := by simp [changeId, one]
  refine counting.ran (c := .getId) here r is ?_ (fun _ _ _ => rfl) (fun _ _ _ _ => rfl) ?_ ?_ ?_ ?_ le_rfl
  · rw [one]
    exact Or.inl ⟨r, rfl, rfl, unraised', by rw [reply]⟩
  · rintro j' ne - - i ⟨j'', given⟩
    by_cases same : j'' = j
    · rw [same, unknown] at given
      cases given
    · refine ⟨j'', ?_⟩
      rwa [changeId, gets_append, gets_other (Ne.symm same), List.append_nil] at given
  · intro j' ne raised' one' mine
    exact absurd mine unraised'
  · intro j' ne i given
    rw [unknown]
    simp
  · intro i given
    rw [unknown] at given
    cases given

/-- The write, while no other request is between its reads. -/
theorem Counting.write (counting : Counting τ S)
    (here : S.threads j = some (.push user batch rest)) {v : Option Nat} (reads : gets τ j = [v])
    (same : intValue S.redis.id = intValue v)
    (undisturbed : Undisturbed τ (.pushRan j user (.setId (intValue v + 1)) ()))
    (is : rest' = (PushPhase.allocating reread).prog UserOrder.getChangeId user batch) :
    Counting (τ ++ [.pushRan j user (.setId (intValue v + 1)) ()])
      (({ S with redis := { S.redis with id := some (intValue v + 1) } } :
        Traffic J Name Batch).setThread j (.push user batch rest')) := by
  obtain ⟨exact, nobody⟩ := undisturbed _ rfl
  have nobody' : ∀ j', j' ≠ j → (gets τ j').length ≠ 1 := by
    intro j' ne one
    exact nobody j' (pusher_of_gets (by rw [one]; exact Nat.one_ne_zero)) ne one
  have reads' : gets (τ ++ [.pushRan j user (.setId (intValue v + 1)) ()]) j = [v] := by
    rw [gets_append, reads]
    rfl
  have unknown : changeId (τ ++ [.pushRan j user (.setId (intValue v + 1)) ()]) j = none := by
    simp [changeId, reads']
  have value : intValue (some (intValue v + 1)) = intValue v + 1 := floatInt_of_le exact
  have isRaised : Raised (τ ++ [.pushRan j user (.setId (intValue v + 1)) ()]) j :=
    ⟨user, intValue v + 1, by simp⟩
  refine counting.ran (c := .setId (intValue v + 1)) here () is ?_
    (fun j' ne one => absurd one (nobody' j' ne)) (fun _ _ _ _ => rfl)
    (fun j' ne _ one => absurd one (nobody' j' ne)) (fun j' ne _ one => absurd one (nobody' j' ne))
    ?_ ?_ ?_
  · rw [reads']
    refine Or.inr (Or.inl ⟨v, intValue v + 1, rfl, rfl, isRaised, rfl, exact, ?_⟩)
    rintro i ⟨j', given⟩
    by_cases mine : j' = j
    · rw [mine, unknown] at given
      cases given
    · rw [changeId, gets_append, gets_other (Ne.symm mine), List.append_nil] at given
      have := counting.counted j' i given
      omega
  · intro j' ne i given
    rw [unknown]
    simp
  · intro i given
    rw [unknown] at given
    cases given
  · change _ ≤ intValue (some (intValue v + 1))
    omega

/-- The second read. -/
theorem Counting.secondRead (counting : Counting τ S)
    (here : S.threads j = some (.push user batch rest)) {v r : Option Nat} {w : Nat}
    (reads : gets τ j = [v]) (isRaised : Raised τ j) (stored : S.redis.id = some w) (exact : w ≤ 2 ^ 53)
    (above : ∀ i, Given τ i → i < w)
    (is : rest' = (PushPhase.allocating (.ret (intValue r))).prog UserOrder.getChangeId user batch)
    (reply : S.redis.id = r) :
    Counting (τ ++ [.pushRan j user .getId r])
      (({ S with redis := S.redis } : Traffic J Name Batch).setThread j (.push user batch rest')) := by
  have value : intValue r = w := by
    rw [← reply, stored]
    exact floatInt_of_le exact
  have reads' : gets (τ ++ [.pushRan j user .getId r]) j = [v, r] := by
    rw [gets_append, reads, gets_self, List.singleton_append]
  have mine : changeId (τ ++ [.pushRan j user .getId r]) j = some w := by
    simp [changeId, reads', value]
  have only : ∀ j', j' ≠ j → Raised τ j' → (gets τ j').length ≠ 1 := fun j' ne raised' one =>
    ne (counting.alone j' j raised' one isRaised (by rw [reads]; rfl))
  refine counting.ran (c := .getId) here r is ?_ (fun _ _ _ => rfl) (fun _ _ _ _ => rfl)
    (fun j' ne raised' one => absurd one (only j' ne raised')) ?_ ?_ ?_ le_rfl
  · rw [reads']
    exact Or.inr (Or.inr ⟨v, r, rfl, rfl⟩)
  · intro j' ne raised' one
    exact absurd one (only j' ne raised')
  · intro j' ne i given same
    rw [mine] at same
    cases same
    exact absurd (above w ⟨j', given⟩) (lt_irrefl w)
  · intro i given
    rw [mine] at given
    cases given
    rw [reply, value]

/-- **A command of `/sendChanges` keeps the count.** -/
theorem Counting.pushRun {k : c.Reply → Handler Name Batch Nat} (counting : Counting τ S)
    (here : S.threads j = some (.push user batch (.call c k)))
    (undisturbed : Undisturbed τ (.pushRan j user c (c.exec S.redis).1)) :
    Counting (τ ++ [.pushRan j user c (c.exec S.redis).1])
      (({ S with redis := (c.exec S.redis).2 } : Traffic J Name Batch).setThread j
        (.push user batch (k (c.exec S.redis).1))) := by
  obtain ⟨phase, is, stage⟩ := counting.pushes j user batch _ here
  obtain ⟨phase', next, is'⟩ := PushPhase.next rfl is.symm (c.exec S.redis).1
  have aside : Aside c → Stage (gets τ j) (Raised τ j) (Given τ) S.redis batch phase' →
      Counting (τ ++ [.pushRan j user c (c.exec S.redis).1])
        (({ S with redis := (c.exec S.redis).2 } : Traffic J Name Batch).setThread j
          (.push user batch (k (c.exec S.redis).1))) := by
    intro aside stage'
    obtain ⟨counter, stored⟩ := aside.exec S.redis
    exact counting.ran_quiet here _ aside.gets aside.raised is'
      (stage'.frame (fun _ => counter) (fun i _ => by rw [stored]) fun _ _ _ => id) counter
      fun _ _ _ _ => by rw [stored]
  generalize reply : (c.exec S.redis).1 = r at next is' aside ⊢
  cases next with
  | edit r =>
      obtain ⟨only, reads, unraised⟩ := stage
      exact aside (IsDoc.aside only.head) ⟨only.cont r, reads, unraised⟩
  | begin r first =>
      obtain ⟨-, reads, unraised⟩ := stage
      cases first
      exact counting.firstRead here reads unraised is' reply
  | alloc r =>
      rcases stage with ⟨v, isSet, reads, unraised, same⟩ | ⟨v, w, isGet, reads, isRaised, stored, le, above⟩ |
        ⟨v, v', isRet, -⟩
      · cases isSet
        exact counting.write here reads same undisturbed is'
      · cases isGet
        exact counting.secondRead here reads isRaised stored le above is' reply
      · cases isRet
  | store i =>
      rcases stage with ⟨_, isSet, -⟩ | ⟨_, _, isGet, -⟩ | ⟨v, v', isRet, reads⟩
      · cases isSet
      · cases isGet
      · cases isRet
        have mine : changeId τ j = some (intValue v') := by simp [changeId, reads]
        refine counting.ran_quiet (c := .hsetChanges (intValue v') batch) here () rfl ?_ is'
          ⟨mine, ?_⟩ ?_ ?_
        · rintro ⟨user', value, member⟩
          cases List.mem_singleton.1 member
        · exact AList.lookup_insert _
        · rfl
        · intro j' ne i given
          refine AList.lookup_insert_ne ?_
          rintro rfl
          exact ne (counting.distinct j' j _ given mine)
  | read i ids => exact aside trivial stage
  | readMissing i => exact aside trivial trivial
  | reread i tail ids => exact aside trivial stage
  | rereadMissing i tail => exact aside trivial trivial
  | write i ids => exact aside trivial stage

/-- A step that is no command of a `/sendChanges` request. -/
theorem Counting.settle (counting : Counting τ S) (quiet : evs.filterMap Event.pusher = [])
    {cursors : Name → Int} {thread : Thread Name Batch}
    (pushed : ∀ user batch rest, thread = .push user batch rest →
      ∃ phase, rest = PushPhase.prog UserOrder.getChangeId user batch phase ∧
        Stage (gets τ j) (Raised τ j) (Given τ) S.redis batch phase)
    (beat : ∀ user last rest, thread = .beat user last rest → rest.Only IsRead) :
    Counting (τ ++ evs) (({ S with cursors := cursors } : Traffic J Name Batch).setThread j thread) := by
  have nothing : ∀ j user c r, Event.pushRan j user c r ∉ evs := fun j user c r member =>
    List.not_mem_nil (quiet ▸ List.mem_filterMap.2 ⟨_, member, rfl⟩ : j ∈ ([] : List J))
  have gets_eq : gets (τ ++ evs) = gets τ := by
    funext j'
    rw [gets_append, List.append_right_eq_self]
    refine List.filterMap_eq_nil_iff.2 fun e member => ?_
    cases e with
    | pushRan i user c r => exact absurd member (nothing i user c r)
    | _ => rfl
  have raised_eq : Raised (τ ++ evs) = Raised τ := by
    funext j'
    exact propext (raised_append.trans (or_iff_left fun ⟨user, v, member⟩ => nothing _ _ _ _ member))
  have changeId_eq : changeId (τ ++ evs) = changeId τ := by
    funext j'
    rw [changeId, changeId, gets_eq]
  have given_eq : Given (τ ++ evs) = Given τ := by
    funext i
    simp only [Given, changeId_eq]
  refine ⟨?_, ?_, ?_, ?_, ?_, ?_⟩
  · rw [gets_eq, raised_eq, given_eq]
    intro j' user batch rest there
    rcases setThread_cases there with ⟨rfl, same⟩ | ⟨-, there⟩
    · exact pushed user batch rest same.symm
    · exact counting.pushes j' user batch rest there
  · intro j' user last rest there
    rcases setThread_cases there with ⟨-, same⟩ | ⟨-, there⟩
    · exact beat user last rest same.symm
    · exact counting.beats j' user last rest there
  · intro j' absent user c r member
    have before : S.threads j' = none := by
      by_cases same : j' = j
      · simp [setThread, same] at absent
      · simpa [setThread, same] using absent
    rcases List.mem_append.1 member with old | new
    · exact counting.silent j' before user c r old
    · exact nothing j' user c r new
  · rw [raised_eq, gets_eq]
    exact counting.alone
  · rw [changeId_eq]
    exact counting.distinct
  · rw [changeId_eq]
    exact counting.counted

theorem Counting.start {redis : Redis Name Batch} :
    Counting ([] : List (Event J Name Batch)) (Traffic.start redis) := by
  constructor <;> simp [Traffic.start, Raised, changeId, gets]

theorem Step.counting (step : Step UserOrder.getChangeId S evs S')
    (undisturbed : Machine.Each Undisturbed τ evs) (counting : Counting τ S) : Counting (τ ++ evs) S' := by
  cases step with
  | push j user batch free =>
      refine counting.settle rfl (fun user' batch' rest' same => ?_) (fun _ _ _ same => by cases same)
      cases same
      refine ⟨_, PushPhase.start, .bind PPS.init_only fun _ => PPS.editAll_only _, ?_, ?_⟩
      · refine List.filterMap_eq_nil_iff.2 fun e member => ?_
        cases e with
        | pushRan i user' c r =>
            have ne : i ≠ j := fun same => counting.silent j free user' c r (same ▸ member)
            cases c <;> simp [Event.gotBy, ne]
        | _ => rfl
      · rintro ⟨user', v, member⟩
        exact counting.silent j free _ _ _ member
  | beat j user free =>
      refine counting.settle rfl (fun _ _ _ same => by cases same) fun user' last' rest' same => ?_
      cases same
      exact heartbeat_only user _
  | pushRun j user batch c k here => exact counting.pushRun here undisturbed.1
  | beatRun j user last c k here =>
      have only := counting.beats j user last _ here
      rw [only.head.exec]
      refine counting.settle rfl (fun _ _ _ same => by cases same) fun user' last' rest' same => ?_
      cases same
      exact only.cont _
  | process j user last reply here =>
      refine counting.settle ?_ (fun _ _ _ same => by cases same) (fun _ _ _ same => by cases same)
      refine List.filterMap_eq_nil_iff.2 fun e member => ?_
      obtain ⟨t, -, rfl⟩ := List.mem_map.1 member
      rfl

/-- **No batch is overwritten** in a run whose writes of the counter are
undisturbed: the ids are distinct, and an answered request finds its batch under
its id. -/
theorem batches_kept {redis : Redis Name Batch}
    (run : Traffic.Run lower UserOrder.getChangeId redis τ S)
    (undisturbed : Machine.Each Undisturbed [] τ) :
    (∀ j j' i, changeId τ j = some i → changeId τ j' = some i → j = j') ∧
      ∀ j user batch i, S.answer j = some (user, batch, i) →
        changeId τ j = some i ∧ S.redis.changes.lookup i = some batch := by
  have counting : Counting τ S := by
    refine Run.induct (fun undisturbed => (Machine.each_append.1 undisturbed).1) Counting.start ?_ run
      undisturbed
    intro τ S evs S' undisturbed counting step
    exact step.counting (Machine.each_append.1 undisturbed).2 counting
  refine ⟨counting.distinct, fun j user batch i answered => ?_⟩
  obtain ⟨phase, is, stage⟩ := counting.pushes j user batch _ (of_answer answered)
  cases phase with
  | answered i' =>
      cases is
      exact stage
  | editing p => cases p <;> cases is
  | allocating q => cases q <;> cases is
  | _ => cases is

end Counting

/-! ## Poles -/

/-- Both send a batch, and both documents are looked up. -/
def bothSend : List (Action Bool Bool (Batch ℚ)) :=
  [.push false false (AList.singleton (1 / 2) 97), .push true true (AList.singleton (1 / 3) 98)] ++
    List.replicate 8 (.run false) ++ [.run true]

/-- The commands of `recordOwner` and the one before it. -/
def bothStore : List (Action Bool Bool (Batch ℚ)) :=
  List.replicate 4 (.run false) ++ List.replicate 4 (.run true)

set_option synthInstance.maxSize 512 in
/-- Both requests read the counter before either writes it: both answer 1, and
the first batch is gone. -/
theorem id_returned_twice : ∃ (τ : List (Event Bool Bool (Batch ℚ))) (S : Traffic Bool Bool (Batch ℚ)),
    Traffic.Run id UserOrder.getChangeId (loggedIn [false, true]) τ S ∧
      [false, true].map (changeId τ) = [some 1, some 1] ∧
      ([false, true].map fun j => (S.answer j).map fun a => (a.2.1.pairs, a.2.2)) =
        [some ([(1 / 2, 97)], 1), some ([(1 / 3, 98)], 1)] ∧
      (S.redis.changes.entries.map fun e => (e.1, Batch.pairs e.2)) = [(1, [(1 / 3, 98)])] :=
  Machine.Run.of_replay (show ((machine id UserOrder.getChangeId).exec
      (bothSend ++ [.run false, .run true, .run false, .run false, .run true, .run true] ++ bothStore)
      ([], start (loggedIn [false, true]))).any _ = true by
    decide +kernel)

/-- The second request reads the counter once the first has read it back. -/
theorem batches_kept_two : ∃ (τ : List (Event Bool Bool (Batch ℚ))) (S : Traffic Bool Bool (Batch ℚ)),
    Traffic.Run id UserOrder.getChangeId (loggedIn [false, true]) τ S ∧ (S.answer false).isSome ∧ (S.answer true).isSome ∧
      (∀ j j' i, changeId τ j = some i → changeId τ j' = some i → j = j') ∧
      ∀ j user batch i, S.answer j = some (user, batch, i) →
        changeId τ j = some i ∧ S.redis.changes.lookup i = some batch := by
  obtain ⟨τ, S, run, first, second, undisturbed⟩ :
      ∃ (τ : List (Event Bool Bool (Batch ℚ))) (S : Traffic Bool Bool (Batch ℚ)),
        Traffic.Run id UserOrder.getChangeId (loggedIn [false, true]) τ S ∧ (S.answer false).isSome ∧
          (S.answer true).isSome ∧ Machine.Each Undisturbed [] τ :=
    Machine.Run.of_replay (show ((machine id UserOrder.getChangeId).exec
        (bothSend ++ [.run false, .run false, .run false, .run true, .run true, .run true] ++ bothStore)
        ([], start (loggedIn [false, true]))).any _ = true by
      decide +kernel)
  exact ⟨τ, S, run, first, second, batches_kept run undisturbed⟩

end ColabEdit.Server.Traffic
