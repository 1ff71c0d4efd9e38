/-
# ColabEdit.Theory.Pool -- programs that interleave command by command

Any number of programs on one store.  A program is spawned under a label that
determines it; a step runs the next command of one program, so every
interleaving of commands is a run, and an ended program stays in the pool with
its result.

`Step` says once what a step can do, and `Run.induct` is the induction over runs
that uses it.  The threads are the spawned programs, each once
(`Run.spawned_spec`), and a trace is the parts of its programs, shuffled
(`shuffle`), so what all programs did together is found by looking at each on its
own.  `Outline` is the proof rule for invariants that need to know how far each
program has come, and `Run.only` the one for invariants that do not: every program
keeps to commands that keep them.
-/
import ColabEdit.Theory.Program
import ColabEdit.Theory.Transition
import Mathlib.Data.List.Nodup
import Mathlib.Data.Fintype.Defs
import Mathlib.Logic.Function.Basic

namespace ColabEdit.Theory

set_option autoImplicit false
set_option linter.unusedSectionVars false

/-- A store and the programs that act on it, each with its label. -/
structure Pool (J L σ : Type) {C : Type} (R : C → Type) (α : Type) where
  store : σ
  threads : J → Option (L × Prog R α)

namespace Pool

variable {J L σ C α : Type} {R : C → Type}

inductive Action (J L : Type) where
  | spawn (j : J) (l : L)
  | run (j : J)

inductive Event (J L : Type) {C : Type} (R : C → Type) where
  | spawned (j : J) (l : L)
  | ran (j : J) (l : L) (c : C) (r : R c)

def Event.thread : Event J L R → J
  | .spawned j _ => j
  | .ran j _ _ _ => j

variable [DecidableEq J]

def start (store : σ) : Pool J L σ R α where
  store := store
  threads := fun _ => none

def setThread (S : Pool J L σ R α) (store : σ) (j : J) (l : L) (p : Prog R α) : Pool J L σ R α where
  store := store
  threads := Function.update S.threads j (some (l, p))

variable (exec : (c : C) → σ → R c × σ) (program : L → Prog R α)

def step (S : Pool J L σ R α) : Action J L → Option (Pool J L σ R α × List (Event J L R))
  | .spawn j l =>
      match S.threads j with
      | some _ => none
      | none => some (S.setThread S.store j l (program l), [.spawned j l])
  | .run j =>
      match S.threads j with
      | some (l, .call c k) =>
          some (S.setThread (exec c S.store).2 j l (k (exec c S.store).1),
            [.ran j l c (exec c S.store).1])
      | _ => none

def machine : Machine (Pool J L σ R α) (Action J L) (Event J L R) := ⟨step exec program⟩

/-- A run from a store, with its trace. -/
abbrev Run (store : σ) (τ : List (Event J L R)) (S : Pool J L σ R α) : Prop :=
  (machine exec program).Run (start store) τ S

/-- No program is in progress. -/
def Quiet (S : Pool J L σ R α) : Prop := ∀ j l p, S.threads j = some (l, p) → p.Ended

theorem quiet_iff {S : Pool J L σ R α} : S.Quiet ↔ ∀ j, ∀ t ∈ S.threads j, t.2.Ended := by
  refine ⟨fun quiet j t there => quiet j t.1 t.2 there, fun all j l p there => all j (l, p) there⟩

instance [Fintype J] (S : Pool J L σ R α) : Decidable S.Quiet := decidable_of_iff' _ quiet_iff

/-! ## What a step can do -/

inductive Step (S : Pool J L σ R α) : List (Event J L R) → Pool J L σ R α → Prop
  | spawn (j : J) (l : L) (free : S.threads j = none) :
      Step S [.spawned j l] (S.setThread S.store j l (program l))
  | run (j : J) (l : L) (c : C) (k : R c → Prog R α) (here : S.threads j = some (l, .call c k)) :
      Step S [.ran j l c (exec c S.store).1]
        (S.setThread (exec c S.store).2 j l (k (exec c S.store).1))

variable {exec program} {S S' : Pool J L σ R α} {τ evs : List (Event J L R)}

theorem steps {a : Action J L} (taken : step exec program S a = some (S', evs)) :
    Step exec program S evs S' := by
  cases a with
  | spawn j l =>
      simp only [step] at taken
      split at taken
      · cases taken
      · rename_i free
        cases taken
        exact .spawn j l free
  | run j =>
      simp only [step] at taken
      split at taken
      · rename_i l c k here
        cases taken
        exact .run j l c k here
      · cases taken

/-- The induction over runs. -/
theorem Run.induct {store : σ} {I : List (Event J L R) → Pool J L σ R α → Prop}
    (first : I [] (Pool.start store))
    (step : ∀ {τ S evs S'}, I τ S → Step exec program S evs S' → I (τ ++ evs) S')
    (run : Run exec program store τ S) : I τ S :=
  run.invariant first fun _ inv taken => step inv (steps taken)

theorem setThread_cases {store : σ} {j j' : J} {l l' : L} {p p' : Prog R α}
    (there : (S.setThread store j l p).threads j' = some (l', p')) :
    (j' = j ∧ l' = l ∧ p' = p) ∨ (j' ≠ j ∧ S.threads j' = some (l', p')) := by
  unfold setThread at there
  dsimp only at there
  by_cases same : j' = j
  · subst same
    rw [Function.update_self] at there
    cases there
    exact Or.inl ⟨rfl, rfl, rfl⟩
  · rw [Function.update_of_ne same] at there
    exact Or.inr ⟨same, there⟩

theorem setThread_self (store : σ) (j : J) (l : L) (p : Prog R α) :
    (S.setThread store j l p).threads j = some (l, p) := Function.update_self ..

theorem setThread_ne (store : σ) {j j' : J} (ne : j' ≠ j) (l : L) (p : Prog R α) :
    (S.setThread store j l p).threads j' = S.threads j' := Function.update_of_ne ne ..

/-! ## Spawned programs -/

/-- The programs of a trace with their labels, in the order they were spawned. -/
def spawned (τ : List (Event J L R)) : List (J × L) :=
  τ.filterMap fun
    | .spawned j l => some (j, l)
    | .ran _ _ _ _ => none

theorem spawned_append : spawned (τ ++ evs) = spawned τ ++ spawned evs := List.filterMap_append

/-- The threads are the spawned programs, each once, and no event is of another. -/
theorem Run.spawned_spec {store : σ} (run : Run exec program store τ S) :
    ((spawned τ).map Prod.fst).Nodup ∧
      (∀ j l, (j, l) ∈ spawned τ ↔ ∃ p, S.threads j = some (l, p)) ∧
      ∀ e ∈ τ, e.thread ∈ (spawned τ).map Prod.fst := by
  refine Run.induct (I := fun τ S => ((spawned τ).map Prod.fst).Nodup ∧
    (∀ j l, (j, l) ∈ spawned τ ↔ ∃ p, S.threads j = some (l, p)) ∧
      ∀ e ∈ τ, e.thread ∈ (spawned τ).map Prod.fst) ⟨by simp [spawned], ?_, nofun⟩ ?_ run
  · exact fun j l => ⟨nofun, fun ⟨_, there⟩ => nomatch there⟩
  · rintro τ S evs S' ⟨nodup, threads, covered⟩ step
    cases step with
    | spawn j l free =>
        have fresh : j ∉ (spawned τ).map Prod.fst := fun member => by
          obtain ⟨⟨j', l'⟩, listed, rfl⟩ := List.mem_map.1 member
          obtain ⟨p, there⟩ := (threads j' l').1 listed
          rw [free] at there
          cases there
        have grown : spawned (τ ++ [.spawned j l]) = spawned τ ++ [(j, l)] := spawned_append
        rw [grown, List.map_append]
        refine ⟨?_, fun j' l' => ?_, fun e member => ?_⟩
        · exact List.nodup_append.2 ⟨nodup, List.nodup_singleton _, fun a ha b hb same => by
            rw [same, List.mem_singleton.1 hb] at ha
            exact fresh ha⟩
        · rw [List.mem_append, List.mem_singleton, threads]
          by_cases same : j' = j
          · subst same
            rw [free, setThread_self]
            constructor
            · rintro (⟨p, there⟩ | here)
              · cases there
              · cases here
                exact ⟨_, rfl⟩
            · rintro ⟨p, here⟩
              cases here
              exact Or.inr rfl
          · rw [setThread_ne _ same]
            exact or_iff_left fun here => same (congrArg Prod.fst here)
        · rcases List.mem_append.1 member with before | now
          · exact List.mem_append_left _ (covered e before)
          · rw [List.mem_singleton.1 now]
            exact List.mem_append_right _ (List.mem_singleton_self _)
    | run j l c k here =>
        have same : spawned (τ ++ [.ran j l c (exec c S.store).1]) = spawned τ := by
          rw [spawned_append]
          exact List.append_nil _
        rw [same]
        refine ⟨nodup, fun j' l' => ?_, fun e member => ?_⟩
        · rw [threads]
          by_cases eq : j' = j
          · subst eq
            rw [here, setThread_self]
            constructor <;> rintro ⟨p, there⟩ <;> cases there <;> exact ⟨_, rfl⟩
          · rw [setThread_ne _ eq]
        · rcases List.mem_append.1 member with before | now
          · exact covered e before
          · rw [List.mem_singleton.1 now]
            exact List.mem_map_of_mem ((threads j l).2 ⟨_, here⟩)

/-! ## One program's part of a trace -/

/-- What the program `j` did. -/
def partOf (j : J) (τ : List (Event J L R)) : List (Event J L R) := τ.filter fun e => e.thread = j

theorem partOf_append (j : J) : partOf j (τ ++ evs) = partOf j τ ++ partOf j evs :=
  List.filter_append ..

theorem partOf_other {j : J} {e : Event J L R} (ne : e.thread ≠ j) : partOf j (τ ++ [e]) = partOf j τ := by
  rw [partOf_append]
  simp [partOf, ne]

theorem partOf_self {e : Event J L R} : partOf e.thread (τ ++ [e]) = partOf e.thread τ ++ [e] := by
  rw [partOf_append]
  simp [partOf]

/-- A trace is the parts of its programs, shuffled. -/
theorem shuffle {js : List J} (nodup : js.Nodup) (covered : ∀ e ∈ τ, e.thread ∈ js) :
    τ.Perm (js.flatMap fun j => partOf j τ) := by
  induction js generalizing τ with
  | nil =>
      rw [List.eq_nil_iff_forall_not_mem.2 fun e member => List.not_mem_nil (covered e member)]
      exact .refl _
  | cons j rest ih =>
      obtain ⟨outside, nodup⟩ := List.nodup_cons.1 nodup
      have split : τ.Perm (partOf j τ ++ τ.filter fun e => ¬ e.thread = j) := by
        simpa [partOf] using (List.filter_append_perm (fun e : Event J L R => decide (e.thread = j)) τ).symm
      have others : (τ.filter fun e => ¬ e.thread = j).Perm
          (rest.flatMap fun j' => partOf j' (τ.filter fun e => ¬ e.thread = j)) := by
        refine ih nodup fun e member => ?_
        obtain ⟨inTrace, ne⟩ := List.mem_filter.1 member
        exact (List.mem_cons.1 (covered e inTrace)).resolve_left (by simpa using ne)
      have same : (rest.flatMap fun j' => partOf j' (τ.filter fun e => ¬ e.thread = j)) =
          rest.flatMap fun j' => partOf j' τ := by
        refine List.flatMap_congr fun j' member => ?_
        have ne : j' ≠ j := fun eq => outside (eq ▸ member)
        rw [partOf, List.filter_filter, partOf]
        refine List.filter_congr fun e _ => ?_
        by_cases here : e.thread = j' <;> simp [here, ne]
      rw [same] at others
      exact split.trans (others.append_left _)

/-- Two programs share no event. -/
theorem countP_parts {j j' : J} (ne : j ≠ j') (q : Event J L R → Bool) :
    (partOf j τ).countP q + (partOf j' τ).countP q ≤ τ.countP q := by
  unfold partOf
  induction τ with
  | nil => simp
  | cons e rest ih =>
      by_cases here : e.thread = j
      · have other : ¬ e.thread = j' := fun same => ne (here.symm.trans same)
        simp only [List.filter_cons, here, decide_true, if_true, decide_eq_true_eq, ne, if_false,
          List.countP_cons] at ih ⊢
        omega
      · by_cases there : e.thread = j'
        · simp only [List.filter_cons, there, decide_true, if_true, decide_eq_true_eq, ne.symm, if_false,
            List.countP_cons] at ih ⊢
          omega
        · simp only [List.filter_cons, here, there, decide_false, Bool.false_eq_true, if_false,
            List.countP_cons] at ih ⊢
          omega

/-! ## Commands that are owed -/

/-- Some program will issue the command. -/
def Owed (S : Pool J L σ R α) (c : C) : Prop := ∃ j l p, S.threads j = some (l, p) ∧ p.Owes c

theorem Quiet.owed (quiet : S.Quiet) (c : C) : ¬ S.Owed c := by
  rintro ⟨j, l, p, there, owes⟩
  exact (quiet j l p there).owes c owes

theorem Owed.spawn {c : C} (owed : S.Owed c) {store : σ} {j : J} {l : L} {p : Prog R α}
    (free : S.threads j = none) : (S.setThread store j l p).Owed c := by
  obtain ⟨j', l', p', there, owes⟩ := owed
  have ne : j' ≠ j := by
    rintro rfl
    rw [free] at there
    cases there
  exact ⟨j', l', p', (setThread_ne _ ne _ _).trans there, owes⟩

theorem owed_self {c : C} {store : σ} {j : J} {l : L} {p : Prog R α} (owes : p.Owes c) :
    (S.setThread store j l p).Owed c := ⟨j, l, p, setThread_self .., owes⟩

/-- A command that is not the one that runs stays owed. -/
theorem Owed.run {c c' : C} (owed : S.Owed c) {store : σ} {j : J} {l : L} {k : R c' → Prog R α}
    (here : S.threads j = some (l, .call c' k)) (ne : c' ≠ c) (r : R c') :
    (S.setThread store j l (k r)).Owed c := by
  obtain ⟨j', l', p', there, owes⟩ := owed
  by_cases same : j' = j
  · subst same
    cases here.symm.trans there
    exact owed_self (owes.cont ne r)
  · exact ⟨j', l', p', (setThread_ne _ same _ _).trans there, owes⟩

/-! ## Proof outlines -/

/-- A proof outline: an invariant of the pool, and an assertion for the phase of
each program.  A step keeps the invariant and moves its own program to a phase
whose assertion holds; it does not interfere with the others. -/
structure Outline (exec : (c : C) → σ → R c × σ) (program : L → Prog R α) {P : Type}
    (prog : P → Prog R α) (store : σ) (G : List (Event J L R) → Pool J L σ R α → Prop)
    (K : List (Event J L R) → σ → J → L → P → Prop) : Prop where
  start : G [] (Pool.start store)
  spawn : ∀ {τ S j l}, G τ S → S.threads j = none → (∀ e ∈ τ, e.thread ≠ j) →
    G (τ ++ [.spawned j l]) (S.setThread S.store j l (program l)) ∧
      ∃ p, program l = prog p ∧ K (τ ++ [.spawned j l]) S.store j l p
  spawn_other : ∀ {τ} {s : σ} {j l j' l' p}, j' ≠ j → K τ s j' l' p → K (τ ++ [.spawned j l]) s j' l' p
  run : ∀ {τ S j l p c k}, G τ S → S.threads j = some (l, .call c k) → prog p = .call c k →
    K τ S.store j l p →
      G (τ ++ [.ran j l c (exec c S.store).1])
          (S.setThread (exec c S.store).2 j l (k (exec c S.store).1)) ∧
        ∃ p', k (exec c S.store).1 = prog p' ∧
          K (τ ++ [.ran j l c (exec c S.store).1]) (exec c S.store).2 j l p'
  run_other : ∀ {τ S j l p c k j' l' p'}, G τ S → prog p = .call c k → K τ S.store j l p → j' ≠ j →
    K τ S.store j' l' p' → K (τ ++ [.ran j l c (exec c S.store).1]) (exec c S.store).2 j' l' p'

theorem Outline.holds {P : Type} {prog : P → Prog R α} {store : σ}
    {G : List (Event J L R) → Pool J L σ R α → Prop} {K : List (Event J L R) → σ → J → L → P → Prop}
    (outline : Outline exec program prog store G K) (run : Run exec program store τ S) :
    G τ S ∧ ∀ j l p, S.threads j = some (l, p) → ∃ phase, p = prog phase ∧ K τ S.store j l phase := by
  refine (Run.induct (I := fun τ S => (G τ S ∧ ∀ j l p, S.threads j = some (l, p) →
      ∃ phase, p = prog phase ∧ K τ S.store j l phase) ∧
    ∀ j, S.threads j = none → ∀ e ∈ τ, e.thread ≠ j) ⟨⟨outline.start, nofun⟩, nofun⟩ ?_ run).1
  rintro τ S evs S' ⟨⟨inv, phases⟩, untouched⟩ step
  cases step with
  | spawn j l free =>
      obtain ⟨inv', p, is, holds⟩ := outline.spawn (l := l) inv free (untouched j free)
      refine ⟨⟨inv', fun j' l' p' there => ?_⟩, fun j' free' e member => ?_⟩
      · rcases setThread_cases there with ⟨rfl, rfl, rfl⟩ | ⟨ne, there⟩
        · exact ⟨p, is, holds⟩
        · obtain ⟨phase, is', holds'⟩ := phases j' l' p' there
          exact ⟨phase, is', outline.spawn_other ne holds'⟩
      · have ne : j' ≠ j := by
          rintro rfl
          rw [setThread_self] at free'
          cases free'
        rw [setThread_ne _ ne] at free'
        rcases List.mem_append.1 member with before | now
        · exact untouched j' free' e before
        · rw [List.mem_singleton.1 now]
          exact ne.symm
  | run j l c k here =>
      obtain ⟨phase, is, holds⟩ := phases j l _ here
      obtain ⟨inv', p', is', holds'⟩ := outline.run inv here is.symm holds
      refine ⟨⟨inv', fun j' l' p'' there => ?_⟩, fun j' free' e member => ?_⟩
      · rcases setThread_cases there with ⟨rfl, rfl, rfl⟩ | ⟨ne, there⟩
        · exact ⟨p', is', holds'⟩
        · obtain ⟨phase', same, other⟩ := phases j' l' p'' there
          exact ⟨phase', same, outline.run_other inv is.symm holds ne other⟩
      · have ne : j' ≠ j := by
          rintro rfl
          rw [setThread_self] at free'
          cases free'
        rw [setThread_ne _ ne] at free'
        rcases List.mem_append.1 member with before | now
        · exact untouched j' free' e before
        · rw [List.mem_singleton.1 now]
          exact ne.symm

/-! ## Programs that keep to their commands -/

/-- If every program issues only commands that its label allows, and these keep an
invariant of the store and the labels so far, every run keeps it. -/
theorem Run.only {store : σ} {P : L → C → Prop} {I : List L → σ → Prop}
    (programs : ∀ l, (program l).Only (P l)) (first : I [] store)
    (more : ∀ {ls s} l, I ls s → I (ls ++ [l]) s)
    (kept : ∀ {ls s l c}, l ∈ ls → P l c → I ls s → I ls (exec c s).2) (run : Run exec program store τ S) :
    I ((spawned τ).map Prod.snd) S.store ∧
      ∀ j l p, S.threads j = some (l, p) → l ∈ (spawned τ).map Prod.snd ∧ p.Only (P l) := by
  refine Run.induct (I := fun τ S => I ((spawned τ).map Prod.snd) S.store ∧
    ∀ j l p, S.threads j = some (l, p) → l ∈ (spawned τ).map Prod.snd ∧ p.Only (P l)) ⟨first, nofun⟩ ?_ run
  rintro τ S evs S' ⟨inv, threads⟩ step
  cases step with
  | spawn j l free =>
      have grown : (spawned (τ ++ [.spawned j l])).map Prod.snd = (spawned τ).map Prod.snd ++ [l] := by
        rw [spawned_append, List.map_append]
        rfl
      rw [grown]
      refine ⟨more l inv, fun j' l' p' there => ?_⟩
      rcases setThread_cases there with ⟨-, rfl, rfl⟩ | ⟨-, there⟩
      · exact ⟨List.mem_append_right _ (List.mem_singleton_self _), programs l'⟩
      · exact (threads j' l' p' there).imp_left (List.mem_append_left _)
  | run j l c k here =>
      have same : spawned (τ ++ [.ran j l c (exec c S.store).1]) = spawned τ := by
        rw [spawned_append]
        exact List.append_nil _
      obtain ⟨member, only⟩ := threads j l _ here
      rw [same]
      refine ⟨kept member only.head inv, fun j' l' p' there => ?_⟩
      rcases setThread_cases there with ⟨-, rfl, rfl⟩ | ⟨-, there⟩
      · exact ⟨member, only.cont _⟩
      · exact threads j' l' p' there

end Pool

end ColabEdit.Theory
