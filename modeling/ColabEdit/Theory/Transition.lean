/-
# ColabEdit.Theory.Transition -- partial step functions, their runs and traces

A `Machine` is a step function that may refuse an action; a step yields the next
state and the events it is observed by.  A `Run` carries the trace of every
event so far, so a property of a whole history ("every batch was stored once")
is a property of the trace and needs no ghost field in the state.

* `Run.invariant` is the one induction over runs: a relation between trace and
  state that holds at the start and survives every step holds in every run;
* `Run.guarded` is the same under a condition on the trace that its prefixes
  inherit, for results of the form "in every run whose steps all …";
* `Each` is such a condition: what every event asks of the trace before it;
  `collect` gathers what every event yields given the trace before it;
* `exec` replays a list of actions; `Run.of_exec` and `Run.of_replay` turn a
  computed replay into a run, so a concrete run is established by evaluation;
-/
import Mathlib.Data.List.Basic

namespace ColabEdit.Theory

set_option autoImplicit false

universe u v w

/-- A partial, observed step function. -/
structure Machine (σ : Type u) (α : Type v) (ε : Type w) where
  step : σ → α → Option (σ × List ε)

namespace Machine

variable {σ : Type u} {α : Type v} {ε : Type w} (m : Machine σ α ε)

/-- The runs of a machine: the trace so far and the state it led to. -/
inductive Run (init : σ) : List ε → σ → Prop
  | start : Run init [] init
  | next {τ : List ε} {s : σ} {a : α} {s' : σ} {evs : List ε} :
      Run init τ s → m.step s a = some (s', evs) → Run init (τ ++ evs) s'

variable {m}

theorem Run.invariant {init : σ} {I : List ε → σ → Prop} (start : I [] init)
    (step : ∀ {τ s a s' evs}, m.Run init τ s → I τ s → m.step s a = some (s', evs) →
      I (τ ++ evs) s')
    {τ : List ε} {s : σ} (run : m.Run init τ s) : I τ s := by
  induction run with
  | start => exact start
  | next prior taken ih => exact step prior ih taken

/-- A run that goes on from where another one ended. -/
theorem Run.trans {init s s' : σ} {τ τ' : List ε} (before : m.Run init τ s) (after : m.Run s τ' s') :
    m.Run init (τ ++ τ') s' := by
  induction after with
  | start => simpa using before
  | next _ taken ih =>
      rw [← List.append_assoc]
      exact ih.next taken

/-- The induction for runs whose trace meets a condition: the condition passes
to prefixes, so the invariant may be assumed of the prior state. -/
theorem Run.guarded {init : σ} {C : List ε → Prop} {I : List ε → σ → Prop}
    (prefixes : ∀ {τ evs}, C (τ ++ evs) → C τ) (start : I [] init)
    (step : ∀ {τ s a s' evs}, m.Run init τ s → C (τ ++ evs) → I τ s →
      m.step s a = some (s', evs) → I (τ ++ evs) s')
    {τ : List ε} {s : σ} (run : m.Run init τ s) (condition : C τ) : I τ s := by
  induction run with
  | start => exact start
  | next prior taken ih => exact step prior condition (ih (prefixes condition)) taken

/-- Every event of the second list meets a condition on what came before it. -/
def Each (P : List ε → ε → Prop) : List ε → List ε → Prop
  | _, [] => True
  | past, e :: rest => P past e ∧ Each P (past ++ [e]) rest

theorem each_append {P : List ε → ε → Prop} {past τ evs : List ε} :
    Each P past (τ ++ evs) ↔ Each P past τ ∧ Each P (past ++ τ) evs := by
  induction τ generalizing past with
  | nil => simp [Each]
  | cons e rest ih => simp [Each, ih, and_assoc]

instance Each.decidable {P : List ε → ε → Prop} [∀ past e, Decidable (P past e)] :
    ∀ past τ : List ε, Decidable (Each P past τ)
  | _, [] => inferInstanceAs (Decidable True)
  | past, e :: rest =>
      have := Each.decidable (P := P) (past ++ [e]) rest
      inferInstanceAs (Decidable (P past e ∧ Each P (past ++ [e]) rest))

/-- What the events yield, each read against what came before it. -/
def collect {β : Type w} (f : List ε → ε → Option β) : List ε → List ε → List β
  | _, [] => []
  | past, e :: rest => (f past e).toList ++ collect f (past ++ [e]) rest

theorem collect_append {β : Type w} {f : List ε → ε → Option β} {past τ evs : List ε} :
    collect f past (τ ++ evs) = collect f past τ ++ collect f (past ++ τ) evs := by
  induction τ generalizing past with
  | nil => simp [collect]
  | cons e rest ih => simp [collect, ih]

theorem collect_eq_nil {β : Type w} {f : List ε → ε → Option β} {past evs : List ε}
    (nothing : ∀ past, ∀ e ∈ evs, f past e = none) : collect f past evs = [] := by
  induction evs generalizing past with
  | nil => rfl
  | cons e rest ih =>
      rw [collect, nothing past e (by simp), ih fun past e member => nothing past e (by simp [member])]
      rfl

/-- Replay a list of actions, collecting the trace. -/
def exec (m : Machine σ α ε) : List α → List ε × σ → Option (List ε × σ)
  | [], reached => some reached
  | a :: rest, (τ, s) =>
      match m.step s a with
      | some (s', evs) => exec m rest (τ ++ evs, s')
      | none => none

theorem Run.of_exec {init : σ} {actions : List α} {τ τ' : List ε} {s s' : σ}
    (run : m.Run init τ s) (replayed : m.exec actions (τ, s) = some (τ', s')) :
    m.Run init τ' s' := by
  induction actions generalizing τ s with
  | nil =>
      cases replayed
      exact run
  | cons a rest ih =>
      simp only [exec] at replayed
      split at replayed
      · rename_i taken
        exact ih (run.next taken) replayed
      · cases replayed

/-- What a replay observes comes after what was observed before it. -/
theorem exec_trace (actions : List α) (τ : List ε) (s : σ) :
    m.exec actions (τ, s) = (m.exec actions ([], s)).map fun r => (τ ++ r.1, r.2) := by
  induction actions generalizing τ s with
  | nil => simp [exec]
  | cons a rest ih =>
      simp only [exec]
      rcases m.step s a with _ | ⟨s', evs⟩
      · rfl
      · dsimp only
        rw [ih (τ ++ evs), ih ([] ++ evs), Option.map_map]
        simp [Function.comp_def, List.append_assoc]

/-- A replay from somewhere in a run. -/
theorem Run.of_exec_from {init : σ} {actions : List α} {τ evs : List ε} {s s' : σ} (run : m.Run init τ s)
    (replayed : m.exec actions ([], s) = some (evs, s')) : m.Run init (τ ++ evs) s' :=
  run.of_exec (by rw [exec_trace, replayed]; rfl)

/-- A replay that ends in a state with a decided property is a run to such a state. -/
theorem Run.of_replay {init : σ} {actions : List α} {P : List ε → σ → Prop}
    [∀ τ s, Decidable (P τ s)]
    (replayed : ((m.exec actions ([], init)).any fun r => P r.1 r.2) = true) :
    ∃ τ s, m.Run init τ s ∧ P τ s := by
  obtain ⟨⟨τ, s⟩, reached, holds⟩ := (Option.any_eq_true _ _).1 replayed
  exact ⟨τ, s, Run.of_exec .start reached, of_decide_eq_true holds⟩

end Machine

end ColabEdit.Theory
