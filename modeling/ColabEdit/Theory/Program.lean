/-
# ColabEdit.Theory.Program -- programs over atomic commands

A `Prog` issues commands one at a time and continues on each reply; it may stop
with an exception.  Commands and the types of their replies are parameters, and
so is the store they act on (`exec`).  One program has two readings:

* `run` executes it to its end with nothing in between: a handler that is atomic;
* `Prog.call c k` exposes the next command and the continuation, so a scheduler
  can interleave the commands of many programs.

`Only p` says that every command a program can still issue satisfies `p`; it is
kept by every reply (`Only.cont`), and a run through commands that keep an
invariant of the store keeps it (`Only.run`).  `Owes c` says that the program
will issue `c`; an ended program owes nothing.

`lift f` is the same program over other commands, each sent as its `f`.
-/
import Mathlib.Logic.Basic

namespace ColabEdit.Theory

set_option autoImplicit false

/-- A program: a result, an exception, or a command with a continuation. -/
inductive Prog {C : Type} (R : C → Type) (α : Type) : Type
  | ret (a : α)
  | raise
  | call (c : C) (k : R c → Prog R α)

namespace Prog

variable {C : Type} {R : C → Type} {α β σ : Type}

protected def bind : Prog R α → (α → Prog R β) → Prog R β
  | ret a, f => f a
  | raise, _ => raise
  | call c k, f => call c fun r => (k r).bind f

instance : Monad (Prog R) where
  pure := ret
  bind := Prog.bind

/-- Issue one command and return its reply. -/
def op (c : C) : Prog R (R c) := call c ret

/-- The value, or an exception where there is none. -/
def orRaise : Option α → Prog R α
  | some a => ret a
  | none => raise

/-- `try: p` with an `except` that catches everything. -/
def attempt : Prog R α → Prog R (Option α)
  | ret a => ret (some a)
  | raise => ret none
  | call c k => call c fun r => (k r).attempt

@[simp] theorem pure_eq (a : α) : (pure a : Prog R α) = ret a := rfl

@[simp] theorem ret_bind (a : α) (f : α → Prog R β) : (ret a : Prog R α) >>= f = f a := rfl

@[simp] theorem raise_bind (f : α → Prog R β) : (raise : Prog R α) >>= f = raise := rfl

@[simp] theorem call_bind (c : C) (k : R c → Prog R α) (f : α → Prog R β) :
    call c k >>= f = call c fun r => k r >>= f := rfl

@[simp] theorem op_bind (c : C) (f : R c → Prog R β) : (op c : Prog R (R c)) >>= f = call c f := rfl

/-- Run a program alone, from its first command to its result. -/
def run (exec : (c : C) → σ → R c × σ) : Prog R α → σ → Option α × σ
  | ret a, s => (some a, s)
  | raise, s => (none, s)
  | call c k, s => (k (exec c s).1).run exec (exec c s).2

variable {exec : (c : C) → σ → R c × σ}

@[simp] theorem run_ret (a : α) (s : σ) : (ret a : Prog R α).run exec s = (some a, s) := rfl

@[simp] theorem run_raise (s : σ) : (raise : Prog R α).run exec s = (none, s) := rfl

@[simp] theorem run_call (c : C) (k : R c → Prog R α) (s : σ) :
    (call c k).run exec s = (k (exec c s).1).run exec (exec c s).2 := rfl

theorem bind_assoc {γ : Type} (p : Prog R α) (f : α → Prog R β) (g : β → Prog R γ) :
    p >>= f >>= g = p >>= fun a => f a >>= g := by
  induction p with
  | ret a => rfl
  | raise => rfl
  | call c k ih => exact congrArg (Prog.call c) (funext ih)

/-- A bind runs its first part and, on a result, the continuation. -/
theorem run_bind (p : Prog R α) (f : α → Prog R β) (s : σ) :
    (p >>= f).run exec s =
      match p.run exec s with
      | (some a, s') => (f a).run exec s'
      | (none, s') => (none, s') := by
  induction p generalizing s with
  | ret a => rfl
  | raise => rfl
  | call c k ih => exact ih _ _

/-- The program has a result or an exception. -/
def Ended : Prog R α → Prop
  | call _ _ => False
  | _ => True

instance : DecidablePred (Ended : Prog R α → Prop)
  | ret _ => inferInstanceAs (Decidable True)
  | raise => inferInstanceAs (Decidable True)
  | call _ _ => inferInstanceAs (Decidable False)

/-- Whatever the replies are, the program issues the command before it ends. -/
def Owes (c : C) : Prog R α → Prop
  | call c' k => c' = c ∨ ∀ r, (k r).Owes c
  | _ => False

theorem Ended.owes {p : Prog R α} (ended : p.Ended) (c : C) : ¬ p.Owes c := by
  cases p with
  | call c' k => exact ended.elim
  | _ => exact id

theorem Owes.cont {c c' : C} {k : R c' → Prog R α} (owes : (call c' k).Owes c) (ne : c' ≠ c) (r : R c') :
    (k r).Owes c := (owes.resolve_left ne) r

/-- Every command the program can issue satisfies `p`, whatever the replies. -/
inductive Only (p : C → Prop) : Prog R α → Prop
  | ret (a : α) : Only p (ret a)
  | raise : Only p raise
  | call {c : C} {k : R c → Prog R α} : p c → (∀ r, Only p (k r)) → Only p (call c k)

namespace Only

variable {p : C → Prop}

theorem cont {c : C} {k : R c → Prog R α} (only : Only p (Prog.call c k)) (r : R c) :
    Only p (k r) := by
  cases only with
  | call _ conts => exact conts r

theorem head {c : C} {k : R c → Prog R α} (only : Only p (Prog.call c k)) : p c := by
  cases only with
  | call here _ => exact here

theorem imp {p' : C → Prop} {q : Prog R α} (only : Only p q) (weaker : ∀ c, p c → p' c) :
    Only p' q := by
  induction only with
  | ret a => exact .ret a
  | raise => exact .raise
  | call here _ ih => exact .call (weaker _ here) ih

theorem bind {q : Prog R α} {f : α → Prog R β} (first : Only p q) (rest : ∀ a, Only p (f a)) :
    Only p (q >>= f) := by
  induction first with
  | ret a => exact rest a
  | raise => exact .raise
  | call here _ ih => exact .call here ih

theorem op {c : C} (here : p c) : Only p (Prog.op c : Prog R (R c)) := .call here fun r => .ret r

/-- What every allowed command keeps of the store, the run keeps. -/
theorem run {q : Prog R α} (only : Only p q) {I : σ → Prop}
    (kept : ∀ c s, p c → I s → I (exec c s).2) {s : σ} (holds : I s) : I (q.run exec s).2 := by
  induction only generalizing s with
  | ret a => exact holds
  | raise => exact holds
  | call here _ ih => exact ih _ (kept _ _ here holds)

/-- What no allowed command changes, the run does not change. -/
theorem same {q : Prog R α} (only : Only p q) {β : Type} {f : σ → β}
    (kept : ∀ c s, p c → f (exec c s).2 = f s) (s : σ) : f (q.run exec s).2 = f s :=
  only.run (I := fun t => f t = f s) (fun c t allowed unchanged => (kept c t allowed).trans unchanged) rfl

end Only

/-! ## The same program over other commands -/

section Lift

variable {C' : Type} {R' : C' → Type} {exec' : (c : C') → σ → R' c × σ}

/-- Send `f c` for each command `c` and read its reply by `reply`. -/
def lift (f : C → C') (reply : (c : C) → R' (f c) → R c) : Prog R α → Prog R' α
  | ret a => ret a
  | raise => raise
  | call c k => call (f c) fun r => (k (reply c r)).lift f reply

variable {f : C → C'} {reply : (c : C) → R' (f c) → R c}

@[simp] theorem lift_ret (a : α) : (ret a : Prog R α).lift f reply = ret a := rfl

@[simp] theorem lift_raise : (raise : Prog R α).lift f reply = raise := rfl

/-- Commands that do the same make programs that do the same. -/
theorem run_lift (same : ∀ c s, (reply c (exec' (f c) s).1, (exec' (f c) s).2) = exec c s) (p : Prog R α) (s : σ) :
    (p.lift f reply).run exec' s = p.run exec s := by
  induction p generalizing s with
  | ret a => rfl
  | raise => rfl
  | call c k ih =>
      rw [lift, run_call, run_call, ih, ← same c s]

theorem Only.lift {p : C → Prop} {p' : C' → Prop} {q : Prog R α} (only : Only p q) (weaker : ∀ c, p c → p' (f c)) :
    Only p' (q.lift f reply) := by
  induction only with
  | ret a => exact .ret a
  | raise => exact .raise
  | call here _ ih => exact .call (weaker _ here) fun r => ih (reply _ r)

end Lift

end Prog

end ColabEdit.Theory
