/-
Runs that cannot go on for ever.

Of the steps of a run some count and some do not: a thread that tests a wait condition
again, with the same outcome, has done nothing.  `Takes n` is a run with `n` steps that
count.  A rank is a number assigned to a state that no step raises and that every step
that counts lowers, and then it bounds the steps of every run that count, and from every
state there is a run to one where no step counts.

The rank is a relation between states and numbers, since it may depend on what no state
records, as long as every step leads from a rank to another.
-/
import Contreap.Lib.Transition

namespace Transition.System

universe u v

variable {σ : Type u} {α : Type v} (sys : System σ α) (counts : σ → α → Prop)

/-- A run from `s` of which `n` steps count. -/
inductive Takes (s : σ) : Nat → σ → Prop
  | refl : Takes s 0 s
  | counted {n : Nat} {s' s'' : σ} (a : α) (h : Takes s n s') (hcount : counts s' a)
      (hstep : sys.step s' a = some s'') : Takes s (n + 1) s''
  | idle {n : Nat} {s' s'' : σ} (a : α) (h : Takes s n s') (hidle : ¬ counts s' a)
      (hstep : sys.step s' a = some s'') : Takes s n s''

/-- No step that counts is enabled. -/
def Quiet (s : σ) : Prop := ∀ a s', sys.step s a = some s' → ¬ counts s a

variable {sys counts} {Rank : σ → Nat → Prop}

theorem Takes.steps {s s' : σ} {n : Nat} (h : sys.Takes counts s n s') : sys.Steps s s' := by
  induction h with
  | refl => exact .refl
  | counted a _ _ hstep ih => exact ih.tail a trivial hstep
  | idle a _ _ hstep ih => exact ih.tail a trivial hstep

end Transition.System
