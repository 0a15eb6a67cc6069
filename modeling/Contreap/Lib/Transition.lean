/-
Transition systems with a guarded, executable step.

A system has one initial state and a step function: `step s a` is the state after
the action `a`, and `none` when `a` is not enabled in `s`.  The same function is
replayed on a concrete list of actions and reasoned about over all of them, so the
guards a proof uses are the guards a replay runs through.

`Reach good s s'` is a run from `s` to `s'` all of whose steps satisfy `good`, a
condition on the state before the step and the action taken.  Ordinary
reachability is the case where every step is good.  Two rules are what most proofs
above need: an invariant that every good step keeps holds along every good run, and
its step may be proved from another invariant that is already known.

Where a result is about one run and tells what it comes to from whether all its steps
were good, the run is a list of actions, and the rule is `run_course`: it stays on
course up to the first bad step and is astray from there on.
-/
import Mathlib.Algebra.GroupWithZero.Nat

namespace Transition

universe u v

/-- An initial state and a guarded step. -/
structure System (σ : Type u) (α : Type v) where
  init : σ
  step : σ → α → Option σ

namespace System

variable {σ : Type u} {α : Type v} (sys : System σ α)

/-- A run from `s` whose steps all satisfy `good`. -/
inductive Reach (good : σ → α → Prop) (s : σ) : σ → Prop
  | refl : Reach good s s
  | tail {s' s'' : σ} (a : α) (h : Reach good s s') (hgood : good s' a)
      (hstep : sys.step s' a = some s'') : Reach good s s''

/-- A run whose steps are not restricted. -/
abbrev Steps (s s' : σ) : Prop := sys.Reach (fun _ _ => True) s s'

/-- Reachable from the initial state. -/
abbrev Reachable (s : σ) : Prop := sys.Steps sys.init s

variable {sys} {good : σ → α → Prop}

theorem Reach.trans {s s' s'' : σ} (h : sys.Reach good s s') (h' : sys.Reach good s' s'') :
    sys.Reach good s s'' := by
  induction h' with
  | refl => exact h
  | tail a _ hgood hstep ih => exact ih.tail a hgood hstep

/-- A run under a condition is a run under any weaker one. -/
theorem Reach.mono {good' : σ → α → Prop} (hle : ∀ s a, good s a → good' s a) {s s' : σ}
    (h : sys.Reach good s s') : sys.Reach good' s s' := by
  induction h with
  | refl => exact .refl
  | tail a _ hgood hstep ih => exact ih.tail a (hle _ _ hgood) hstep

/-- A good run is a run under any condition that its steps meet. -/
theorem Reach.mono_of {good' : σ → α → Prop} {s s' : σ} (h : sys.Reach good s s')
    (hle : ∀ t a t', sys.Reach good s t → good t a → sys.step t a = some t' → good' t a) :
    sys.Reach good' s s' := by
  induction h with
  | refl => exact .refl
  | tail a hr hgood hstep ih => exact ih.tail a (hle _ _ _ hr hgood hstep) hstep

theorem Reach.steps {s s' : σ} (h : sys.Reach good s s') : sys.Steps s s' :=
  h.mono fun _ _ _ => trivial

/-- **The invariant rule.**  What every good step keeps holds along every good run. -/
theorem Reach.invariant {I : σ → Prop}
    (hstep : ∀ s a s', I s → good s a → sys.step s a = some s' → I s')
    {s s' : σ} (h : sys.Reach good s s') (hs : I s) : I s' := by
  induction h with
  | refl => exact hs
  | tail a _ hgood hs' ih => exact hstep _ a _ ih hgood hs'

/-- The invariant rule with a second invariant already known of every state of the run. -/
theorem Reach.invariant_of {K I : σ → Prop}
    (hstep : ∀ s a s', K s → I s → good s a → sys.step s a = some s' → I s')
    {s s' : σ} (h : sys.Reach good s s')
    (hknown : ∀ t, sys.Reach good s t → K t) (hs : I s) : I s' := by
  induction h with
  | refl => exact hs
  | tail a hr hgood hs' ih => exact hstep _ a _ (hknown _ hr) ih hgood hs'

/-! ### Replaying a list of actions

A run of a machine that computes is found by running it, and then it is a run in the
sense of the relations above.
-/

/-- Take the actions one after another; `none` when one of them is not enabled. -/
def run (sys : System σ α) : List α → σ → Option σ
  | [], s => some s
  | a :: rest, s => (sys.step s a).bind (sys.run rest)

theorem reach_of_run {acts : List α} : ∀ {s s' : σ},
    sys.run acts s = some s' → sys.Steps s s' := by
  induction acts with
  | nil =>
      intro s s' h
      cases h
      exact .refl
  | cons a rest ih =>
      intro s s' h
      obtain ⟨s₁, hs₁, hrest⟩ := Option.bind_eq_some_iff.mp h
      exact (Reach.refl.tail a trivial hs₁).trans (ih hrest)

/-- Every action of a replay meets `good` in the state it is taken in. -/
def Meets (sys : System σ α) (good : σ → α → Prop) : List α → σ → Prop
  | [], _ => True
  | a :: rest, s => good s a ∧ ∀ s', sys.step s a = some s' → sys.Meets good rest s'

theorem meets_cons {a : α} {rest : List α} {s s₁ : σ} (hstep : sys.step s a = some s₁) :
    sys.Meets good (a :: rest) s ↔ good s a ∧ sys.Meets good rest s₁ := by
  constructor
  · rintro ⟨ha, hall⟩
    exact ⟨ha, hall s₁ hstep⟩
  · rintro ⟨ha, hall⟩
    refine ⟨ha, fun t ht => ?_⟩
    obtain rfl := Option.some.inj (hstep.symm.trans ht)
    exact hall

/-- What every step keeps, at a cost, a run keeps at the sum of the costs. -/
theorem run_spend (cost : α → Nat) (P : Nat → σ → Prop)
    (hstep : ∀ {n s a s'}, P n s → sys.step s a = some s' → ∃ m, m + cost a ≤ n ∧ P m s')
    {acts : List α} : ∀ {n : Nat} {s s' : σ}, sys.run acts s = some s' → P n s →
      ∃ m, m + (acts.map cost).sum ≤ n ∧ P m s' := by
  induction acts with
  | nil =>
      intro n s s' h hs
      cases h
      exact ⟨n, Nat.le_refl n, hs⟩
  | cons a rest ih =>
      intro n s s' h hs
      obtain ⟨s₁, hs₁, hrest⟩ := Option.bind_eq_some_iff.mp h
      obtain ⟨m₁, hle₁, h₁⟩ := hstep hs hs₁
      obtain ⟨m, hle, hm⟩ := ih hrest h₁
      rw [List.map_cons, List.sum_cons]
      exact ⟨m, by omega, hm⟩

/-- **The course rule.**  A good step keeps a run on course and a bad one takes it astray,
where it stays.  Each action has a cost, and `n` is what the run has left to spend. -/
theorem run_course (cost : α → Nat) (On Astray : Nat → σ → Prop)
    (hgood : ∀ {n s a s'}, On n s → good s a → sys.step s a = some s' →
      ∃ m, m + cost a ≤ n ∧ On m s')
    (hbad : ∀ {n s a s'}, On n s → ¬ good s a → sys.step s a = some s' →
      ∃ m, m + cost a ≤ n ∧ Astray m s')
    (hastray : ∀ {n s a s'}, Astray n s → sys.step s a = some s' →
      ∃ m, m + cost a ≤ n ∧ Astray m s') {acts : List α} :
    ∀ {n : Nat} {s s' : σ}, sys.run acts s = some s' → On n s →
      ∃ m, m + (acts.map cost).sum ≤ n ∧
        (sys.Meets good acts s ∧ On m s' ∨ ¬ sys.Meets good acts s ∧ Astray m s') := by
  induction acts with
  | nil =>
      intro n s s' h hs
      cases h
      exact ⟨n, Nat.le_refl n, Or.inl ⟨trivial, hs⟩⟩
  | cons a rest ih =>
      intro n s s' h hs
      obtain ⟨s₁, hs₁, hrest⟩ := Option.bind_eq_some_iff.mp h
      rw [List.map_cons, List.sum_cons, meets_cons hs₁]
      by_cases ha : good s a
      · obtain ⟨m₁, hle₁, h₁⟩ := hgood hs ha hs₁
        obtain ⟨m, hle, hm⟩ := ih hrest h₁
        refine ⟨m, by omega, ?_⟩
        rcases hm with ⟨hall, hon⟩ | ⟨hnot, hoff⟩
        · exact Or.inl ⟨⟨ha, hall⟩, hon⟩
        · exact Or.inr ⟨fun hall => hnot hall.2, hoff⟩
      · -- From the first bad step on only the cost is left to count.
        obtain ⟨m₁, hle₁, h₁⟩ := hbad hs ha hs₁
        obtain ⟨m, hle, hm⟩ := run_spend cost Astray hastray hrest h₁
        exact ⟨m, by omega, Or.inr ⟨fun hall => ha hall.1, hm⟩⟩

/-- Replay with a test before each action. -/
def runIf (sys : System σ α) (ok : σ → α → Bool) : List α → σ → Option σ
  | [], s => some s
  | a :: rest, s => if ok s a then (sys.step s a).bind (sys.runIf ok rest) else none

/-- A replay whose actions all pass the test meets what the test stands for. -/
theorem meets_of_runIf {ok : σ → α → Bool} (hok : ∀ s a, ok s a = true → good s a)
    {acts : List α} : ∀ {s s' : σ}, sys.runIf ok acts s = some s' →
      sys.run acts s = some s' ∧ sys.Meets good acts s := by
  induction acts with
  | nil =>
      intro s s' h
      exact ⟨h, trivial⟩
  | cons a rest ih =>
      intro s s' h
      rw [runIf] at h
      split at h
      case isFalse => cases h
      next ha =>
      obtain ⟨s₁, hs₁, hrest⟩ := Option.bind_eq_some_iff.mp h
      obtain ⟨hrun, hmeets⟩ := ih hrest
      exact ⟨Option.bind_eq_some_iff.mpr ⟨s₁, hs₁, hrun⟩,
        (meets_cons hs₁).mpr ⟨hok s a ha, hmeets⟩⟩

/-- A replay is a good run when the test only passes good steps. -/
theorem reach_of_runIf {ok : σ → α → Bool} (hok : ∀ s a, sys.Reachable s → ok s a = true → good s a)
    {acts : List α} : ∀ {s s' : σ}, sys.Reachable s →
    sys.runIf ok acts s = some s' → sys.Reach good s s' := by
  induction acts with
  | nil =>
      intro s s' _ h
      cases h
      exact .refl
  | cons a rest ih =>
      intro s s' hs h
      rw [runIf] at h
      split at h
      · next ha =>
          obtain ⟨s₁, hs₁, hrest⟩ := Option.bind_eq_some_iff.mp h
          exact (Reach.refl.tail a (hok s a hs ha) hs₁).trans (ih (hs.tail a trivial hs₁) hrest)
      · cases h

end System

end Transition
