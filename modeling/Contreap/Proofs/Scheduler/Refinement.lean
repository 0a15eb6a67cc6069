/-
The concurrent treap refines the sequential one.

In every reachable state the root of an issued task stands for the tree of its
version, and once the task and all before it are done nothing is left to stand for:
the pointer shows that tree.  It is the tree the sequential functions make of the
initial one, and since neither roots nor finished tasks change afterwards, it is there
for good.
-/
import Contreap.Proofs.Scheduler.Threads

namespace Scheduler

open BinaryTree PtrHeap Treap

variable {c : Config} {T : Nat → BinaryTree Datum} {t₀ : BinaryTree Datum} {s s' : State}
  {steps steps' : Nat → Nat} {v : Nat} {a : Action}

/-! ### What later states keep

Tasks never go back.  What is settled once stays settled, which is why a statement about
one state can be made of all later ones.
-/

/-- What is for good: tasks that have been issued keep their roots, and tasks that are
done stay done. -/
structure Later (s s' : State) : Prop where
  issued : s.numIssued ≤ s'.numIssued
  finished : ∀ w, Finished s.ctxs w → Finished s'.ctxs w
  root : ∀ w ≤ s.numIssued, (s'.ctxs w).root = (s.ctxs w).root

theorem Later.refl (s : State) : Later s s := ⟨Nat.le_refl _, fun _ hw => hw, fun _ _ => rfl⟩

theorem Later.trans {s'' : State} (h : Later s s') (h' : Later s' s'') : Later s s'' := by
  refine ⟨h.issued.trans h'.issued, fun w hw => h'.finished w (h.finished w hw), ?_⟩
  intro w hw
  rw [h'.root w (hw.trans h.issued), h.root w hw]

/-- The task that moves was issued and is not done, so its root and its being done are
settled by the step; no other context changes. -/
theorem Change.later (h : Inv c T s steps) (hchange : Change a s steps s' steps') : Later s s' := by
  cases hchange with
  | same _ hctxs hissued =>
      refine ⟨hissued.ge, ?_, ?_⟩
      · intro w hw
        rwa [hctxs]
      · intro w _
        rw [hctxs]
  | @moved u x hu heff _ hctxs hissued =>
      refine ⟨hissued.ge, ?_, ?_⟩
      · intro w hw
        rw [hctxs]
        exact heff.moves.finished hw
      · intro w _
        rw [hctxs]
        by_cases hwu : w = u
        · rw [hwu, Function.update_self, heff.root]
        · rw [Function.update_of_ne hwu]
  | @staged u n _ hctxs hissued =>
      refine ⟨hissued.ge, ?_, ?_⟩
      · intro w hw
        rw [hctxs, Finished]
        by_cases hwu : w = u
        · rw [hwu, Function.update_self]
          exact hwu ▸ hw
        · rwa [Function.update_of_ne hwu]
      · intro w _
        rw [hctxs]
        by_cases hwu : w = u
        · rw [hwu, Function.update_self]
        · rw [Function.update_of_ne hwu]
  | @issued ctx _ hctxs hissued =>
      refine ⟨by omega, ?_, ?_⟩
      · intro w hw
        have hle := h.trees.finished_le hw
        rwa [hctxs, Finished, Function.update_of_ne (by omega)]
      · intro w hw
        rw [hctxs, Function.update_of_ne (by omega)]
  | augmented _ _ _ hctxs hissued =>
      refine ⟨hissued.ge, ?_, ?_⟩
      · intro w hw
        rwa [hctxs]
      · intro w _
        rw [hctxs]

/-- The invariant and the past, at any later state. -/
theorem inv_later (h₀ : VerBound 0 t₀) (h : Inv c (versionTree c t₀) s steps)
    (hs : (system c).Steps s s') :
    (∃ steps', Inv c (versionTree c t₀) s' steps') ∧ Later s s' := by
  refine hs.invariant
    (I := fun t => (∃ steps', Inv c (versionTree c t₀) t steps') ∧ Later s t) ?_
    ⟨⟨steps, h⟩, .refl s⟩
  rintro t a t' ⟨⟨steps₁, h₁⟩, hlater⟩ - hstep
  obtain ⟨steps₂, h₂, hchange⟩ := inv_step h₁ h₀ hstep
  exact ⟨⟨steps₂, h₂⟩, hlater.trans (hchange.later h₁)⟩

/-! ### Finished versions

When all tasks up to a version are done, its plan has come down to trees that are there.
-/

/-- When a task and all before it are done, its root shows the tree of its version. -/
theorem Inv.shows_version (h : Inv c (versionTree c t₀) s steps) (h₀ : VerBound 0 t₀)
    (hv : v ≤ s.numIssued) (hdone : ∀ u ≤ v, Finished s.ctxs u) :
    Settled s.heap s.ctxs (s.ctxs v).root (versionTree c t₀ v) :=
  (h.trees.roots v hv).settle (verBound_versionTree h₀) hdone

/--
**The concurrent treap refines the sequential one.**  In any reachable state, a task
that is done together with all before it shows at its root the very tree that
`search_insert` and `search_delete` make of the initial one, and shows it there in
every later state.
-/
theorem refines_sequential (hshow : Shows layout c.heap₀ c.t₀ t₀)
    (hver : ∀ e ∈ t₀.inorder, e.ver = 0) (hs : (system c).Reachable s) (hv : v ≤ s.numIssued)
    (hdone : ∀ u ≤ v, (s.ctxs u).st = .done) :
    ∃ heap root t, replay c.hash c.heap₀ c.t₀ 0 (c.ops.take v) = some (heap, root) ∧
      Shows layout heap root t ∧ Shows layout s.heap (s.ctxs v).root t ∧
      ∀ s', (system c).Steps s s' →
        (s'.ctxs v).root = (s.ctxs v).root ∧ Shows layout s'.heap (s'.ctxs v).root t := by
  have h₀ := verBound_of_forall hver
  obtain ⟨steps, h⟩ := inv_reachable hshow h₀ hs
  obtain ⟨heap, root, hrun, ht⟩ := replay_spec c t₀ v 0 hshow
  rw [List.drop_zero] at hrun
  rw [Nat.zero_add] at ht
  refine ⟨heap, root, _, hrun, ht, (h.shows_version h₀ hv hdone).shows, ?_⟩
  intro s' hs'
  obtain ⟨⟨steps', h'⟩, hlater⟩ := inv_later h₀ h hs'
  have hdone' : ∀ u ≤ v, Finished s'.ctxs u := fun u hu => hlater.finished u (hdone u hu)
  exact ⟨hlater.root v hv, (h'.shows_version h₀ (hv.trans hlater.issued) hdone').shows⟩

/-- One pipe and one worker; a node of key `5` that the first insertion passes. -/
def passing : Config where
  numPipes := 1
  numWorkers := 1
  blockSize := 1
  numTasks := 2
  hash := id
  ops := [.insertElem 3, .insertElem 4]
  heap₀ := ⟨#[⟨0, 5, 5, 1, 0, none, none⟩]⟩
  t₀ := some 0

theorem refines_sequential_passing :
    ∃ s heap root t, (system passing).Reachable s ∧ s.numIssued = 2 ∧
      (s.ctxs 2).st = .running ∧ replay id passing.heap₀ (some 0) 0 [.insertElem 3] = some (heap, root) ∧
      Shows layout heap root t ∧ Shows layout s.heap (s.ctxs 1).root t := by
  obtain ⟨s, hrun⟩ : ∃ s, (system passing).run
      [.master, .master, .pipe 1, .pipe 1, .master] (init passing) = some s := ⟨_, rfl⟩
  have hstate : s.numIssued = 2 ∧ (s.ctxs 2).st = .running ∧ ∀ u ≤ 1, (s.ctxs u).st = .done := by
    cases hrun
    decide
  obtain ⟨hissued, hlast, hdone⟩ := hstate
  have hreach : (system passing).Reachable s := Transition.System.reach_of_run hrun
  have hshow : Shows layout passing.heap₀ passing.t₀ (node ⟨0, 5, 5, 1⟩ nil nil) :=
    .node (L := layout) (Set.mem_univ 0) (x := ⟨0, 5, 5, 1, 0, none, none⟩) rfl .nil .nil
  obtain ⟨heap, root, t, hreplay, ht, ht', -⟩ := refines_sequential (v := 1) hshow
    (by simp) hreach (by omega) hdone
  exact ⟨s, heap, root, t, hreach, hissued, hlast, hreplay, ht, ht'⟩

end Scheduler
