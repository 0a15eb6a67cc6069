/-
What a wait for a commit is good for.

A thread that is going to read a whole subtree waits until the version of its root is
committed, and does not look at the versions below.  It need not: versions do not grow on
the way down, in the tree of any version that updates with increasing versions lead to
(`rootsAfter_spec`), and so neither in the trees of the scheduler.

`Awaits` lists the places where this is relied on.  One of them is not about the tree a
task has come to: a task that joins waited for the node it takes out and goes on with the
two subtrees, of which the version it waited for is known to bound them only because it
did when the task began (`JoinsCovered`).
-/
import Contreap.Proofs.Scheduler.Refinement

namespace Scheduler

open BinaryTree PtrHeap Treap Transition

variable {c : Config} {t₀ : BinaryTree Datum} {s s' : State} {h h' : Store}
  {ctxs ctxs' : Nat → Context} {steps steps' : Nat → Nat} {n m u v : Nat} {p q : Ptr}
  {a b : Addr} {x y : Node} {t : BinaryTree Datum} {ctx ctx' : Context}

/-! ### Subtrees of committed versions

The version of a node bounds those below it, so one comparison settles a whole subtree.
-/

/-- A whole tree is there, and every node of it is of a committed version. -/
def Covered (h : Store) (numCommitted : Nat) (p : Ptr) : Prop :=
  ∃ t, Shows layout h p t ∧ ∀ e ∈ t.inorder, e.ver ≤ numCommitted

theorem Covered.congr (hp : Covered h m p)
    (hsame : ∀ a x, h.get? a = some x → x.ver ≤ m →
      ∃ v, h'.get? a = some { x with aug := v }) : Covered h' m p := by
  obtain ⟨t, ht, hver⟩ := hp
  refine ⟨t, ht.congr fun a x _ hx hmem => ?_, hver⟩
  obtain ⟨v, hv⟩ := hsame a x hx (hver _ hmem)
  exact ⟨_, hv, rfl, rfl, rfl⟩

theorem Covered.mono (hp : Covered h m p) {m' : Nat} (hm : m ≤ m') : Covered h m' p :=
  let ⟨t, ht, hver⟩ := hp
  ⟨t, ht, fun e he => (hver e he).trans hm⟩

theorem Covered.children (hp : Covered h m (some b)) (hy : h.get? b = some y) :
    Covered h m y.lch ∧ Covered h m y.rch := by
  obtain ⟨t, ht, hver⟩ := hp
  obtain ⟨z, l, r, -, hz, rfl, hl, hr⟩ := ht.of_some
  obtain rfl := Option.some.inj (hy.symm.trans hz)
  obtain ⟨-, hverl, hverr⟩ := forall_mem_inorder_node.mp hver
  exact ⟨⟨l, hl, hverl⟩, ⟨r, hr, hverr⟩⟩

/-- **The version of its root covers a subtree**, once it is committed. -/
theorem Plan.covered (hp : Plan h ctxs steps n (some b) t) (hbound : VerBound v t)
    (hy : h.get? b = some y) (hle : y.ver ≤ m) (hfin : ∀ w ≤ m, Finished ctxs w) :
    Settled h ctxs (some b) t ∧ ∀ e ∈ t.inorder, e.ver ≤ m := by
  obtain ⟨z, l, r, hz, rfl⟩ := hp.of_some
  obtain rfl := Option.some.inj (hy.symm.trans hz)
  have hroot : VerBound y.ver (node y.datum l r) := ⟨Nat.le_refl _, hbound.2⟩
  exact ⟨hp.settle hroot fun w hw => hfin w (hw.trans hle), fun e he => (hroot.ver_le e he).trans hle⟩

/-- Where a node is linked, its children stand for what they should. -/
theorem Plan.child {d : Datum} {l r : BinaryTree Datum} (left : Bool)
    (hp : Plan h ctxs steps n (some b) (node d l r)) (hy : h.get? b = some y)
    (hchild : childPtr left y = some a) :
    ∃ k, Plan h ctxs steps k (childPtr left y) (if left then l else r) := by
  have hnot : ∀ {w : Nat} {z : Node}, OpenAt h ctxs w b z → False := by
    intro w z hw
    obtain rfl := Option.some.inj (hy.symm.trans hw.cell)
    cases left
    · exact nomatch hw.rch.symm.trans hchild
    · exact nomatch hw.lch.symm.trans hchild
  generalize ht : node d l r = t at hp
  generalize hq : some b = q at hp
  cases hp with
  | settled hs =>
      subst ht hq
      obtain ⟨-, hl, hr⟩ := hs.left hy
      exact ⟨0, (plan_sides left (.settled hl) (.settled hr)).1⟩
  | linked hz _ hl hr =>
      cases ht
      cases hq
      obtain rfl := Option.some.inj (hy.symm.trans hz)
      exact ⟨_, (plan_sides left hl hr).1⟩
  | search hw => cases hq; exact (hnot hw).elim
  | setref hw => cases hq; exact (hnot hw).elim
  | concat hw => cases hq; exact (hnot hw).elim

/-! ### What a task that joins goes on with

A join goes on with two subtrees, neither of which is the node that was waited for.
What is known of them has to be kept from step to step.
-/

/-- The node taken out and the subtrees left to join are covered. -/
def JoinsCovered (h : Store) (numCommitted : Nat) (ctx : Context) : Prop :=
  ctx.st ≠ .done → ctx.fn = .concat →
    Covered h numCommitted ctx.tPast ∧ Covered h numCommitted ctx.tL ∧ Covered h numCommitted ctx.tR

/-- A step that leaves a task joining has come to the node of its key, and goes on with
the subtrees there, or it was joining before and has gone down in one of them. -/
theorem executeOneStep_joins {r : Store × Context} (hrun : executeOneStep h m ctx = some r)
    (hst : r.2.st ≠ .done) (hfn : r.2.fn = .concat) :
    (ctx.fn = .concat ∧ r.2.tPast = ctx.tPast ∧ ∃ left b y,
      (if left then ctx.tR else ctx.tL) = some b ∧ h.get? b = some y ∧
      r.2.tL = (joinBelow left ctx (childPtr left y)).tL ∧
      r.2.tR = (joinBelow left ctx (childPtr left y)).tR) ∨
    (ctx.fn = .search ∧ ∃ left a b y b' y', left = decide (ctx.dir = .left) ∧ ctx.tCur = some a ∧
      ctx.tPast = some b ∧ h.get? b = some y ∧ childPtr left y = some b' ∧
      (setChild (!left) h a (childPtr (!left) y)).get? b' = some y' ∧ y'.ver ≤ m ∧
      r.2.tPast = some b' ∧ r.2.tL = y'.lch ∧ r.2.tR = y'.rch) := by
  cases hcur : ctx.tCur with
  | none =>
      simp only [executeOneStep, hcur] at hrun
      cases hrun
  | some a =>
  obtain ⟨left, hdir⟩ : ∃ left, left = decide (ctx.dir = .left) := ⟨_, rfl⟩
  have hwhole := hrun
  simp only [executeOneStep, hcur, Option.bind_eq_bind, Option.bind_some] at hrun
  cases hctx : ctx.fn with
  | search =>
      simp only [hctx] at hrun
      obtain ⟨b, hb, hrun⟩ := Option.bind_eq_some_iff.mp hrun
      obtain ⟨y, hy, -⟩ := Option.bind_eq_some_iff.mp hrun
      rw [executeOneStep_search m left hctx hdir hcur hb hy] at hwhole
      obtain ⟨⟨s', ctx', q⟩, hz, heq⟩ := Option.bind_eq_some_iff.mp hwhole
      cases heq
      have hsearch : ({ ctx with tPast := childPtr left y } : Context).fn = .search := hctx
      obtain ⟨b', y', hb', hy', hle, hpast, hL, hR⟩ := update_joins hsearch hz hfn
      exact Or.inr ⟨rfl, left, a, b, y, b', y', hdir, rfl, hb, hy, hb', hy', hle, hpast.trans hb', hL, hR⟩
  | setref =>
      simp only [hctx] at hrun
      obtain ⟨b, hb, hrun⟩ := Option.bind_eq_some_iff.mp hrun
      obtain ⟨y, hy, hrun⟩ := Option.bind_eq_some_iff.mp hrun
      cases hrun
      exact absurd rfl hst
  | concat =>
      have htop : ∃ b y, (if left then ctx.tR else ctx.tL) = some b ∧ h.get? b = some y := by
        simp only [hctx] at hrun
        split at hrun
        · rename_i hd
          obtain ⟨b, hb, hrun⟩ := Option.bind_eq_some_iff.mp hrun
          obtain ⟨y, hy, -⟩ := Option.bind_eq_some_iff.mp hrun
          exact ⟨b, y, by simp [hdir, hd, hb], hy⟩
        · rename_i hd
          obtain ⟨b, hb, hrun⟩ := Option.bind_eq_some_iff.mp hrun
          obtain ⟨y, hy, -⟩ := Option.bind_eq_some_iff.mp hrun
          exact ⟨b, y, by simp [hdir, hd, hb], hy⟩
      obtain ⟨b, y, hb, hy⟩ := htop
      rw [executeOneStep_concat left hctx hdir hcur hb hy] at hwhole
      obtain ⟨⟨s', ctx', q⟩, hz, heq⟩ := Option.bind_eq_some_iff.mp hwhole
      cases heq
      obtain ⟨hpast, hL, hR⟩ := concat_kept hz
      obtain ⟨-, -, -, -, -, htask⟩ := joinBelow_task left ctx (childPtr left y)
      exact Or.inl ⟨rfl, hpast.trans htask, left, b, y, hb, hy, hL, hR⟩

/-- A task that has been run to its end is done. -/
theorem executeToComplete_st {r : Store × Context} (hrun : executeToComplete h ctx = some r) :
    r.2.st = .done := by
  cases hcur : ctx.tCur with
  | none =>
      simp only [executeToComplete, hcur] at hrun
      cases hrun
  | some a =>
      simp only [executeToComplete, hcur, Option.bind_eq_bind, Option.bind_some] at hrun
      cases hctx : ctx.fn with
      | search =>
          simp only [hctx] at hrun
          obtain ⟨b, -, hrun⟩ := Option.bind_eq_some_iff.mp hrun
          obtain ⟨y, -, hrun⟩ := Option.bind_eq_some_iff.mp hrun
          split at hrun
          · obtain ⟨z, -, hrun⟩ := Option.bind_eq_some_iff.mp hrun
            cases hrun
            rfl
          · obtain ⟨z, -, hrun⟩ := Option.bind_eq_some_iff.mp hrun
            cases hrun
            rfl
      | setref =>
          simp only [hctx] at hrun
          obtain ⟨b, -, hrun⟩ := Option.bind_eq_some_iff.mp hrun
          obtain ⟨y, -, hrun⟩ := Option.bind_eq_some_iff.mp hrun
          cases hrun
          rfl
      | concat =>
          simp only [hctx] at hrun
          split at hrun
          · obtain ⟨b, -, hrun⟩ := Option.bind_eq_some_iff.mp hrun
            obtain ⟨y, -, hrun⟩ := Option.bind_eq_some_iff.mp hrun
            obtain ⟨z, -, hrun⟩ := Option.bind_eq_some_iff.mp hrun
            cases hrun
            rfl
          · obtain ⟨b, -, hrun⟩ := Option.bind_eq_some_iff.mp hrun
            obtain ⟨y, -, hrun⟩ := Option.bind_eq_some_iff.mp hrun
            obtain ⟨z, -, hrun⟩ := Option.bind_eq_some_iff.mp hrun
            cases hrun
            rfl

/-! ### One step of a thread

What `Change` says of a step is too little here: how a context has changed matters.  So
the steps are sorted again, by the function that made the new context.
-/

/-- What a step does to the contexts. -/
inductive Contexts (s s' : State) : Prop
  | same (hctxs : s'.ctxs = s.ctxs)
  | staged {u n : Nat}
      (hctxs : s'.ctxs = Function.update s.ctxs u { s.ctxs u with stage := .reached n })
  | oneStep {u : Nat} {x : Store × Context} (hrun : ¬ Finished s.ctxs u)
      (hone : executeOneStep s.heap s.numCommitted (s.ctxs u) = some x)
      (hctxs : s'.ctxs = Function.update s.ctxs u x.2)
  | closed {u : Nat} {ctx : Context} (hst : ctx.st = .done)
      (hctxs : s'.ctxs = Function.update s.ctxs u ctx)
  | issued {ctx : Context} {x : Store × Context × Ptr} (hfn : ctx.fn = .search)
      (hpast : ctx.tPast = (s.ctxs s.numIssued).root)
      (hupdate : update s.heap s.numCommitted ctx = some x)
      (hctxs : s'.ctxs = Function.update s.ctxs (s.numIssued + 1)
        { x.2.1 with root := x.2.2, tCur := x.2.2 })

/-- Besides, versions only come to be committed. -/
structure Works (s s' : State) : Prop where
  contexts : Contexts s s'
  committed : s.numCommitted ≤ s'.numCommitted

/-- The master issues a task by `update_`, or issues one that is done. -/
theorem masterStep_works (hstep : masterStep c s = some s') : Works s s' := by
  unfold masterStep at hstep
  cases hm : s.master with
  | idle =>
      simp only [hm] at hstep
      obtain ⟨op, -, hinit⟩ := Option.bind_eq_some_iff.mp hstep
      have hstart : ∀ ctx : Context, ctx.fn = .search → ctx.tPast = (s.ctxs s.numIssued).root →
          initContext.start s ctx = some s' → Works s s' := by
        intro ctx hfn hpast hrun
        unfold initContext.start at hrun
        obtain ⟨x, hx, heq⟩ := Option.bind_eq_some_iff.mp hrun
        cases heq
        exact ⟨.issued hfn hpast hx rfl, Nat.le_refl _⟩
      cases op with
      | insertElem elem => exact hstart _ rfl rfl hinit
      | deleteElem elem => exact hstart _ rfl rfl hinit
      | nop =>
          cases hinit
          exact ⟨.closed rfl rfl, Nat.le_refl _⟩
  | push =>
      simp only [hm] at hstep
      cases hstep
      exact ⟨.same rfl, Nat.le_refl _⟩
  | notify =>
      simp only [hm] at hstep
      cases hstep
      refine ⟨.same (notify_same s 0).2.1, ?_⟩
      rw [notify_eq]
      exact Nat.le_refl _

/-- A pipe takes one step of a task that is not done. -/
theorem pipeStep_works {id : Nat} (hstep : pipeStep c s id = some s') : Works s s' := by
  unfold pipeStep at hstep
  dsimp only at hstep
  split at hstep
  swap
  · cases hstep
  cases hat : (s.pipes id).at_ with
  | claim =>
      simp only [hat] at hstep
      cases hstep
      exact ⟨.same rfl, Nat.le_refl _⟩
  | wait =>
      simp only [hat] at hstep
      cases hstep
      exact ⟨.same rfl, Nat.le_refl _⟩
  | asleep =>
      simp only [hat] at hstep
      cases hstep
  | exec =>
      simp only [hat] at hstep
      split at hstep
      · cases hstep
        exact ⟨.same rfl, Nat.le_refl _⟩
      · rename_i hrun
        obtain ⟨x, hx, heq⟩ := Option.bind_eq_some_iff.mp hstep
        cases heq
        exact ⟨.oneStep hrun hx rfl, Nat.le_refl _⟩
  | push =>
      simp only [hat] at hstep
      cases hstep
      exact ⟨.same rfl, Nat.le_refl _⟩
  | notify =>
      simp only [hat] at hstep
      cases hstep
      refine ⟨.same (notify_same s id).2.1, ?_⟩
      rw [notify_eq]
      exact Nat.le_refl _

/-- A worker stores a stage, takes one step, or brings its task to the end. -/
theorem workerStep_works {T : Nat → BinaryTree Datum} {id : Nat} (h : Inv c T s steps)
    (hstep : workerStep c s id = some s') : Works s s' := by
  have hknows := h.crew.knows id
  unfold workerStep at hstep
  cases hat : (s.workers id).at_ with
  | fetch =>
      simp only [hat] at hstep
      cases hstep
      exact ⟨.same rfl, Nat.le_refl _⟩
  | waitSubmit =>
      simp only [hat] at hstep
      split at hstep
      · cases hstep
        exact ⟨.same rfl, Nat.le_refl _⟩
      · split at hstep
        · cases hstep
          exact ⟨.same rfl, Nat.le_refl _⟩
        · cases hstep
  | head n =>
      simp only [hat] at hstep
      split at hstep
      · cases hstep
        exact ⟨.same rfl, Nat.le_refl _⟩
      · cases hstep
        exact ⟨.staged rfl, Nat.le_refl _⟩
  | decide n =>
      simp only [hat, Option.bind_eq_bind] at hstep
      obtain ⟨v, -, hstep⟩ := Option.bind_eq_some_iff.mp hstep
      split at hstep
      · obtain ⟨x, hx, heq⟩ := Option.bind_eq_some_iff.mp hstep
        cases heq
        exact ⟨.closed (executeToComplete_st hx) rfl, Nat.le_refl _⟩
      · cases hstep
        exact ⟨.same rfl, Nat.le_refl _⟩
  | oneStep n =>
      rw [hat] at hknows
      obtain ⟨-, -, -, -, hrun, -⟩ := hknows
      simp only [hat, Option.bind_eq_bind] at hstep
      obtain ⟨v, -, hstep⟩ := Option.bind_eq_some_iff.mp hstep
      split at hstep
      · cases hstep
      · obtain ⟨x, hx, heq⟩ := Option.bind_eq_some_iff.mp hstep
        cases heq
        exact ⟨.oneStep hrun hx rfl, Nat.le_refl _⟩
  | settle =>
      simp only [hat] at hstep
      split at hstep
      · cases hstep
        exact ⟨.same rfl, Nat.le_refl _⟩
      · cases hstep
        exact ⟨.same rfl, Nat.le_refl _⟩
  | estimate task =>
      simp only [hat] at hstep
      obtain ⟨x, -, heq⟩ := Option.bind_eq_some_iff.mp hstep
      cases heq
      exact ⟨.same rfl, Nat.le_refl _⟩
  | store =>
      simp only [hat] at hstep
      cases hstep
      exact ⟨.same rfl, Nat.le_refl _⟩
  | stopped =>
      simp only [hat] at hstep
      cases hstep

/-- The collector is the one that commits. -/
theorem step_works {T : Nat → BinaryTree Datum} {act : Action} (h : Inv c T s steps)
    (hstep : step c s act = some s') : Works s s' := by
  unfold step at hstep
  cases act with
  | master => exact masterStep_works hstep
  | pipe id =>
      simp only at hstep
      split at hstep
      · exact pipeStep_works hstep
      · cases hstep
  | unblock id =>
      simp only at hstep
      split at hstep
      · cases hstep
        exact ⟨.same rfl, Nat.le_refl _⟩
      · cases hstep
  | boarder =>
      simp only [boarderStep] at hstep
      split at hstep
      · cases hstep
        exact ⟨.same rfl, Nat.le_refl _⟩
      · split at hstep
        · cases hstep
          exact ⟨.same rfl, Nat.le_refl _⟩
        · cases hstep
  | worker id =>
      simp only at hstep
      split at hstep
      · exact workerStep_works h hstep
      · cases hstep
  | collector =>
      simp only [collectorStep] at hstep
      split at hstep
      · cases hstep
        exact ⟨.same rfl, Nat.le_refl _⟩
      · split at hstep
        · cases hstep
          exact ⟨.same rfl, h.collected.le⟩
        · cases hstep

/-! ### The subtrees read behind a wait -/

/-- The child a search comes to, in the heap in which its node is half linked. -/
theorem Trees.below_covered {T : Nat → BinaryTree Datum} {k : Nat} (ht : Trees T h ctxs steps k m)
    (hu : u ≤ k) (hrun : ¬ Finished ctxs u) (hfn : (ctxs u).fn = .search) (left : Bool)
    (hcur : (ctxs u).tCur = some a) (hpast : (ctxs u).tPast = some b) (hy : h.get? b = some y)
    {b' : Addr} {y' : Node} (hchild : childPtr left y = some b')
    (hy' : (setChild (!left) h a (childPtr (!left) y)).get? b' = some y') (hle : y'.ver ≤ m) :
    h.get? b' = some y' ∧ ∃ t, Settled h ctxs (some b') t ∧
      Rep layout (setChild (!left) h a (childPtr (!left) y)) (Off a) (some b') t ∧
      ∀ e ∈ t.inorder, e.ver ≤ m := by
  obtain ⟨a', x, t, hopen, hplan⟩ := ht.placed u hu hrun
  obtain rfl : a' = a := Option.some.inj (hopen.cur.symm.trans hcur)
  have hoff : ∀ z, z ≠ a' → (setChild (!left) h a' (childPtr (!left) y)).get? z = h.get? z :=
    fun z hz => get?_setChild_of_ne _ hz _
  -- The node of the task itself is not committed.
  have hne : b' ≠ a' := by
    rintro rfl
    rw [get?_setChild (!left) hopen.cell] at hy'
    have hver : y'.ver = u := by
      rw [← Option.some.inj hy', ← hopen.ver]
      cases left <;> rfl
    exact hrun (ht.committed u (hver ▸ hle))
  have hcell : h.get? b' = some y' := (hoff b' hne).symm.trans hy'
  rcases hopen.task hplan with ⟨d, l, r, v, -, hread, hbound, -⟩ | ⟨d, l, r, v, hdo, -⟩ |
    ⟨dL, lL, rL, dR, lR, rR, hdo, -⟩
  · rw [hpast] at hread
    obtain ⟨k', hbelow⟩ := hread.child left hy hchild
    rw [hchild] at hbelow
    obtain ⟨hs, hver⟩ := hbelow.covered (verBound_sides left hbound) hcell hle ht.committed
    exact ⟨hcell, _, hs, rep_of_off (hopen.off hs) hoff, hver⟩
  · exact nomatch hfn.symm.trans hdo.fn
  · exact nomatch hfn.symm.trans hdo.fn

/-- The tree a task reads whole from the node it has come to. -/
theorem Trees.past_covered {T : Nat → BinaryTree Datum} {k : Nat} (ht : Trees T h ctxs steps k m)
    (hu : u ≤ k) (hrun : ¬ Finished ctxs u) (hfn : (ctxs u).fn ≠ .concat)
    (hpast : (ctxs u).tPast = some b) (hy : h.get? b = some y) (hle : y.ver ≤ m) :
    Covered h m (some b) := by
  obtain ⟨a, x, t, hopen, hplan⟩ := ht.placed u hu hrun
  have hread : ∀ {d : Datum} {l r : BinaryTree Datum} {v : Nat},
      Plan h ctxs steps (steps u) (ctxs u).tPast (node d l r) → VerBound v (node d l r) →
      Covered h m (some b) := by
    intro d l r v hp hbound
    rw [hpast] at hp
    obtain ⟨hs, hver⟩ := hp.covered hbound hy hle ht.committed
    exact ⟨_, hs.shows, hver⟩
  rcases hopen.task hplan with ⟨d, l, r, v, -, hp, hbound, -⟩ | ⟨d, l, r, v, -, hp, hbound, -⟩ |
    ⟨dL, lL, rL, dR, lR, rR, hdo, -⟩
  · exact hread hp hbound
  · exact hread hp hbound
  · exact absurd hdo.fn hfn

/-- The root of the last version, from which the next task starts. -/
theorem Inv.root_covered (hinv : Inv c (versionTree c t₀) s steps) (h₀ : VerBound 0 t₀)
    (hroot : (s.ctxs s.numIssued).root = some b) (hy : s.heap.get? b = some y)
    (hle : y.ver ≤ s.numCommitted) : Covered s.heap s.numCommitted (some b) := by
  have hp := hinv.trees.roots s.numIssued (Nat.le_refl _)
  rw [hroot] at hp
  obtain ⟨hs, hver⟩ := hp.covered (verBound_versionTree h₀) hy hle hinv.trees.committed
  exact ⟨_, hs.shows, hver⟩

/-! ### The invariant -/

/-- Committed nodes do not change, but for their aggregates. -/
theorem Change.covered {T : Nat → BinaryTree Datum} {act : Action} (hinv : Inv c T s steps)
    (hchange : Change act s steps s' steps') (hle : s.numCommitted ≤ s'.numCommitted)
    (hp : Covered s.heap s.numCommitted p) : Covered s'.heap s'.numCommitted p := by
  refine (hp.congr fun a x hx hver => ?_).mono hle
  cases hchange with
  | same hheap => exact ⟨x.aug, by rw [hheap, hx]⟩
  | moved hu heff hheap =>
      have hfin := hinv.trees.committed x.ver hver
      exact ⟨x.aug, by rw [hheap, heff.moves.cell_of_finished hx hfin]⟩
  | staged hheap => exact ⟨x.aug, by rw [hheap, hx]⟩
  | issued hgrow => exact ⟨x.aug, hgrow.preserves.get? hx⟩
  | @augmented _ task v _ _ hrun =>
      obtain ⟨z, hz, hsame⟩ := hinv.augment_root task
      obtain rfl := Option.some.inj (hz.symm.trans hrun)
      exact hsame.same a x hx

/-- What is left to join is covered after one step. -/
theorem Inv.oneStep_joinsCovered {T : Nat → BinaryTree Datum} (hinv : Inv c T s steps)
    (hrun : ¬ Finished s.ctxs u) {x : Store × Context}
    (hone : executeOneStep s.heap s.numCommitted (s.ctxs u) = some x)
    (hcov : JoinsCovered s.heap s.numCommitted (s.ctxs u)) :
    JoinsCovered s.heap s.numCommitted x.2 := by
  have hu : u ≤ s.numIssued := by
    by_contra hnew
    rw [(hinv.trees.unissued u (Nat.not_le.mp hnew)).1] at hone
    cases hone
  intro hst hfn
  rcases executeOneStep_joins hone hst hfn with
    ⟨hctx, hpast, left, b, y, hb, hy, hL, hR⟩ |
    ⟨hctx, left, a, b, y, b', y', -, hcur, hb, hy, hchild, hy', hle, hpast, hL, hR⟩
  · obtain ⟨hcovP, hcovL, hcovR⟩ := hcov hrun hctx
    rw [hpast, hL, hR]
    cases left
    · have hb' : (s.ctxs u).tL = some b := hb
      exact ⟨hcovP, ((hb' ▸ hcovL).children hy).2, hcovR⟩
    · have hb' : (s.ctxs u).tR = some b := hb
      exact ⟨hcovP, hcovL, ((hb' ▸ hcovR).children hy).1⟩
  · obtain ⟨hcell, t, hs, -, hver⟩ :=
      hinv.trees.below_covered hu hrun hctx left hcur hb hy hchild hy' hle
    have hcovP : Covered s.heap s.numCommitted (some b') := ⟨t, hs.shows, hver⟩
    obtain ⟨hcovL, hcovR⟩ := hcovP.children hcell
    rw [hpast, hL, hR]
    exact ⟨hcovP, hcovL, hcovR⟩

/-- A task that has just begun to join has waited in this step; any other was covered
before. -/
theorem joinsCovered_step {act : Action} (hinv : Inv c (versionTree c t₀) s steps)
    (h₀ : VerBound 0 t₀) (hstep : step c s act = some s')
    (hcov : ∀ u, JoinsCovered s.heap s.numCommitted (s.ctxs u)) :
    ∀ u, JoinsCovered s'.heap s'.numCommitted (s'.ctxs u) := by
  obtain ⟨steps', -, hchange⟩ := inv_step hinv h₀ hstep
  obtain ⟨hcontexts, hcommitted⟩ := step_works hinv hstep
  have hkeep : ∀ {ctx : Context}, JoinsCovered s.heap s.numCommitted ctx →
      JoinsCovered s'.heap s'.numCommitted ctx := by
    intro ctx hctx hst hfn
    obtain ⟨hP, hL, hR⟩ := hctx hst hfn
    exact ⟨hchange.covered hinv hcommitted hP, hchange.covered hinv hcommitted hL,
      hchange.covered hinv hcommitted hR⟩
  have hone : ∀ {w : Nat} {ctx : Context}, s'.ctxs = Function.update s.ctxs w ctx →
      JoinsCovered s.heap s.numCommitted ctx →
      ∀ u, JoinsCovered s'.heap s'.numCommitted (s'.ctxs u) := by
    intro w ctx hctxs hctx u
    rw [hctxs]
    by_cases huw : u = w
    · rw [huw, Function.update_self]
      exact hkeep hctx
    · rw [Function.update_of_ne huw]
      exact hkeep (hcov u)
  cases hcontexts with
  | same hctxs =>
      intro u
      rw [hctxs]
      exact hkeep (hcov u)
  | staged hctxs => exact hone hctxs (hcov _)
  | oneStep hrun hx hctxs => exact hone hctxs (hinv.oneStep_joinsCovered hrun hx (hcov _))
  | closed hst hctxs => exact hone hctxs fun hrun => absurd hst hrun
  | @issued ctx x hfn hpast hx hctxs =>
      obtain ⟨heap, ctx', q⟩ := x
      refine hone hctxs ?_
      intro _ hfn'
      obtain ⟨b, y, hb, hy, hle, hsame, hL, hR⟩ := update_joins hfn hx hfn'
      have hcovP := hinv.root_covered h₀ (hpast ▸ hb) hy hle
      obtain ⟨hcovL, hcovR⟩ := hcovP.children hy
      rw [← hb, ← hsame] at hcovP
      rw [← hL] at hcovL
      rw [← hR] at hcovR
      exact ⟨hcovP, hcovL, hcovR⟩

theorem joinsCovered_reachable (hshow : Shows layout c.heap₀ c.t₀ t₀) (h₀ : VerBound 0 t₀)
    (hs : (system c).Reachable s) : ∀ u, JoinsCovered s.heap s.numCommitted (s.ctxs u) := by
  have hinit : ∀ u, JoinsCovered (init c).heap (init c).numCommitted ((init c).ctxs u) := by
    intro u hst hfn
    by_cases hu : u = 0
    · exact absurd hfn (by simp [init, hu, Context.done])
    · exact absurd hfn (by simp [init, hu])
  refine hs.invariant_of (I := fun s => ∀ u, JoinsCovered s.heap s.numCommitted (s.ctxs u)) ?_
    (fun t ht => inv_reachable hshow h₀ ht) hinit
  rintro s act s' ⟨steps, hinv⟩ hcov - hstep
  exact joinsCovered_step hinv h₀ hstep hcov

/-! ### Waiting for a commit

The places are read off the source: `update_`, called for a new task or one level down,
and the test in `work_update_`.
-/

/-- `Awaits s h p q`: a thread waits until the version of the node at `p` is committed and
then reads the whole subtree at `q`, from the heap `h` the state has at that point. -/
inductive Awaits (s : State) : Store → Ptr → Ptr → Prop
  /-- In `update_`, called for the next task. -/
  | start : Awaits s s.heap (s.ctxs s.numIssued).root (s.ctxs s.numIssued).root
  /-- In `update_`, called by `execute_one_step_` for a child of `t_past`. -/
  | below {u : Nat} {a b : Addr} {y : Node} (hu : u ≤ s.numIssued) (hrun : (s.ctxs u).st ≠ .done)
      (hfn : (s.ctxs u).fn = .search) (hcur : (s.ctxs u).tCur = some a)
      (hpast : (s.ctxs u).tPast = some b) (hy : s.heap.get? b = some y) (left : Bool)
      (hdir : left = decide ((s.ctxs u).dir = .left)) :
      Awaits s (setChild (!left) s.heap a (childPtr (!left) y)) (childPtr left y) (childPtr left y)
  /-- In `work_update_`, before `execute_to_complete_`. -/
  | rest {u : Nat} (hu : u ≤ s.numIssued) (hrun : (s.ctxs u).st ≠ .done) :
      Awaits s s.heap (s.ctxs u).tPast (s.ctxs u).tPast
  /-- There too, for a task that joins, which goes on with `t_l` and `t_r`. -/
  | joinL {u : Nat} (hu : u ≤ s.numIssued) (hrun : (s.ctxs u).st ≠ .done)
      (hfn : (s.ctxs u).fn = .concat) : Awaits s s.heap (s.ctxs u).tPast (s.ctxs u).tL
  | joinR {u : Nat} (hu : u ≤ s.numIssued) (hrun : (s.ctxs u).st ≠ .done)
      (hfn : (s.ctxs u).fn = .concat) : Awaits s s.heap (s.ctxs u).tPast (s.ctxs u).tR

/-- Each of the waits, by what the invariant says of the task that waits. -/
theorem awaits_covered (hshow : Shows layout c.heap₀ c.t₀ t₀) (h₀ : VerBound 0 t₀)
    (hs : (system c).Reachable s) (hwait : Awaits s h (some b) q) (hy : h.get? b = some y)
    (hle : y.ver ≤ s.numCommitted) : Covered h s.numCommitted q := by
  obtain ⟨steps, hinv⟩ := inv_reachable hshow h₀ hs
  have hjoins := joinsCovered_reachable hshow h₀ hs
  generalize hp : some b = p at hwait
  cases hwait with
  | start =>
      rw [← hp]
      exact hinv.root_covered h₀ hp.symm hy hle
  | below hu hrun hfn hcur hpast hz left _ =>
      obtain ⟨-, t, -, hrep, hver⟩ :=
        hinv.trees.below_covered hu hrun hfn left hcur hpast hz hp.symm hy hle
      rw [← hp]
      exact ⟨t, hrep.shows, hver⟩
  | @rest u hu hrun =>
      by_cases hfn : (s.ctxs u).fn = .concat
      · exact (hjoins u hrun hfn).1
      · rw [← hp]
        exact hinv.trees.past_covered hu hrun hfn hp.symm hy hle
  | @joinL u _ hrun hfn => exact (hjoins u hrun hfn).2.1
  | @joinR u _ hrun hfn => exact (hjoins u hrun hfn).2.2

/--
**A commit wait covers a whole subtree.**  Updates with increasing versions on a treap of
version `0` lead to trees in which no node is of a later version than the tree and none of
a later one than its parent.  So in every reachable state of the scheduler, once the
version of the node a thread waits for is committed, the whole tree it goes on to read is
there and all its nodes are of committed versions.
-/
theorem commits_cover :
    (∀ (s : Store) (p : Ptr) (t₀ : BinaryTree Datum) (cs : List Call), Shows layout s p t₀ →
      (∀ e ∈ t₀.inorder, e.ver = 0) → (cs.map Call.ver).Pairwise (· < ·) →
      ∃ s' qs, rootsAfter s p cs = some (s', qs) ∧
        List.Forall₂ (fun c q => ∃ t, Shows layout s' q t ∧ (∀ e ∈ t.inorder, e.ver ≤ c.ver) ∧
          VerBound c.ver t) cs qs) ∧
    ∀ (c : Config) (t₀ : BinaryTree Datum) (s : State), Shows layout c.heap₀ c.t₀ t₀ →
      (∀ e ∈ t₀.inorder, e.ver = 0) → (system c).Reachable s →
      ∀ (h : Store) (b : Addr) (y : Node) (q : Ptr), Awaits s h (some b) q → h.get? b = some y →
        y.ver ≤ s.numCommitted →
        ∃ t, Shows layout h q t ∧
          ∀ e ∈ t.inorder, e.ver ≤ s.numCommitted ∧ (s.ctxs e.ver).st = .done := by
  constructor
  · intro s p t₀ cs hp hver hinc
    obtain ⟨s', qs, hrun, -, hall⟩ :=
      rootsAfter_spec hp (verBound_of_forall hver) (fun c _ => Nat.zero_le c.ver) hinc
    refine ⟨s', qs, hrun, hall.imp ?_⟩
    rintro c q ⟨t, ht, hbound⟩
    exact ⟨t, ht, hbound.ver_le, hbound⟩
  · intro c t₀ s hshow hver hs h b y q hwait hy hle
    have h₀ := verBound_of_forall hver
    obtain ⟨steps, hinv⟩ := inv_reachable hshow h₀ hs
    obtain ⟨t, ht, hcov⟩ := awaits_covered hshow h₀ hs hwait hy hle
    exact ⟨t, ht, fun e he => ⟨hcov e he, hinv.trees.committed e.ver (hcov e he)⟩⟩

/-- An insertion and a deletion with a version left out between them, and a task that has come
to the only node of the initial treap. -/
theorem commits_cover_passing :
    (∃ s' qs, rootsAfter passing.heap₀ passing.t₀ [.insert 1 3 3, .delete 4 5 5] = some (s', qs) ∧
      List.Forall₂ (fun c q => ∃ t, Shows layout s' q t ∧ (∀ e ∈ t.inorder, e.ver ≤ c.ver) ∧
        VerBound c.ver t) [Call.insert 1 3 3, .delete 4 5 5] qs) ∧
    ∃ s t, (system passing).Reachable s ∧ s.numIssued = 1 ∧ (s.ctxs 1).st = .running ∧
      Shows layout s.heap (s.ctxs 1).tPast t ∧
      ∀ e ∈ t.inorder, e.ver ≤ s.numCommitted ∧ (s.ctxs e.ver).st = .done := by
  have hshow : Shows layout passing.heap₀ passing.t₀ (node ⟨0, 5, 5, 1⟩ nil nil) :=
    .node (L := layout) (Set.mem_univ 0) (x := ⟨0, 5, 5, 1, 0, none, none⟩) rfl .nil .nil
  have hver : ∀ e ∈ (node (⟨0, 5, 5, 1⟩ : Datum) nil nil).inorder, e.ver = 0 := by simp
  refine ⟨commits_cover.1 _ _ _ _ hshow hver (by decide), ?_⟩
  obtain ⟨s, hrun⟩ : ∃ s, (system passing).run [.master] (init passing) = some s := ⟨_, rfl⟩
  have hreach : (system passing).Reachable s := System.reach_of_run hrun
  obtain ⟨y, hissued, hst, hpast, hy, hle⟩ : ∃ y, s.numIssued = 1 ∧ (s.ctxs 1).st = .running ∧
      (s.ctxs 1).tPast = some 0 ∧ s.heap.get? 0 = some y ∧ y.ver ≤ s.numCommitted := by
    cases hrun
    exact ⟨_, rfl, rfl, rfl, rfl, Nat.le_refl _⟩
  have hwait : Awaits s s.heap (s.ctxs 1).tPast (s.ctxs 1).tPast :=
    .rest (by omega) (by rw [hst]; decide)
  rw [hpast] at hwait
  obtain ⟨t, ht, hcov⟩ := commits_cover.2 passing _ s hshow hver hreach _ _ _ _ hwait hy hle
  exact ⟨s, t, hreach, hissued, hst, hpast ▸ ht, hcov⟩

end Scheduler
