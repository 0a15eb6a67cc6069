/-
What one step of a task does to the trees.

`update` and `concat` look at the tree a task has come to and either finish, with a
tree that is there, or make one node and stay at it (`Outcome`).  The rest is how such
an outcome fits into the plan: the pointer that is stored stands for what the
operation makes of the tree that was read (`Outcome.plan`), so that the node above,
once linked, stands for what it stood for before.

A task waits in `update` when the version of the node it has come to is not
committed.  Everything else it needs is there, so a step that does not wait is
defined; the statements below give the step and its effect together.
-/
import Contreap.Proofs.Scheduler.Plan

namespace Scheduler

open BinaryTree Cartesian PtrHeap Treap

variable {h h' s s' : Store} {ctxs ctxs' : Nat → Context} {steps steps' : Nat → Nat}
  {n m u v numCommitted : Nat} {p q : Ptr} {t goal l r : BinaryTree Datum} {a : Addr} {x y : Node}
  {ctx ctx' : Context} {S : Set Addr} {F : Nat → Prop}

/-! ### Outcomes

What `update_` returns is sorted by what is left to do.  The cases are those in which a
plan can be at the new node, and the two in which the task is done.
-/

/-- What a step leaves of a context as it is. -/
structure SameTask (ctx ctx' : Context) : Prop where
  op : ctx'.op = ctx.op
  ver : ctx'.ver = ctx.ver
  pry : ctx'.pry = ctx.pry
  key : ctx'.key = ctx.key
  tPast : ctx'.tPast = ctx.tPast
  root : ctx'.root = ctx.root

/-- The task has made a node and stays at it. -/
structure Opened (s s' : Store) (ctx ctx' : Context) (q : Ptr) (x : Node) : Prop where
  running : ctx'.st = ctx.st
  stage : ctx'.stage = ctx.stage
  ptr : q = some s.size
  cell : s'.get? s.size = some x
  ver : x.ver = ctx.ver
  lch : x.lch = none
  rch : x.rch = none

/-- The task is done, with a tree of its own and finished nodes. -/
structure Closed (s' : Store) (S : Set Addr) (F : Nat → Prop) (ctx ctx' : Context) (q : Ptr)
    (goal : BinaryTree Datum) : Prop where
  st : ctx'.st = .done
  stage : ctx'.stage = .done
  shows : Rep layout s' S q goal
  finished : ∀ e ∈ goal.inorder, e.ver = ctx.ver ∨ F e.ver

/-- Joining two finished trees. -/
inductive Joined (s s' : Store) (S : Set Addr) (F : Nat → Prop) (ctx ctx' : Context) (q : Ptr)
    (goal : BinaryTree Datum) : Prop
  | closed (hc : Closed s' S F ctx ctx' q goal)
  | opened {x : Node} {dL dR : Datum} {lL rL lR rR : BinaryTree Datum}
      (ho : Opened s s' ctx ctx' q x) (hdo : Joining ctx' x dL dR)
      (hL : Rep layout s' S ctx'.tL (node dL lL rL)) (hR : Rep layout s' S ctx'.tR (node dR lR rR))
      (hFL : ∀ e ∈ (node dL lL rL).inorder, F e.ver) (hFR : ∀ e ∈ (node dR lR rR).inorder, F e.ver)
      (hgoal : goal = concatTree ctx.ver (node dL lL rL) (node dR lR rR))

/-- Coming to the tree `t`. -/
inductive Outcome (s s' : Store) (S : Set Addr) (F : Nat → Prop) (ctx ctx' : Context) (q : Ptr)
    (t : BinaryTree Datum) : Prop
  | joined (hj : Joined s s' S F ctx ctx' q (ctx.target t))
  | kept (hst : ctx'.st = .done) (hstage : ctx'.stage = .done) (hq : q = ctx.tPast)
      (hgoal : ctx.target t = t)
  | search {x : Node} {d : Datum} {l r : BinaryTree Datum} (ho : Opened s s' ctx ctx' q x)
      (ht : t = node d l r) (hdo : Searching ctx' x d)
  | setref {x : Node} {d : Datum} {l r : BinaryTree Datum} (ho : Opened s s' ctx ctx' q x)
      (ht : t = node d l r) (hdo : Recounting ctx' x d)

/-- A task that joins has waited for the node it takes out. -/
def Joins (s : Store) (numCommitted : Nat) (ctx : Context) : Prop :=
  ctx.fn = .concat → ∃ b y, ctx.tPast = some b ∧ s.get? b = some y ∧ y.ver ≤ numCommitted

theorem SameTask.target (h : SameTask ctx ctx') : ctx'.target t = ctx.target t := by
  unfold Context.target
  rw [h.op, h.ver, h.pry, h.key]

theorem Joined.congr {ctx₁ : Context} (h : Joined s s' S F ctx₁ ctx' q goal)
    (hst : ctx₁.st = ctx.st) (hstage : ctx₁.stage = ctx.stage) (hver : ctx₁.ver = ctx.ver) :
    Joined s s' S F ctx ctx' q goal := by
  cases h with
  | closed hc => exact .closed ⟨hc.st, hc.stage, hc.shows, fun e he => hver ▸ hc.finished e he⟩
  | opened ho hdo hL hR hFL hFR hgoal =>
      exact .opened ⟨ho.running.trans hst, ho.stage.trans hstage, ho.ptr, ho.cell,
        ho.ver.trans hver, ho.lch, ho.rch⟩ hdo hL hR hFL hFR (hver ▸ hgoal)

/-! ### `concat` and `update`

Both read the root of a tree, and its links only behind the wait.  `Sees` is what they
may rely on.
-/

theorem opened_copy (s : Store) (n : Node) (hctx : ctx'.st = ctx.st)
    (hstage : ctx'.stage = ctx.stage) :
    Opened s (makeWeakCopy s n ctx.ver).1 ctx ctx' (some s.size)
      ⟨ctx.ver, n.pry, n.key, n.val, augUninitialized, none, none⟩ :=
  ⟨hctx, hstage, rfl, Heap.get?_alloc_self, rfl, rfl, rfl⟩

/-- One of the trees is empty, or a copy of the higher root is made. -/
theorem concat_spec {L R : BinaryTree Datum} (hfn : ctx.fn = .concat)
    (hL : Rep layout s S ctx.tL L) (hR : Rep layout s S ctx.tR R)
    (hFL : ∀ e ∈ L.inorder, F e.ver) (hFR : ∀ e ∈ R.inorder, F e.ver) :
    ∃ s' ctx' q, concat s ctx = some (s', ctx', q) ∧ Grows s s' ∧ SameTask ctx ctx' ∧
      ctx'.fn = .concat ∧ Joined s s' S F ctx ctx' q (concatTree ctx.ver L R) := by
  cases L with
  | nil =>
      have htL := hL.of_nil
      refine ⟨s, ctx.done, ctx.tR, by simp only [concat, htL], .refl s,
        ⟨rfl, rfl, rfl, rfl, rfl, rfl⟩, hfn, .closed ⟨rfl, rfl, ?_, ?_⟩⟩
      · rwa [concatTree, concatWith_nil_left]
      · rw [concatTree, concatWith_nil_left]
        exact fun e he => Or.inr (hFR e he)
  | node dL lL rL =>
      have hL' := hL
      obtain ⟨a, nL, htL, -, hnL, rfl, -, -⟩ := hL'.of_node
      cases R with
      | nil =>
          have htR := hR.of_nil
          refine ⟨s, ctx.done, ctx.tL, by simp only [concat, htL, htR], .refl s,
            ⟨rfl, rfl, rfl, rfl, rfl, rfl⟩, hfn, .closed ⟨rfl, rfl, ?_, ?_⟩⟩
          · rwa [concatTree, concatWith_nil_right]
          · rw [concatTree, concatWith_nil_right]
            exact fun e he => Or.inr (hFL e he)
      | node dR lR rR =>
          have hR' := hR
          obtain ⟨b, nR, htR, -, hnR, rfl, -, -⟩ := hR'.of_node
          by_cases hpry : nL.pry > nR.pry
          · have hgrow : Grows s (makeWeakCopy s nL ctx.ver).1 := .alloc s rfl
            refine ⟨_, { ctx with dir := .right }, some s.size, ?_, hgrow,
              ⟨rfl, rfl, rfl, rfl, rfl, rfl⟩, hfn, .opened (opened_copy s nL rfl rfl) ⟨hfn, ?_, ?_⟩
              (hL.preserved hgrow.preserves) (hR.preserved hgrow.preserves) hFL hFR rfl⟩
            · simp only [concat, htL, htR, hnL, hnR, Option.bind_eq_bind, Option.bind_some,
                if_pos hpry]
              rfl
            · exact (if_pos hpry).symm
            · rw [if_pos (show (layout.shown a nL).pry > (layout.shown b nR).pry from hpry)]
              rfl
          · have hgrow : Grows s (makeWeakCopy s nR ctx.ver).1 := .alloc s rfl
            refine ⟨_, { ctx with dir := .left }, some s.size, ?_, hgrow,
              ⟨rfl, rfl, rfl, rfl, rfl, rfl⟩, hfn, .opened (opened_copy s nR rfl rfl) ⟨hfn, ?_, ?_⟩
              (hL.preserved hgrow.preserves) (hR.preserved hgrow.preserves) hFL hFR rfl⟩
            · simp only [concat, htL, htR, hnL, hnR, Option.bind_eq_bind, Option.bind_some,
                if_neg hpry]
              rfl
            · exact (if_neg hpry).symm
            · rw [if_neg (show ¬ (layout.shown a nL).pry > (layout.shown b nR).pry from hpry)]
              rfl

/-- What a task needs to know of the tree it comes to. -/
structure Sees (s : Store) (S : Set Addr) (F : Nat → Prop) (numCommitted : Nat) (p : Ptr)
    (t : BinaryTree Datum) : Prop where
  nil : t = BinaryTree.nil → p = none
  root : ∀ d l r, t = node d l r → ∃ b y, p = some b ∧ s.get? b = some y ∧ y.datum = d
  ready : ∀ d l r, t = node d l r → d.ver ≤ numCommitted →
    Rep layout s S p t ∧ ∀ e ∈ t.inorder, F e.ver

/-- There is no node: the new key gets one, and there is nothing to delete. -/
theorem update_nil (numCommitted : Nat) (hS : ∀ a, s.size ≤ a → a ∈ S)
    (hp : ctx.tPast = none) :
    ∃ s' q, update s numCommitted ctx = some (s', ctx.done, q) ∧ Grows s s' ∧
      Outcome s s' S F ctx ctx.done q BinaryTree.nil := by
  by_cases hop : ctx.op = .insert
  · refine ⟨(makeNode s ctx.ver ctx.pry ctx.key).1, some s.size, ?_, .alloc s rfl,
      .joined (.closed ⟨rfl, rfl, ?_, ?_⟩)⟩
    · simp only [update, hp, if_pos hop]
      rfl
    · rw [Context.target, if_pos hop]
      exact .node (L := layout) (hS _ (Nat.le_refl _)) Heap.get?_alloc_self .nil .nil
    · rw [Context.target, if_pos hop]
      simp [insertTree]
  · refine ⟨s, none, by simp only [update, hp, if_neg hop], .refl s,
      .joined (.closed ⟨rfl, rfl, ?_, ?_⟩)⟩
    · rw [Context.target, if_neg hop]
      exact .nil
    · rw [Context.target, if_neg hop]
      simp [deleteTree]

/-- The task copies the node it has come to with another counter. -/
theorem recount_outcome {d : Datum} (hd : y.datum = d)
    (htop : ¬ d.pry > ctx.pry) (hkey : d.key = ctx.key) (hkeep : ctx.op = .insert ∨ d.val ≠ 1)
    {w : UInt64} (hw : w = if ctx.op = .insert then d.val + 1 else d.val - 1) :
    Grows s (setVal (makeWeakCopy s y ctx.ver).1 s.size w) ∧
      SameTask ctx { ctx with fn := .setref } ∧
      Outcome s (setVal (makeWeakCopy s y ctx.ver).1 s.size w) S F ctx { ctx with fn := .setref }
        (some s.size) (node d l r) := by
  have hgrow : Grows s (makeWeakCopy s y ctx.ver).1 := .alloc s rfl
  refine ⟨hgrow.setVal (Nat.le_refl _) w, ⟨rfl, rfl, rfl, rfl, rfl, rfl⟩, ?_⟩
  refine .setref ⟨rfl, rfl, rfl, get?_setVal Heap.get?_alloc_self w, rfl, rfl, rfl⟩ rfl
    ⟨rfl, htop, hkey, hkeep, ?_⟩
  rw [← hd, hw, ← hd]
  rfl

/--
**What `update` does to the tree a task has come to.**  It waits for the version of
the root, or returns with one of the outcomes.
-/
theorem update_spec (hfn : ctx.fn = .search) (hS : ∀ a, s.size ≤ a → a ∈ S)
    (hsees : Sees s S F numCommitted ctx.tPast t) :
    (∃ d l r, t = node d l r ∧ numCommitted < d.ver ∧ update s numCommitted ctx = none) ∨
    ∃ s' ctx' q, update s numCommitted ctx = some (s', ctx', q) ∧ Grows s s' ∧ SameTask ctx ctx' ∧
      Joins s numCommitted ctx' ∧ Outcome s s' S F ctx ctx' q t := by
  have hjoins : ∀ {ctx' : Context}, ctx'.fn ≠ .concat → Joins s numCommitted ctx' :=
    fun hne hfn' => absurd hfn' hne
  have hdone : ctx.done.fn ≠ .concat := by
    rw [show ctx.done.fn = ctx.fn from rfl, hfn]
    decide
  cases t with
  | nil =>
      obtain ⟨s', q, hrun, hgrow, hout⟩ :=
        update_nil numCommitted (F := F) hS (hsees.nil rfl)
      exact Or.inr ⟨s', ctx.done, q, hrun, hgrow, ⟨rfl, rfl, rfl, rfl, rfl, rfl⟩, hjoins hdone,
        hout⟩
  | node d l r =>
      obtain ⟨b, y, hp, hy, hd⟩ := hsees.root d l r rfl
      subst hd
      by_cases hpry : y.pry > ctx.pry
      -- The node outranks the key: it is copied, and the search goes on below it.
      · have hrun : update s numCommitted ctx = some ((makeWeakCopy s y ctx.ver).1,
            { ctx with dir := if ctx.key < y.key then .left else .right }, some s.size) := by
          simp only [update, hp, hy, Option.bind_eq_bind, Option.bind_some, if_pos hpry]
          rfl
        exact Or.inr ⟨_, _, _, hrun, .alloc s rfl, ⟨rfl, rfl, rfl, rfl, rfl, rfl⟩,
          hjoins (by rw [hfn]; decide),
          .search (opened_copy s y rfl rfl) rfl ⟨hfn, hpry, rfl, rfl⟩⟩
      · by_cases hkey : y.key = ctx.key
        · by_cases hop : ctx.op = .insert
          -- An insertion finds its key.
          · have hrun : update s numCommitted ctx = some
                (setVal (makeWeakCopy s y ctx.ver).1 s.size (y.val + 1),
                  { ctx with fn := .setref }, some s.size) := by
              simp only [update, hp, hy, Option.bind_eq_bind, Option.bind_some, if_neg hpry,
                if_pos hkey, if_pos hop]
              rfl
            obtain ⟨hgrow, hsame, hout⟩ := recount_outcome (S := S) (F := F) (l := l) (r := r)
              (s := s) (y := y) rfl hpry hkey (Or.inl hop) (if_pos hop).symm
            exact Or.inr ⟨_, _, _, hrun, hgrow, hsame, hjoins (by simp), hout⟩
          · by_cases hval : y.val = 1
            · by_cases hwait : numCommitted < y.ver
              · refine Or.inl ⟨_, l, r, rfl, hwait, ?_⟩
                simp only [update, hp, hy, Option.bind_eq_bind, Option.bind_some, if_neg hpry,
                  if_pos hkey, if_neg hop, if_pos hval, if_pos hwait]
              · obtain ⟨hrep, hF⟩ := hsees.ready _ l r rfl (Nat.not_lt.mp hwait)
                obtain ⟨-, hFl, hFr⟩ := forall_mem_inorder_node.mp hF
                obtain ⟨b', y', hb', -, hy', -, hl, hr⟩ := hrep.of_node
                obtain rfl : b = b' := Option.some.inj (hp.symm.trans hb')
                obtain rfl : y = y' := Option.some.inj (hy.symm.trans hy')
                -- The last occurrence is deleted: the subtrees, which are committed by now, are
                -- joined.
                obtain ⟨s', ctx', q, hrun, hgrow, hsame, -, hj⟩ := concat_spec (F := F)
                  (show ({ ctx with tL := y.lch, tR := y.rch, fn := .concat } : Context).fn = .concat from rfl)
                  hl hr hFl hFr
                refine Or.inr ⟨s', ctx', q, ?_, hgrow, ⟨hsame.op, hsame.ver, hsame.pry, hsame.key,
                  hsame.tPast, hsame.root⟩, fun _ => ⟨b, y, hsame.tPast.trans hp, hy,
                  Nat.not_lt.mp hwait⟩, .joined ?_⟩
                · simp only [update, hp, hy, Option.bind_eq_bind, Option.bind_some, if_neg hpry,
                    if_pos hkey, if_neg hop, if_pos hval, if_neg hwait]
                  rwa [hp] at hrun
                · rw [Context.target, if_neg hop,
                    deleteTree_concat (d := y.datum) hpry hkey hval]
                  exact hj.congr rfl rfl rfl
            -- One occurrence of several is deleted.
            · have hrun : update s numCommitted ctx = some
                  (setVal (makeWeakCopy s y ctx.ver).1 s.size (y.val - 1),
                    { ctx with fn := .setref }, some s.size) := by
                simp only [update, hp, hy, Option.bind_eq_bind, Option.bind_some, if_neg hpry,
                  if_pos hkey, if_neg hop, if_neg hval]
                rfl
              obtain ⟨hgrow, hsame, hout⟩ := recount_outcome (S := S) (F := F) (l := l) (r := r)
                (s := s) (y := y) rfl hpry hkey (Or.inr hval) (if_neg hop).symm
              exact Or.inr ⟨_, _, _, hrun, hgrow, hsame, hjoins (by simp), hout⟩
        · by_cases hop : ctx.op = .insert
          · by_cases hwait : numCommitted < y.ver
            · refine Or.inl ⟨_, l, r, rfl, hwait, ?_⟩
              simp only [update, hp, hy, Option.bind_eq_bind, Option.bind_some, if_neg hpry,
                if_neg hkey, if_pos hop, if_pos hwait]
            · obtain ⟨hrep, hF⟩ := hsees.ready _ l r rfl (Nat.not_lt.mp hwait)
              -- The key belongs above this node, whose tree is committed by now and is split.
              obtain ⟨s', q, hrun, hgrow, hq⟩ := processDeploy_spec ctx.ver ctx.pry ctx.key hS hrep
                (Nat.lt_succ_of_le hrep.height_le)
              refine Or.inr ⟨s', ctx.done, q, ?_, hgrow, ⟨rfl, rfl, rfl, rfl, rfl, rfl⟩,
                hjoins hdone, .joined (.closed ⟨rfl, rfl, ?_, ?_⟩)⟩
              · simp only [update, hp, hy, Option.bind_eq_bind, Option.bind_some, if_neg hpry,
                  if_neg hkey, if_pos hop, if_neg hwait]
                rw [← hp]
                exact Option.bind_eq_some_iff.mpr ⟨_, hrun, rfl⟩
              · rwa [Context.target, if_pos hop, insertTree_deploy (d := y.datum) hpry hkey]
              · rw [Context.target, if_pos hop, insertTree_deploy (d := y.datum) hpry hkey]
                exact forall_ver_deployTree (Q := fun w => w = ctx.ver ∨ F w) _ _ (Or.inl rfl)
                  fun e he => Or.inr (hF e he)
          · refine Or.inr ⟨s, ctx.done, some b, ?_, .refl s, ⟨rfl, rfl, rfl, rfl, rfl, rfl⟩,
              hjoins hdone, .kept rfl rfl hp.symm ?_⟩
            · simp only [update, hp, hy, Option.bind_eq_bind, Option.bind_some, if_neg hpry,
                if_neg hkey, if_neg hop]
            · rw [Context.target, if_neg hop, deleteTree_absent (d := y.datum) hpry hkey]

/-- What `concat_` leaves of a context. -/
theorem concat_kept (hrun : concat s ctx = some (s', ctx', q)) :
    ctx'.tPast = ctx.tPast ∧ ctx'.tL = ctx.tL ∧ ctx'.tR = ctx.tR := by
  unfold concat at hrun
  split at hrun
  · cases hrun
    exact ⟨rfl, rfl, rfl⟩
  · cases hrun
    exact ⟨rfl, rfl, rfl⟩
  · obtain ⟨nL, -, hrun⟩ := Option.bind_eq_some_iff.mp hrun
    obtain ⟨nR, -, hrun⟩ := Option.bind_eq_some_iff.mp hrun
    split at hrun
    · cases hrun
      exact ⟨rfl, rfl, rfl⟩
    · cases hrun
      exact ⟨rfl, rfl, rfl⟩

/-! ### What a join has waited for

A task that goes on to join has found its key in a node of a version that is committed.
This is all there is to be known of how it got there.
-/

/-- A search that comes to its key with the counter at one goes on to join the subtrees. -/
theorem update_joins (hfn : ctx.fn = .search) (hrun : update s numCommitted ctx = some (s', ctx', q))
    (hfn' : ctx'.fn = .concat) :
    ∃ b y, ctx.tPast = some b ∧ s.get? b = some y ∧ y.ver ≤ numCommitted ∧ ctx'.tPast = ctx.tPast ∧
      ctx'.tL = y.lch ∧ ctx'.tR = y.rch := by
  have hsearch : ctx.fn ≠ .concat := by
    rw [hfn]
    decide
  unfold update at hrun
  split at hrun
  · split at hrun
    · cases hrun
      exact absurd hfn' hsearch
    · cases hrun
      exact absurd hfn' hsearch
  · next b hpast =>
      obtain ⟨y, hy, hrun⟩ := Option.bind_eq_some_iff.mp hrun
      by_cases hpry : y.pry > ctx.pry
      · rw [if_pos hpry] at hrun
        cases hrun
        exact absurd hfn' hsearch
      rw [if_neg hpry] at hrun
      by_cases hkey : y.key = ctx.key
      · rw [if_pos hkey] at hrun
        by_cases hop : ctx.op = .insert
        · rw [if_pos hop] at hrun
          cases hrun
          cases hfn'
        rw [if_neg hop] at hrun
        by_cases hval : y.val = 1
        · rw [if_pos hval] at hrun
          by_cases hwait : numCommitted < y.ver
          · rw [if_pos hwait] at hrun
            cases hrun
          · rw [if_neg hwait] at hrun
            exact ⟨b, y, hpast, hy, Nat.not_lt.mp hwait, concat_kept hrun⟩
        · rw [if_neg hval] at hrun
          cases hrun
          cases hfn'
      · rw [if_neg hkey] at hrun
        by_cases hop : ctx.op = .insert
        · rw [if_pos hop] at hrun
          by_cases hwait : numCommitted < y.ver
          · rw [if_pos hwait] at hrun
            cases hrun
          · rw [if_neg hwait] at hrun
            obtain ⟨r, -, hr⟩ := Option.bind_eq_some_iff.mp hrun
            cases hr
            exact absurd hfn' hsearch
        · rw [if_neg hop] at hrun
          cases hrun
          exact absurd hfn' hsearch

/-! ### An outcome in the plan

The outcome was stated on the heap that the call returned.  The node above is linked
after that, which changes one cell that the outcome does not speak of.
-/

/-- How the outcome of a call appears in the heap and the contexts after the step: the
cells of `S` are as the call left them, and the task is at what the call returned. -/
structure Lands (s' : Store) (S : Set Addr) (F : Nat → Prop) (ctx ctx' : Context) (q : Ptr)
    (h' : Store) (ctxs' : Nat → Context) (u : Nat) : Prop where
  heap : ∀ b ∈ S, h'.get? b = s'.get? b
  self : ctx.ver = u
  running : ctx.st ≠ .done
  same : SameTask ctx ctx'
  closed : ctx'.st = .done → Finished ctxs' u
  opened : ctx'.st ≠ .done → ∃ root, ctxs' u = { ctx' with tCur := q, root := root }
  finished : ∀ w, F w → Finished ctxs' w

section
variable (hland : Lands s' S F ctx ctx' q h' ctxs' u)
include hland

theorem Lands.rep (hp : Rep layout s' S p t) : Shows layout h' p t :=
  (hp.congr fun b y hb hy _ => ⟨y, (hland.heap b hb).trans hy, rfl, rfl, rfl⟩).shows

theorem Lands.openAt (ho : Opened s s' ctx ctx' q x) (hS : s.size ∈ S) :
    OpenAt h' ctxs' u s.size x ∧ ∃ root, ctxs' u = { ctx' with tCur := q, root := root } := by
  have hrun : ctx'.st ≠ .done := by
    rw [ho.running]
    exact hland.running
  obtain ⟨root, hctx⟩ := hland.opened hrun
  refine ⟨⟨?_, ?_, ?_, (hland.heap _ hS).trans ho.cell, ho.ver.trans hland.self, ho.lch, ho.rch⟩,
    root, hctx⟩
  · rw [Finished, hctx]
    exact hrun
  · rw [hctx]
    exact hland.same.ver.trans hland.self
  · rw [hctx]
    exact ho.ptr

/-- If the join is over its tree is settled, and if not the task is at the copy. -/
theorem Joined.plan (hj : Joined s s' S F ctx ctx' q goal) (hS : s.size ∈ S)
    (hm : steps' u = m) :
    Plan h' ctxs' steps' m q goal ∧ (¬ Finished ctxs' u → Placed h' ctxs' steps' u) := by
  subst hm
  cases hj with
  | closed hc =>
      have hfin := hland.closed hc.st
      refine ⟨.settled ⟨hland.rep hc.shows, fun e he => ?_⟩, fun hnot => absurd hfin hnot⟩
      rcases hc.finished e he with hver | hF
      · rw [hver, hland.self]
        exact hfin
      · exact hland.finished _ hF
  | opened ho hdo hL hR hFL hFR hgoal =>
      obtain ⟨hopen, root, hctx⟩ := hland.openAt ho hS
      have hplan : Plan h' ctxs' steps' (steps' u) (some s.size) goal := by
        rw [hgoal, hland.self]
        refine .concat hopen ?_ ⟨?_, fun e he => hland.finished _ (hFL e he)⟩
          ⟨?_, fun e he => hland.finished _ (hFR e he)⟩
        · rw [hctx]
          exact ⟨hdo.fn, hdo.dir, hdo.copy⟩
        · rw [hctx]
          exact hland.rep hL
        · rw [hctx]
          exact hland.rep hR
      rw [ho.ptr]
      exact ⟨hplan, fun _ => ⟨_, _, _, hopen, hplan⟩⟩

/-- **The pointer that is stored stands for what the operation makes of the tree.** -/
theorem Outcome.plan (hout : Outcome s s' S F ctx ctx' q t) (hS : s.size ∈ S)
    (hm : steps' u = m) (hpast : Plan h' ctxs' steps' m ctx.tPast t) (hbound : VerBound v t)
    (hlt : v < u) :
    Plan h' ctxs' steps' m q (ctx.target t) ∧
      (¬ Finished ctxs' u → Placed h' ctxs' steps' u) := by
  subst hm
  cases hout with
  | joined hj => exact hj.plan hland hS rfl
  | kept hst hstage hq hgoal =>
      rw [hgoal, hq]
      exact ⟨hpast, fun hnot => absurd (hland.closed hst) hnot⟩
  | @search x d l r ho ht hdo =>
      subst ht
      obtain ⟨hopen, root, hctx⟩ := hland.openAt ho hS
      have htarget : ctx.target (node d l r) = (ctxs' u).target (node d l r) := by
        rw [hctx, ← hland.same.target]
        rfl
      have hplan : Plan h' ctxs' steps' (steps' u) (some s.size) (ctx.target (node d l r)) := by
        rw [htarget]
        refine .search hopen ?_ ?_ hbound hlt
        · rw [hctx]
          exact ⟨hdo.fn, hdo.above, hdo.dir, hdo.copy⟩
        · rwa [hctx, show ({ ctx' with tCur := q, root := root } : Context).tPast = ctx.tPast from
            hland.same.tPast]
      rw [ho.ptr]
      exact ⟨hplan, fun _ => ⟨_, _, _, hopen, hplan⟩⟩
  | @setref x d l r ho ht hdo =>
      subst ht
      obtain ⟨hopen, root, hctx⟩ := hland.openAt ho hS
      have htarget : ctx.target (node d l r) = (ctxs' u).target (node d l r) := by
        rw [hctx, ← hland.same.target]
        rfl
      have hplan : Plan h' ctxs' steps' (steps' u) (some s.size) (ctx.target (node d l r)) := by
        rw [htarget]
        refine .setref hopen ?_ ?_ hbound hlt
        · rw [hctx]
          exact ⟨hdo.fn, hdo.top, hdo.key, hdo.keep, hdo.copy⟩
        · rwa [hctx, show ({ ctx' with tCur := q, root := root } : Context).tPast = ctx.tPast from
            hland.same.tPast]
      rw [ho.ptr]
      exact ⟨hplan, fun _ => ⟨_, _, _, hopen, hplan⟩⟩

end

end Scheduler
