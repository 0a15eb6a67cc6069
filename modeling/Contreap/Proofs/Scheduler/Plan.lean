/-
The tree a pointer is going to show.

While tasks are under way their trees are unfinished: a task has copied a node, and
will link it to its children only when it moves on.  `Plan` says what a pointer stands
for all the same.  A node that its task has left is linked, and stands for what its
children stand for, one level down.  A node that its task is at stands for what the
operation makes of the tree the task reads, which may itself be unfinished.  And where
every node belongs to a finished task, the pointer shows its tree as it is.

The level counts the steps a task has taken, and for one reason: a task reads a node of
an earlier task on its own level, and finds it linked if that task has taken more
steps (`Plan.children`).  Splitting and joining moves nodes to other levels, and is
done on finished subtrees only, which have no level.

A step of a task changes the node it is at, and none that anyone else is at or has
finished; `Plan.moves` is that whatever a pointer stood for it still stands for,
provided this is so of the one node the task leaves.
-/
import Contreap.Model.Scheduler
import Contreap.Proofs.Treap.Update
import Contreap.Proofs.Treap.Versions

namespace Scheduler

open BinaryTree Cartesian PtrHeap Treap

/-! ### What a task is to do

Of a task that is not done, its context and the node it is at say which of three things
it is in the middle of.  Each comes with the equation by which one step brings the goal
one level down.
-/

/-- A task is done. -/
def Finished (ctxs : Nat → Context) (u : Nat) : Prop := (ctxs u).st = .done

/-- What the operation of a task makes of a tree. -/
def Context.target (ctx : Context) (t : BinaryTree Datum) : BinaryTree Datum :=
  if ctx.op = .insert then insertTree ctx.ver ctx.pry ctx.key t
  else deleteTree ctx.ver ctx.pry ctx.key t

/-- The task is at a copy of a node it has to go below. -/
structure Searching (ctx : Context) (x : Node) (d : Datum) : Prop where
  fn : ctx.fn = .search
  above : d.pry > ctx.pry
  dir : ctx.dir = if ctx.key < d.key then .left else .right
  copy : x.datum = d.copyAt ctx.ver

/-- The task is at a copy of the node of its key, with the counter changed. -/
structure Recounting (ctx : Context) (x : Node) (d : Datum) : Prop where
  fn : ctx.fn = .setref
  top : ¬ d.pry > ctx.pry
  key : d.key = ctx.key
  keep : ctx.op = .insert ∨ d.val ≠ 1
  copy : x.datum = d.recount ctx.ver (if ctx.op = .insert then d.val + 1 else d.val - 1)

/-- The task is at a copy of the higher of two roots it joins. -/
structure Joining (ctx : Context) (x : Node) (dL dR : Datum) : Prop where
  fn : ctx.fn = .concat
  dir : ctx.dir = if dL.pry > dR.pry then .right else .left
  copy : x.datum = (if dL.pry > dR.pry then dL else dR).copyAt ctx.ver

section
variable {ctx : Context} {x : Node} {d dL dR : Datum} {l r lL rL lR rR : BinaryTree Datum}

theorem Searching.key_lt (h : Searching ctx x d) (hdir : ctx.dir = .left) : ctx.key < d.key := by
  by_contra hkey
  rw [h.dir, if_neg hkey] at hdir
  cases hdir

theorem Searching.not_key_lt (h : Searching ctx x d) (hdir : ctx.dir ≠ .left) :
    ¬ ctx.key < d.key := fun hkey => hdir (by rw [h.dir, if_pos hkey])

theorem Searching.target_left (h : Searching ctx x d) (hdir : ctx.dir = .left) :
    ctx.target (node d l r) = node x.datum (ctx.target l) r := by
  rw [h.copy]
  unfold Context.target
  split
  · exact insertTree_left h.above (h.key_lt hdir)
  · exact deleteTree_left h.above (h.key_lt hdir)

theorem Searching.target_right (h : Searching ctx x d) (hdir : ctx.dir ≠ .left) :
    ctx.target (node d l r) = node x.datum l (ctx.target r) := by
  rw [h.copy]
  unfold Context.target
  split
  · exact insertTree_right h.above (h.not_key_lt hdir)
  · exact deleteTree_right h.above (h.not_key_lt hdir)

theorem Recounting.target (h : Recounting ctx x d) : ctx.target (node d l r) = node x.datum l r := by
  rw [h.copy]
  unfold Context.target
  by_cases hop : ctx.op = .insert
  · rw [if_pos hop, if_pos hop]
    exact insertTree_recount h.top h.key
  · rw [if_neg hop, if_neg hop]
    exact deleteTree_recount h.top h.key (h.keep.resolve_left hop)

theorem Joining.above (h : Joining ctx x dL dR) (hdir : ctx.dir ≠ .left) : dL.pry > dR.pry := by
  by_contra hpry
  exact hdir (by rw [h.dir, if_neg hpry])

theorem Joining.not_above (h : Joining ctx x dL dR) (hdir : ctx.dir = .left) :
    ¬ dL.pry > dR.pry := by
  intro hpry
  rw [h.dir, if_pos hpry] at hdir
  cases hdir

theorem Joining.concat_left (h : Joining ctx x dL dR) (hdir : ctx.dir = .left) :
    concatTree ctx.ver (node dL lL rL) (node dR lR rR)
      = node x.datum (concatTree ctx.ver (node dL lL rL) lR) rR := by
  rw [h.copy, if_neg (h.not_above hdir), concatTree, concatWith_node, if_neg (h.not_above hdir)]
  rfl

theorem Joining.concat_right (h : Joining ctx x dL dR) (hdir : ctx.dir ≠ .left) :
    concatTree ctx.ver (node dL lL rL) (node dR lR rR)
      = node x.datum lL (concatTree ctx.ver rL (node dR lR rR)) := by
  rw [h.copy, if_pos (h.above hdir), concatTree, concatWith_node, if_pos (h.above hdir)]
  rfl

end

/-! ### Plans

The definition is by cases on who has been at the node.  Where a task still is, the plan
of what it reads is part of its own, on the level of its steps; so a plan leads from
task to earlier task until it comes to nodes that are linked.
-/

/-- Every node belongs to a finished task, and the tree is there. -/
structure Settled (h : Store) (ctxs : Nat → Context) (p : Ptr) (t : BinaryTree Datum) : Prop where
  shows : Shows layout h p t
  finished : ∀ e ∈ t.inorder, Finished ctxs e.ver

/-- Task `u` is at the node `a`, which it has not linked yet. -/
structure OpenAt (h : Store) (ctxs : Nat → Context) (u : Nat) (a : Addr) (x : Node) : Prop where
  running : ¬ Finished ctxs u
  self : (ctxs u).ver = u
  cur : (ctxs u).tCur = some a
  cell : h.get? a = some x
  ver : x.ver = u
  lch : x.lch = none
  rch : x.rch = none

/-- **What a pointer stands for** at level `n`, although the nodes below may not be linked
yet.  A tree of finished tasks stands for itself; a node that its task has left, for its
children one level down; and a node that its task is still at, for what the operation
makes of the tree it reads, or of the two trees it joins. -/
inductive Plan (h : Store) (ctxs : Nat → Context) (steps : Nat → Nat) :
    Nat → Ptr → BinaryTree Datum → Prop
  | settled {n : Nat} {p : Ptr} {t : BinaryTree Datum} (hs : Settled h ctxs p t) :
      Plan h ctxs steps n p t
  | linked {n : Nat} {a : Addr} {x : Node} {l r : BinaryTree Datum} (hx : h.get? a = some x)
      (hleft : ∀ u, ¬ Finished ctxs u → (ctxs u).tCur ≠ some a)
      (hl : Plan h ctxs steps (n + 1) x.lch l) (hr : Plan h ctxs steps (n + 1) x.rch r) :
      Plan h ctxs steps n (some a) (node x.datum l r)
  | search {u v : Nat} {a : Addr} {x : Node} {d : Datum} {l r : BinaryTree Datum}
      (hu : OpenAt h ctxs u a x) (hdo : Searching (ctxs u) x d)
      (hpast : Plan h ctxs steps (steps u) (ctxs u).tPast (node d l r))
      (hbound : VerBound v (node d l r)) (hlt : v < u) :
      Plan h ctxs steps (steps u) (some a) ((ctxs u).target (node d l r))
  | setref {u v : Nat} {a : Addr} {x : Node} {d : Datum} {l r : BinaryTree Datum}
      (hu : OpenAt h ctxs u a x) (hdo : Recounting (ctxs u) x d)
      (hpast : Plan h ctxs steps (steps u) (ctxs u).tPast (node d l r))
      (hbound : VerBound v (node d l r)) (hlt : v < u) :
      Plan h ctxs steps (steps u) (some a) ((ctxs u).target (node d l r))
  | concat {u : Nat} {a : Addr} {x : Node} {dL dR : Datum} {lL rL lR rR : BinaryTree Datum}
      (hu : OpenAt h ctxs u a x) (hdo : Joining (ctxs u) x dL dR)
      (hL : Settled h ctxs (ctxs u).tL (node dL lL rL))
      (hR : Settled h ctxs (ctxs u).tR (node dR lR rR)) :
      Plan h ctxs steps (steps u) (some a) (concatTree u (node dL lL rL) (node dR lR rR))

variable {h h' : Store} {ctxs ctxs' : Nat → Context} {steps steps' : Nat → Nat} {n u v : Nat}
  {p : Ptr} {t : BinaryTree Datum} {a : Addr} {x y : Node}

theorem Settled.left {d : Datum} {l r : BinaryTree Datum} (hs : Settled h ctxs (some a) (node d l r))
    (hx : h.get? a = some x) :
    x.datum = d ∧ Settled h ctxs x.lch l ∧ Settled h ctxs x.rch r := by
  obtain ⟨b, y, hb, -, hy, rfl, hl, hr⟩ := hs.shows.of_node
  obtain rfl : a = b := Option.some.inj hb
  obtain rfl : x = y := Option.some.inj (hx.symm.trans hy)
  obtain ⟨-, hfl, hfr⟩ := forall_mem_inorder_node.mp hs.finished
  exact ⟨rfl, ⟨hl, hfl⟩, ⟨hr, hfr⟩⟩

theorem Plan.of_none (hp : Plan h ctxs steps n none t) : t = BinaryTree.nil := by
  cases hp with
  | settled hs => exact hs.shows.of_none

/-- A pointer that stands for a tree leads to its root. -/
theorem Plan.of_some (hp : Plan h ctxs steps n (some a) t) :
    ∃ x l r, h.get? a = some x ∧ t = node x.datum l r := by
  cases hp with
  | settled hs =>
      obtain ⟨x, l, r, -, hx, rfl, -, -⟩ := hs.shows.of_some
      exact ⟨x, l, r, hx, rfl⟩
  | linked hx => exact ⟨_, _, _, hx, rfl⟩
  | @search u _ _ x d l r hu hdo =>
      by_cases hdir : (ctxs u).dir = .left
      · exact ⟨x, _, _, hu.cell, hdo.target_left hdir⟩
      · exact ⟨x, _, _, hu.cell, hdo.target_right hdir⟩
  | setref hu hdo => exact ⟨_, _, _, hu.cell, hdo.target⟩
  | @concat u _ x dL dR lL rL lR rR hu hdo =>
      rw [← hu.self]
      by_cases hdir : (ctxs u).dir = .left
      · exact ⟨x, _, _, hu.cell, hdo.concat_left hdir⟩
      · exact ⟨x, _, _, hu.cell, hdo.concat_right hdir⟩

theorem Plan.of_node {d : Datum} {l r : BinaryTree Datum}
    (hp : Plan h ctxs steps n p (node d l r)) :
    ∃ a x, p = some a ∧ h.get? a = some x ∧ x.datum = d := by
  cases p with
  | none => cases hp.of_none
  | some a =>
      obtain ⟨x, l', r', hx, heq⟩ := hp.of_some
      cases heq
      exact ⟨a, x, rfl, hx, rfl⟩

theorem Plan.of_nil (hp : Plan h ctxs steps n p BinaryTree.nil) : p = none := by
  cases p with
  | none => rfl
  | some a =>
      obtain ⟨x, l', r', -, heq⟩ := hp.of_some
      cases heq

/-- A node whose task is done with it, or further down, is linked to its children. -/
theorem Plan.children {d : Datum} {l r : BinaryTree Datum}
    (hp : Plan h ctxs steps n (some a) (node d l r)) (hx : h.get? a = some x)
    (hpassed : Finished ctxs x.ver ∨ n < steps x.ver) :
    Plan h ctxs steps (n + 1) x.lch l ∧ Plan h ctxs steps (n + 1) x.rch r := by
  have hnot : ∀ {u : Nat} {y : Node}, OpenAt h ctxs u a y → n = steps u → False := by
    intro u y hu hn
    obtain rfl : x = y := Option.some.inj (hx.symm.trans hu.cell)
    rw [hu.ver] at hpassed
    rcases hpassed with hfin | hlt
    · exact hu.running hfin
    · exact absurd hn (Nat.ne_of_lt hlt)
  generalize ht : node d l r = t at hp
  generalize hq : some a = q at hp
  cases hp with
  | settled hs =>
      subst ht hq
      obtain ⟨-, hl, hr⟩ := hs.left hx
      exact ⟨.settled hl, .settled hr⟩
  | linked hy _ hl hr =>
      cases ht
      cases hq
      obtain rfl := Option.some.inj (hx.symm.trans hy)
      exact ⟨hl, hr⟩
  | search hu => cases hq; exact (hnot hu rfl).elim
  | setref hu => cases hq; exact (hnot hu rfl).elim
  | concat hu => cases hq; exact (hnot hu rfl).elim

/-- What no unfinished task can have touched is settled. -/
theorem Plan.settle (hp : Plan h ctxs steps n p t) (hbound : VerBound v t)
    (hfin : ∀ w ≤ v, Finished ctxs w) : Settled h ctxs p t := by
  have hroot : ∀ {n : Nat} {a : Addr} {x : Node} {t : BinaryTree Datum} {u v : Nat},
      Plan h ctxs steps n (some a) t → OpenAt h ctxs u a x → VerBound v t →
      (∀ w ≤ v, Finished ctxs w) → False := by
    intro n a x t u v hp hu hbound hfin
    obtain ⟨y, l, r, hy, rfl⟩ := hp.of_some
    obtain rfl : x = y := Option.some.inj (hu.cell.symm.trans hy)
    exact hu.running (hfin u (hu.ver ▸ hbound.1))
  induction hp generalizing v with
  | settled hs => exact hs
  | linked hx _ _ _ ihl ihr =>
      obtain ⟨hd, hl, hr⟩ := hbound
      obtain ⟨hsl, hfl⟩ := ihl hl fun w hw => hfin w (hw.trans hd)
      obtain ⟨hsr, hfr⟩ := ihr hr fun w hw => hfin w (hw.trans hd)
      exact ⟨.node (L := layout) (Set.mem_univ _) hx hsl hsr,
        forall_mem_inorder_node.mpr ⟨hfin _ hd, hfl, hfr⟩⟩
  | search hu hdo hpast hb hlt => exact (hroot (.search hu hdo hpast hb hlt) hu hbound hfin).elim
  | setref hu hdo hpast hb hlt => exact (hroot (.setref hu hdo hpast hb hlt) hu hbound hfin).elim
  | concat hu hdo hL hR => exact (hroot (.concat hu hdo hL hR) hu hbound hfin).elim

/-! ### One task moves

The induction is on the plan.  Only at the node of the moving task is there anything to
show, and this is left to the lemmas about its steps.
-/

/-- Only task `u` has moved: the one cell it was at may have changed, and it is at a
new cell now, or where it was, or nowhere any more. -/
structure Moves (h : Store) (ctxs : Nat → Context) (steps : Nat → Nat) (u : Nat)
    (h' : Store) (ctxs' : Nat → Context) (steps' : Nat → Nat) : Prop where
  running : ¬ Finished ctxs u
  own : ∀ a x, (ctxs u).tCur = some a → h.get? a = some x → x.ver = u
  cells : ∀ a x, (ctxs u).tCur ≠ some a → h.get? a = some x → h'.get? a = some x
  others : ∀ w, w ≠ u → ctxs' w = ctxs w ∧ steps' w = steps w
  fresh : ¬ Finished ctxs' u → ∀ a < h.size, (ctxs' u).tCur = some a → (ctxs u).tCur = some a

namespace Moves

theorem finished (hm : Moves h ctxs steps u h' ctxs' steps') {w : Nat} (hw : Finished ctxs w) :
    Finished ctxs' w := by
  have hne : w ≠ u := fun heq => hm.running (heq ▸ hw)
  rw [Finished, (hm.others w hne).1]
  exact hw

/-- A cell of a finished task is not the one that changed. -/
theorem cell_of_finished (hm : Moves h ctxs steps u h' ctxs' steps') (hx : h.get? a = some x)
    (hfin : Finished ctxs x.ver) : h'.get? a = some x :=
  hm.cells a x (fun hcur => hm.running (hm.own a x hcur hx ▸ hfin)) hx

theorem settled (hm : Moves h ctxs steps u h' ctxs' steps') (hs : Settled h ctxs p t) :
    Settled h' ctxs' p t := by
  refine ⟨hs.shows.congr fun a x _ hx hmem => ⟨x, ?_, rfl, rfl, rfl⟩,
    fun e he => hm.finished (hs.finished e he)⟩
  exact hm.cell_of_finished hx (hs.finished _ hmem)

/-- Where another task is does not change. -/
theorem openAt (hm : Moves h ctxs steps u h' ctxs' steps') {w : Nat} (hne : w ≠ u)
    (hw : OpenAt h ctxs w a x) : OpenAt h' ctxs' w a x := by
  have hsame := (hm.others w hne).1
  have hcur : (ctxs u).tCur ≠ some a := fun hcur =>
    hne ((hw.ver.symm.trans (hm.own a x hcur hw.cell)))
  exact
    { running := by rw [Finished, hsame]; exact hw.running
      self := by rw [hsame]; exact hw.self
      cur := by rw [hsame]; exact hw.cur
      cell := hm.cells a x hcur hw.cell
      ver := hw.ver
      lch := hw.lch
      rch := hw.rch }

end Moves

/--
**What a pointer stands for survives the step of a task**, if it does at the node the
task leaves.  There the task's plan is given before the step, and what it reads is
already known to stand for the same afterwards.
-/
theorem Plan.moves (hm : Moves h ctxs steps u h' ctxs' steps')
    (hsearch : ∀ {a : Addr} {x : Node} {d : Datum} {l r : BinaryTree Datum} {v : Nat},
      OpenAt h ctxs u a x → Searching (ctxs u) x d →
      Plan h ctxs steps (steps u) (ctxs u).tPast (node d l r) →
      VerBound v (node d l r) → v < u →
      Plan h' ctxs' steps' (steps u) (ctxs u).tPast (node d l r) →
      Plan h' ctxs' steps' (steps u) (some a) ((ctxs u).target (node d l r)))
    (hsetref : ∀ {a : Addr} {x : Node} {d : Datum} {l r : BinaryTree Datum} {v : Nat},
      OpenAt h ctxs u a x → Recounting (ctxs u) x d →
      Plan h ctxs steps (steps u) (ctxs u).tPast (node d l r) →
      VerBound v (node d l r) → v < u →
      Plan h' ctxs' steps' (steps u) (ctxs u).tPast (node d l r) →
      Plan h' ctxs' steps' (steps u) (some a) ((ctxs u).target (node d l r)))
    (hconcat : ∀ {a : Addr} {x : Node} {dL dR : Datum} {lL rL lR rR : BinaryTree Datum},
      OpenAt h ctxs u a x → Joining (ctxs u) x dL dR →
      Settled h ctxs (ctxs u).tL (node dL lL rL) → Settled h ctxs (ctxs u).tR (node dR lR rR) →
      Plan h' ctxs' steps' (steps u) (some a) (concatTree u (node dL lL rL) (node dR lR rR)))
    (hp : Plan h ctxs steps n p t) : Plan h' ctxs' steps' n p t := by
  induction hp with
  | settled hs => exact .settled (hm.settled hs)
  | @linked n a x l r hx hleft _ _ ihl ihr =>
      refine .linked (hm.cells a x (hleft u hm.running) hx) (fun w hw hcur => ?_) ihl ihr
      by_cases hwu : w = u
      · subst hwu
        exact hleft w hm.running (hm.fresh hw a (Heap.lt_size_of_get? hx) hcur)
      · rw [Finished, (hm.others w hwu).1] at hw
        rw [(hm.others w hwu).1] at hcur
        exact hleft w hw hcur
  | @search w v a x d l r hw hdo hpast hbound hlt ih =>
      by_cases hwu : w = u
      · subst hwu
        exact hsearch hw hdo hpast hbound hlt ih
      · obtain ⟨hctx, hsteps⟩ := hm.others w hwu
        rw [← hsteps, ← hctx] at ih ⊢
        exact .search (hm.openAt hwu hw) (hctx.symm ▸ hdo) ih hbound hlt
  | @setref w v a x d l r hw hdo hpast hbound hlt ih =>
      by_cases hwu : w = u
      · subst hwu
        exact hsetref hw hdo hpast hbound hlt ih
      · obtain ⟨hctx, hsteps⟩ := hm.others w hwu
        rw [← hsteps, ← hctx] at ih ⊢
        exact .setref (hm.openAt hwu hw) (hctx.symm ▸ hdo) ih hbound hlt
  | @concat w a x dL dR lL rL lR rR hw hdo hL hR =>
      by_cases hwu : w = u
      · subst hwu
        exact hconcat hw hdo hL hR
      · obtain ⟨hctx, hsteps⟩ := hm.others w hwu
        rw [← hsteps]
        exact .concat (hm.openAt hwu hw) (hctx.symm ▸ hdo) (hctx.symm ▸ hm.settled hL)
          (hctx.symm ▸ hm.settled hR)

/-- Where a task is, and what it is to do there. -/
def Placed (h : Store) (ctxs : Nat → Context) (steps : Nat → Nat) (u : Nat) : Prop :=
  ∃ a x t, OpenAt h ctxs u a x ∧ Plan h ctxs steps (steps u) (some a) t

end Scheduler
