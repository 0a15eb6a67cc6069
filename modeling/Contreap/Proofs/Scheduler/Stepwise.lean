/-
One task on its own, step by step.

The updates are written twice, as recursions and as steps of a context, and a worker may
go over from the steps to the recursion at any point.  Between two steps everything above
the node the task is at is linked (`Spine`), and what is left to do there is one of three
things (`Remaining`): to search on, to link a node whose counter has changed, or to join
two trees.  A step takes one node of the tree that is left away and puts it above, so the
steps come to an end, and wherever they stop, the recursion makes the rest.
-/
import Contreap.Proofs.Scheduler.Complete

namespace Scheduler

open BinaryTree Cartesian PtrHeap Treap

variable {h h' s s' : Store} {N m : Nat} {p q : Ptr} {t goal l r o : BinaryTree Datum}
  {f : BinaryTree Datum → BinaryTree Datum} {a b : Addr} {x y z : Node} {ctx ctx' : Context}
  {S : Set Addr} {d : Datum}

/-! ### The nodes above

Put differently, a spine is a tree with a hole: whatever is put at the node appears in
its place in the tree at the root.
-/

/-- The cells there were at the start. -/
def Old (N : Nat) : Set Addr := {b | b < N}

/-- All nodes above `a` are linked: with `t` at `a`, the pointer shows `f t`. -/
inductive Spine (N : Nat) (h : Store) (a : Addr) :
    Ptr → (BinaryTree Datum → BinaryTree Datum) → Prop
  | here : Spine N h a (some a) id
  | link {b : Addr} {x : Node} {o : BinaryTree Datum} {f : BinaryTree Datum → BinaryTree Datum}
      (left : Bool) (hne : b ≠ a) (hx : h.get? b = some x) (hc : Spine N h a (childPtr left x) f)
      (ho : Rep layout h (Old N) (childPtr (!left) x) o) :
      Spine N h a (some b) fun t => joinSides left x.datum (f t) o

theorem old_subset_off (ha : N ≤ a) : Old N ⊆ Off a := fun _ hb hba =>
  absurd (hba ▸ hb : a < N) (Nat.not_lt.mpr ha)

theorem old_rep (hp : Rep layout h (Old N) p t) (ha : N ≤ a)
    (hsame : ∀ b y, b ≠ a → h.get? b = some y → h'.get? b = some y) : Rep layout h' (Old N) p t :=
  hp.congr fun b y hb hy _ => ⟨y, hsame b y (old_subset_off ha hb) hy, rfl, rfl, rfl⟩

theorem Shows.sides (left : Bool) (hx : h.get? a = some x) (hc : Shows layout h (childPtr left x) t)
    (ho : Shows layout h (childPtr (!left) x) o) :
    Shows layout h (some a) (joinSides left x.datum t o) := by
  cases left
  · exact .node (L := layout) (Set.mem_univ _) hx ho hc
  · exact .node (L := layout) (Set.mem_univ _) hx hc ho

theorem numNodes_joinSides (left : Bool) (d : Datum) (t o : BinaryTree Datum) :
    t.numNodes < (joinSides left d t o).numNodes := by
  cases left
  · simp only [joinSides, Bool.false_eq_true, if_false, numNodes]
    omega
  · simp only [joinSides, if_true, numNodes]
    omega

namespace Spine

/-- The tree is put at the node. -/
theorem close (hs : Spine N h a p f) (ha : N ≤ a)
    (hsame : ∀ b y, b ≠ a → h.get? b = some y → h'.get? b = some y)
    (ht : Shows layout h' (some a) t) : Shows layout h' p (f t) := by
  induction hs with
  | here => exact ht
  | link left hne hx _ ho ih =>
      exact Shows.sides left (hsame _ _ hne hx) ih (old_rep ho ha hsame).shows

/-- The task goes down to a new node. -/
theorem advance (hs : Spine N h a p f) (ha : N ≤ a)
    (hsame : ∀ b y, b ≠ a → h.get? b = some y → h'.get? b = some y) (hlt : a < h.size)
    (left : Bool) (hx : h'.get? a = some x) (hc : childPtr left x = some h.size)
    (ho : Rep layout h' (Old N) (childPtr (!left) x) o) :
    Spine N h' h.size p fun t => f (joinSides left x.datum t o) := by
  induction hs with
  | here =>
      refine .link left (Nat.ne_of_lt hlt) hx ?_ ho
      rw [hc]
      exact .here
  | link left' hne hy _ ho' ih =>
      exact .link left' (Nat.ne_of_lt (Heap.lt_size_of_get? hy)) (hsame _ _ hne hy) ih
        (old_rep ho' ha hsame)

end Spine

/-! ### What is left to do

Here nobody else is about, so what a task reads is there, in old cells, and need not be
planned.
-/

/-- The tree a task still has to make at the node it is at. -/
inductive Remaining (N m : Nat) (h : Store) (ctx : Context) (x : Node) : BinaryTree Datum → Prop
  | search {d : Datum} {l r : BinaryTree Datum} (hdo : Searching ctx x d)
      (hpast : Rep layout h (Old N) ctx.tPast (node d l r))
      (hbound : ∀ e ∈ (node d l r).inorder, e.ver ≤ m) :
      Remaining N m h ctx x (ctx.target (node d l r))
  | setref {d : Datum} {l r : BinaryTree Datum} (hdo : Recounting ctx x d)
      (hpast : Rep layout h (Old N) ctx.tPast (node d l r)) :
      Remaining N m h ctx x (ctx.target (node d l r))
  | concat {dL dR : Datum} {lL rL lR rR : BinaryTree Datum} (hdo : Joining ctx x dL dR)
      (hL : Rep layout h (Old N) ctx.tL (node dL lL rL))
      (hR : Rep layout h (Old N) ctx.tR (node dR lR rR)) :
      Remaining N m h ctx x (concatTree ctx.ver (node dL lL rL) (node dR lR rR))

/-- A task that is not done. -/
structure Working (N m : Nat) (h : Store) (ctx : Context)
    (f : BinaryTree Datum → BinaryTree Datum) (t : BinaryTree Datum) : Prop where
  running : ctx.st ≠ .done
  at_ : ∃ a x, N ≤ a ∧ ctx.tCur = some a ∧ h.get? a = some x ∧ Spine N h a ctx.root f ∧
    Remaining N m h ctx x t

/-- After a step towards the tree `f t`: it is there, or less of it is left. -/
inductive Advanced (N m : Nat) (h : Store) (ctx : Context)
    (f : BinaryTree Datum → BinaryTree Datum) (t : BinaryTree Datum) : Prop
  | done (hst : ctx.st = .done) (hshow : Shows layout h ctx.root (f t))
  | working {f' : BinaryTree Datum → BinaryTree Datum} {t' : BinaryTree Datum}
      (hw : Working N m h ctx f' t') (heq : f' t' = f t) (hlt : t'.numNodes < t.numNodes)

/-- What is left to do is read from old cells, which a step does not write. -/
theorem Remaining.move (hr : Remaining N m h ctx x t) (ha : N ≤ a)
    (hsame : ∀ b y, b ≠ a → h.get? b = some y → h'.get? b = some y) (q w : Ptr) :
    Remaining N m h' { ctx with tCur := q, root := w } x t := by
  cases hr with
  | @search d l r hdo hpast hbound =>
      have hdo' : Searching { ctx with tCur := q, root := w } x d :=
        ⟨hdo.fn, hdo.above, hdo.dir, hdo.copy⟩
      exact .search hdo' (old_rep hpast ha hsame) hbound
  | @setref d l r hdo hpast =>
      have hdo' : Recounting { ctx with tCur := q, root := w } x d :=
        ⟨hdo.fn, hdo.top, hdo.key, hdo.keep, hdo.copy⟩
      exact .setref hdo' (old_rep hpast ha hsame)
  | @concat dL dR lL rL lR rR hdo hL hR =>
      have hdo' : Joining { ctx with tCur := q, root := w } x dL dR := ⟨hdo.fn, hdo.dir, hdo.copy⟩
      exact .concat hdo' (old_rep hL ha hsame) (old_rep hR ha hsame)

/-! ### The calls below -/

/-- What `update` or `concat` returns: the tree, or a new node with the rest to do. -/
inductive Reached (N m : Nat) (s s' : Store) (S : Set Addr) (ctx ctx' : Context) (q : Ptr)
    (goal : BinaryTree Datum) : Prop
  | closed (hst : ctx'.st = .done) (hq : Rep layout s' S q goal)
  | opened {z : Node} (hst : ctx'.st = ctx.st) (hq : q = some s.size)
      (hz : s'.get? s.size = some z) (hdo : Remaining N m s' ctx' z goal)

theorem reached_concat {L R : BinaryTree Datum} (hS : Old N ⊆ S)
    (hfn : ctx.fn = .concat) (hL : Rep layout s (Old N) ctx.tL L)
    (hR : Rep layout s (Old N) ctx.tR R) :
    ∃ s' ctx' q, concat s ctx = some (s', ctx', q) ∧ Grows s s' ∧ SameTask ctx ctx' ∧
      Reached N m s s' S ctx ctx' q (concatTree ctx.ver L R) := by
  obtain ⟨s', ctx', q, hrun, hgrow, hsame, -, hj⟩ := concat_spec (F := fun _ => True) hfn hL hR
    (fun _ _ => trivial) fun _ _ => trivial
  refine ⟨s', ctx', q, hrun, hgrow, hsame, ?_⟩
  cases hj with
  | closed hc => exact .closed hc.st (hc.shows.mono hS)
  | opened ho hdo hL' hR' _ _ hgoal =>
      rw [hgoal, ← hsame.ver]
      exact .opened ho.running ho.ptr ho.cell (.concat hdo hL' hR')

/-- The cases are those of `update_`, with the wait over from the start. -/
theorem reached_update (hS : ∀ a, s.size ≤ a → a ∈ S) (hold : Old N ⊆ S)
    (hfn : ctx.fn = .search) (hp : Rep layout s (Old N) ctx.tPast t)
    (hbound : ∀ e ∈ t.inorder, e.ver ≤ m) :
    ∃ s' ctx' q, update s m ctx = some (s', ctx', q) ∧ Grows s s' ∧ SameTask ctx ctx' ∧
      Reached N m s s' S ctx ctx' q (ctx.target t) := by
  have hsees : Sees s S (fun _ => True) m ctx.tPast t := by
    constructor
    · rintro rfl
      exact hp.of_nil
    · rintro d l r rfl
      obtain ⟨b, y, hb, -, hy, hd, -⟩ := hp.of_node
      exact ⟨b, y, hb, hy, hd⟩
    · intro d l r _ _
      exact ⟨hp.mono hold, fun _ _ => trivial⟩
  rcases update_spec hfn hS hsees with ⟨d, l, r, rfl, hwait, -⟩ |
    ⟨s', ctx', q, hrun, hgrow, hsame, -, hout⟩
  · exact absurd (forall_mem_inorder_node.mp hbound).1 (Nat.not_le.mpr hwait)
  · refine ⟨s', ctx', q, hrun, hgrow, hsame, ?_⟩
    cases hout with
    | joined hj =>
        cases hj with
        | closed hc => exact .closed hc.st hc.shows
        | opened ho hdo hL hR _ _ hgoal =>
            obtain ⟨b, y, hpast, hy, -, -, htL, htR⟩ := update_joins hfn hrun hdo.fn
            rw [hpast] at hp
            obtain ⟨y', l, r, -, hy', -, hl, hr⟩ := hp.of_some
            obtain rfl := Option.some.inj (hy.symm.trans hy')
            -- The trees joined are the subtrees of the node, which are old.
            have hl' := hl.preserved hgrow.preserves
            have hr' := hr.preserved hgrow.preserves
            rw [layout_lch, ← htL] at hl'
            rw [layout_rch, ← htR] at hr'
            obtain rfl := hL.unique hl'
            obtain rfl := hR.unique hr'
            rw [hgoal, ← hsame.ver]
            exact .opened ho.running ho.ptr ho.cell (.concat hdo hl' hr')
    | kept hst _ hq hgoal =>
        refine .closed hst ?_
        rw [hgoal, hq]
        exact (hp.mono hold).preserved hgrow.preserves
    | search ho ht hdo =>
        subst ht
        rw [← hsame.target]
        refine .opened ho.running ho.ptr ho.cell (.search hdo ?_ hbound)
        rw [hsame.tPast]
        exact hp.preserved hgrow.preserves
    | setref ho ht hdo =>
        subst ht
        rw [← hsame.target]
        refine .opened ho.running ho.ptr ho.cell (.setref hdo ?_)
        rw [hsame.tPast]
        exact hp.preserved hgrow.preserves

/-! ### One step

The step closes the spine at the node it leaves and opens it at the new one.  What is
left has become smaller, since the new goal is that of a subtree.
-/

/-- What a call below a node returns is linked there, and the task is done. -/
theorem Spine.returned {oPtr : Ptr} (left : Bool) (hspine : Spine N h a p f) (ha : N ≤ a)
    (hx : h.get? a = some x) (ho : Rep layout h (Old N) oPtr o)
    (hgrow : Grows (setChild (!left) h a oPtr) s') (hq : Rep layout s' (Off a) q goal) :
    Shows layout (setChild left s' a q) p (f (joinSides left x.datum goal o)) := by
  obtain ⟨har, x', hx', hdatum, hq', ho'⟩ := around_setChild left hx oPtr hgrow q
  have hcells : ∀ b y, b ≠ a → h.get? b = some y → (setChild left s' a q).get? b = some y :=
    fun b y hb hy => har.cells hb hy
  rw [← hdatum]
  refine hspine.close ha hcells (Shows.sides left hx' ?_ ?_)
  · rw [hq']
    exact (hq.congr fun b y hb hy _ => ⟨y, (har.after b hb).trans hy, rfl, rfl, rfl⟩).shows
  · rw [ho']
    exact (old_rep ho ha hcells).shows

/-- What is returned by a call made below the node is linked there. -/
theorem Reached.advanced {ctx₁ : Context} {oPtr : Ptr} (left : Bool)
    (hreach : Reached N m (setChild (!left) h a oPtr) s' (Off a) ctx₁ ctx' q goal)
    (ha : N ≤ a) (hx : h.get? a = some x) (hspine : Spine N h a ctx₁.root f)
    (hrun : ctx₁.st ≠ .done) (ho : Rep layout h (Old N) oPtr o)
    (hgrow : Grows (setChild (!left) h a oPtr) s') (hsame : SameTask ctx₁ ctx') :
    Advanced N m (setChild left s' a q) { ctx' with tCur := q } f
      (joinSides left x.datum goal o) := by
  obtain ⟨har, x', hx', hdatum, hq', ho'⟩ := around_setChild left hx oPtr hgrow q
  have hcells : ∀ b y, b ≠ a → h.get? b = some y → (setChild left s' a q).get? b = some y :=
    fun b y hb hy => har.cells hb hy
  have hlt : a < h.size := Heap.lt_size_of_get? hx
  rw [← hdatum]
  cases hreach with
  | closed hst hq =>
      refine .done hst ?_
      show Shows layout _ ctx'.root _
      rw [hsame.root, hdatum]
      exact hspine.returned left ha hx ho hgrow hq
  | @opened z hst hq hz hdo =>
      rw [har.size] at hq hz
      have hcell : (setChild left s' a q).get? h.size = some z :=
        (har.after _ (Nat.ne_of_gt hlt)).trans hz
      have hw : Working N m (setChild left s' a q) { ctx' with tCur := q }
          (fun t => f (joinSides left x'.datum t o)) goal := ?_
      · exact .working hw rfl (numNodes_joinSides left _ _ _)
      refine ⟨?_, ?_⟩
      · show ctx'.st ≠ .done
        rw [hst]
        exact hrun
      · refine ⟨h.size, z, ha.trans (Nat.le_of_lt hlt), hq, hcell, ?_, ?_⟩
        · show Spine N _ _ ctx'.root _
          rw [hsame.root]
          refine hspine.advance ha hcells hlt left hx' (hq'.trans hq) ?_
          rw [ho']
          exact old_rep ho ha hcells
        · exact hdo.move ha (fun b y hb hy => (har.after b hb).trans hy) q ctx'.root

/-- The children of an old node, on both sides. -/
theorem old_sides (left : Bool) (hl : Rep layout h S y.lch l) (hr : Rep layout h S y.rch r) :
    Rep layout h S (childPtr left y) (if left then l else r) ∧
      Rep layout h S (childPtr (!left) y) (if left then r else l) := by
  cases left
  · exact ⟨hr, hl⟩
  · exact ⟨hl, hr⟩

theorem fresh_off (left : Bool) (hx : h.get? a = some x) (p : Ptr) :
    ∀ b, (setChild left h a p).size ≤ b → b ∈ Off a := by
  intro b hb hba
  rw [size_setChild] at hb
  exact absurd (hba ▸ Heap.lt_size_of_get? hx) (Nat.not_lt.mpr hb)

theorem old_setChild (left : Bool) (ha : N ≤ a) (hp : Rep layout h (Old N) p t) (q : Ptr) :
    Rep layout (setChild left h a q) (Old N) p t :=
  old_rep hp ha fun _ _ hb hy => (get?_setChild_of_ne left hb q).trans hy

/-- Both links of a node are set at once. -/
theorem Spine.close_both {d : Datum} (hspine : Spine N h a p f) (ha : N ≤ a)
    (hx : h.get? a = some x) (hdo : Recounting ctx x d) (hl : Rep layout h (Old N) y.lch l)
    (hr : Rep layout h (Old N) y.rch r) :
    Shows layout (setRch (setLch h a y.lch) a y.rch) p (f (ctx.target (node d l r))) := by
  have hoff : Old N ⊆ Set.univ \ {a} := fun b hb => ⟨Set.mem_univ b, old_subset_off ha hb⟩
  refine hspine.close ha (fun b z hb hz => ?_) ?_
  · rw [setRch, Heap.get?_modify_of_ne hb, setLch, Heap.get?_modify_of_ne hb, hz]
  · rw [hdo.target]
    exact Rep.placeBoth (Set.mem_univ a) hx (hl.mono hoff) (hr.mono hoff)

/-- The two trees that are joined below a node, and the one that stays. -/
theorem old_join_sides {dL dR : Datum} {lL rL lR rR : BinaryTree Datum} (left : Bool)
    (hL : Rep layout h S ctx.tL (node dL lL rL)) (hR : Rep layout h S ctx.tR (node dR lR rR)) :
    ∃ b y, (if left then ctx.tR else ctx.tL) = some b ∧ h.get? b = some y ∧
      Rep layout h S (joinBelow left ctx (childPtr left y)).tL (if left then node dL lL rL else rL) ∧
      Rep layout h S (joinBelow left ctx (childPtr left y)).tR (if left then lR else node dR lR rR) ∧
      Rep layout h S (childPtr (!left) y) (if left then rR else lL) := by
  cases left
  · obtain ⟨b, y, hb, -, hy, -, hl, hr⟩ := hL.of_node
    exact ⟨b, y, hb, hy, hr, hR, hl⟩
  · obtain ⟨b, y, hb, -, hy, -, hl, hr⟩ := hR.of_node
    exact ⟨b, y, hb, hy, hL, hl, hr⟩

/-- **A step is defined, and leaves less to do.** -/
theorem Working.step (hw : Working N m h ctx f t) :
    ∃ h' ctx', executeOneStep h m ctx = some (h', ctx') ∧ Advanced N m h' ctx' f t := by
  obtain ⟨hrun, a, x, ha, hcur, hx, hspine, hrem⟩ := hw
  obtain ⟨left, hdir⟩ : ∃ left, left = decide (ctx.dir = .left) := ⟨_, rfl⟩
  cases hrem with
  | @search d l r hdo hpast hbound =>
      obtain ⟨b, y, hb, -, hy, rfl, hl, hr⟩ := hpast.of_node
      obtain ⟨hc, ho⟩ := old_sides left hl hr
      have hbound' : ∀ e ∈ (if left then l else r).inorder, e.ver ≤ m := by
        obtain ⟨-, hbl, hbr⟩ := forall_mem_inorder_node.mp hbound
        cases left
        · exact hbr
        · exact hbl
      obtain ⟨s', ctx', q, hupd, hgrow, hsame, hreach⟩ :=
        reached_update (fresh_off (!left) hx (childPtr (!left) y)) (old_subset_off ha)
          (show ({ ctx with tPast := childPtr left y } : Context).fn = .search from hdo.fn)
          (old_setChild (!left) ha hc (childPtr (!left) y)) hbound'
      refine ⟨setChild left s' a q, { ctx' with tCur := q }, ?_, ?_⟩
      · rw [executeOneStep_search m left hdo.fn hdir hcur hb hy, hupd, Option.bind_some]
      · rw [hdo.target_sides left hdir]
        exact hreach.advanced left ha hx hspine hrun ho hgrow hsame
  | setref hdo hpast =>
      obtain ⟨b, y, hb, -, hy, rfl, hl, hr⟩ := hpast.of_node
      refine ⟨_, _, executeOneStep_setref hdo.fn hcur hb hy, .done rfl ?_⟩
      exact hspine.close_both ha hx hdo hl hr
  | concat hdo hL hR =>
      obtain ⟨b, y, hb, hy, hL', hR', ho⟩ := old_join_sides left hL hR
      obtain ⟨hst, -, hver, hroot, hfn, -⟩ := joinBelow_task left ctx (childPtr left y)
      obtain ⟨s', ctx', q, hcon, hgrow, hsame, hreach⟩ :=
        reached_concat (m := m) (old_subset_off ha)
          (hfn.trans hdo.fn) (old_setChild (!left) ha hL' (childPtr (!left) y))
          (old_setChild (!left) ha hR' (childPtr (!left) y))
      refine ⟨setChild left s' a q, { ctx' with tCur := q }, ?_, ?_⟩
      · rw [executeOneStep_concat left hdo.fn hdir hcur hb hy, hcon, Option.bind_some]
      · rw [hdo.concat_sides left hdir, ← hver]
        exact hreach.advanced left ha hx (hroot ▸ hspine) (hst ▸ hrun) ho hgrow hsame

/-- **The recursion makes the rest**, whatever the point it goes over at. -/
theorem Working.complete (hw : Working N m h ctx f t) :
    ∃ h' ctx', executeToComplete h ctx = some (h', ctx') ∧ ctx'.st = .done ∧
      Shows layout h' ctx'.root (f t) := by
  obtain ⟨hrun, a, x, ha, hcur, hx, hspine, hrem⟩ := hw
  obtain ⟨left, hdir⟩ : ∃ left, left = decide (ctx.dir = .left) := ⟨_, rfl⟩
  cases hrem with
  | @search d l r hdo hpast hbound =>
      obtain ⟨b, y, hb, -, hy, rfl, hl, hr⟩ := hpast.of_node
      obtain ⟨hc, ho⟩ := old_sides left hl hr
      obtain ⟨s', q, hrest, hgrow, hq⟩ := searchRest_spec { ctx with tPast := childPtr left y }
        (fresh_off (!left) hx (childPtr (!left) y))
        ((old_setChild (!left) ha hc (childPtr (!left) y)).mono (old_subset_off ha))
      refine ⟨setChild left s' a q, ({ ctx with tPast := childPtr left y }).done, ?_, rfl, ?_⟩
      · rw [executeToComplete_search left hdo.fn hdir hcur hb hy, hrest, Option.bind_some]
      · rw [hdo.target_sides left hdir]
        exact hspine.returned left ha hx ho hgrow hq
  | setref hdo hpast =>
      obtain ⟨b, y, hb, -, hy, rfl, hl, hr⟩ := hpast.of_node
      refine ⟨_, _, executeToComplete_setref hdo.fn hcur hb hy, rfl, ?_⟩
      exact hspine.close_both ha hx hdo hl hr
  | concat hdo hL hR =>
      obtain ⟨b, y, hb, hy, hL', hR', ho⟩ := old_join_sides left hL hR
      obtain ⟨hst, -, hver, hroot, hfn, -⟩ := joinBelow_task left ctx (childPtr left y)
      have hL'' := (old_setChild (!left) ha hL' (childPtr (!left) y)).mono (old_subset_off ha)
      have hR'' := (old_setChild (!left) ha hR' (childPtr (!left) y)).mono (old_subset_off ha)
      have hroom := Nat.add_lt_add (Nat.lt_succ_of_le hL''.height_le) (Nat.lt_succ_of_le hR''.height_le)
      obtain ⟨s', q, hcon, hgrow, hq⟩ := processConcat_spec (joinBelow left ctx (childPtr left y)).ver
        (fresh_off (!left) hx (childPtr (!left) y)) hL'' hR'' hroom
      refine ⟨setChild left s' a q, (joinBelow left ctx (childPtr left y)).done, ?_, rfl, ?_⟩
      · rw [executeToComplete_concat left hdo.fn hdir hcur hb hy]
        exact Option.bind_eq_some_iff.mpr ⟨_, hcon, rfl⟩
      · rw [hdo.concat_sides left hdir, ← hver]
        show Shows layout _ (joinBelow left ctx (childPtr left y)).root _
        rw [hroot]
        exact hspine.returned left ha hx ho hgrow hq

/-! ### Whole runs

The master starts the task, some steps are taken, and then the recursion takes over, or
nothing is left for it.
-/

/-- `execute_one_step_` so many times, or until the task is done. -/
def oneSteps (m : Nat) : Nat → Store → Context → Option (Store × Context)
  | 0, s, ctx => some (s, ctx)
  | k + 1, s, ctx =>
      if ctx.st = .done then some (s, ctx)
      else (executeOneStep s m ctx).bind fun x => oneSteps m k x.1 x.2

/-- The steps, and what they leave to `execute_to_complete_`. -/
def handOver (m k : Nat) (s : Store) (ctx : Context) : Option (Store × Context) :=
  (oneSteps m k s ctx).bind fun x =>
    if x.2.st = .done then some x else executeToComplete x.1 x.2

/-- A context as `init_context_` sets it up. -/
def started (op : Operation) (ver : Nat) (pry key : UInt64) (t : Ptr) : Context where
  op := op
  ver := ver
  pry := pry
  key := key
  tPast := t

/-- `update_` at the root. -/
def startTask (m : Nat) (s : Store) (ctx : Context) : Option (Store × Context) :=
  (update s m ctx).bind fun x => some (x.1, { x.2.1 with root := x.2.2, tCur := x.2.2 })

/-- On the way to the tree, or there. -/
def Heading (N m : Nat) (h : Store) (ctx : Context) (t : BinaryTree Datum) : Prop :=
  (ctx.st = .done ∧ Shows layout h ctx.root t) ∨ ∃ f t', Working N m h ctx f t' ∧ f t' = t

theorem Advanced.heading (h' : Advanced N m h ctx f t) : Heading N m h ctx (f t) := by
  cases h' with
  | done hst hshow => exact Or.inl ⟨hst, hshow⟩
  | working hw heq _ => exact Or.inr ⟨_, _, hw, heq⟩

/-- The first call is at the root, where the spine is empty. -/
theorem startTask_heading (m : Nat) (ctx : Context) (hst : ctx.st ≠ .done) (hfn : ctx.fn = .search)
    (hshow : Shows layout h ctx.tPast t) (hbound : ∀ e ∈ t.inorder, e.ver ≤ m) :
    ∃ h' ctx', startTask m h ctx = some (h', ctx') ∧ Heading h.size m h' ctx' (ctx.target t) := by
  have hold : Rep layout h (Old h.size) ctx.tPast t :=
    hshow.allocated.mono fun _ hb => hb.2
  obtain ⟨s', ctx', q, hupd, -, hsame, hreach⟩ :=
    reached_update (S := Set.univ) (fun b _ => Set.mem_univ b) (Set.subset_univ _) hfn hold hbound
  refine ⟨s', { ctx' with root := q, tCur := q }, ?_, ?_⟩
  · rw [startTask, hupd, Option.bind_some]
  cases hreach with
  | closed hst' hq => exact Or.inl ⟨hst', hq⟩
  | @opened z hst' hq hz hdo =>
      refine Or.inr ⟨id, _, ⟨?_, h.size, z, Nat.le_refl _, hq, hz, ?_, ?_⟩, rfl⟩
      · show ctx'.st ≠ .done
        rwa [hst']
      · show Spine h.size s' h.size q id
        rw [hq]
        exact .here
      · exact hdo.move (Nat.le_refl _) (fun _ _ _ hy => hy) q q

/-- What connects `startTask` to the threads: it is how the master starts a task. -/
theorem initContext_start (s : State) (ctx : Context) :
    initContext.start s ctx = (startTask s.numCommitted s.heap ctx).map (initContext.issue s) := by
  rw [initContext.start, startTask, Option.bind_eq_bind, Option.map_bind]
  rfl

/-- Every step keeps the tree that the task is heading for. -/
theorem oneSteps_heading (k : Nat) (hh : Heading N m h ctx t) :
    ∃ h' ctx', oneSteps m k h ctx = some (h', ctx') ∧ Heading N m h' ctx' t := by
  induction k generalizing h ctx with
  | zero => exact ⟨h, ctx, rfl, hh⟩
  | succ k ih =>
      rcases hh with ⟨hst, hshow⟩ | ⟨f, t', hw, rfl⟩
      · refine ⟨h, ctx, ?_, Or.inl ⟨hst, hshow⟩⟩
        rw [oneSteps, if_pos hst]
      · obtain ⟨h₁, ctx₁, hrun, hadv⟩ := hw.step
        obtain ⟨h', ctx', hrest, hh'⟩ := ih hadv.heading
        refine ⟨h', ctx', ?_, hh'⟩
        rw [oneSteps, if_neg hw.running, hrun]
        exact hrest

/-- The steps come to an end, because each leaves less to do. -/
theorem Working.finish (hw : Working N m h ctx f t) :
    ∃ k h' ctx', oneSteps m k h ctx = some (h', ctx') ∧ ctx'.st = .done := by
  induction hn : t.numNodes using Nat.strong_induction_on generalizing h ctx f t with
  | _ n ih =>
      obtain ⟨h₁, ctx₁, hrun, hadv⟩ := hw.step
      cases hadv with
      | done hst _ =>
          refine ⟨1, h₁, ctx₁, ?_, hst⟩
          rw [oneSteps, if_neg hw.running, hrun]
          rfl
      | working hw' _ hlt =>
          obtain ⟨k, h', ctx', hrest, hst⟩ := ih _ (hn ▸ hlt) hw' rfl
          refine ⟨k + 1, h', ctx', ?_, hst⟩
          rw [oneSteps, if_neg hw.running, hrun]
          exact hrest

/--
**The steps and the recursion make the same tree**, from whatever point on the recursion
takes over, and the steps alone come to an end.
-/
theorem stepwise_eq_recursive (m : Nat) (op : Operation) (ver : Nat) (pry key : UInt64)
    (hshow : Shows layout h p t) (hbound : ∀ e ∈ t.inorder, e.ver ≤ m) :
    ∃ s' q goal h₁ ctx₁, searchRest h (started op ver pry key p) = some (s', q) ∧
      Shows layout s' q goal ∧ startTask m h (started op ver pry key p) = some (h₁, ctx₁) ∧
      (∀ k, ∃ h' ctx', handOver m k h₁ ctx₁ = some (h', ctx') ∧ ctx'.st = .done ∧
        Shows layout h' ctx'.root goal) ∧
      ∃ k h' ctx', oneSteps m k h₁ ctx₁ = some (h', ctx') ∧ ctx'.st = .done := by
  obtain ⟨s', q, hrest, -, hq⟩ :=
    searchRest_spec (started op ver pry key p) (fun b _ => Set.mem_univ b) hshow
  obtain ⟨h₁, ctx₁, hstart, hh⟩ :=
    startTask_heading m (started op ver pry key p) (show Status.running ≠ .done by decide) rfl hshow
      hbound
  refine ⟨s', q, _, h₁, ctx₁, hrest, hq, hstart, fun k => ?_, ?_⟩
  · obtain ⟨h₂, ctx₂, hsteps, hh₂⟩ := oneSteps_heading k hh
    rcases hh₂ with ⟨hst, hroot⟩ | ⟨f, t', hw, heq⟩
    · refine ⟨h₂, ctx₂, ?_, hst, hroot⟩
      rw [handOver, hsteps, Option.bind_some, if_pos hst]
    · obtain ⟨h', ctx', hrun, hst, hroot⟩ := hw.complete
      refine ⟨h', ctx', ?_, hst, heq ▸ hroot⟩
      rw [handOver, hsteps, Option.bind_some, if_neg hw.running, hrun]
  · rcases hh with ⟨hst, -⟩ | ⟨f, t', hw, -⟩
    · exact ⟨0, h₁, ctx₁, rfl, hst⟩
    · exact hw.finish

/-- Key `9` above key `7`, which is held once. -/
def pair : Store := ⟨#[⟨0, 7, 7, 1, 1, none, none⟩, ⟨0, 9, 9, 1, 2, some 0, none⟩]⟩

theorem pair_shows :
    Shows layout pair (some 1) (node ⟨0, 9, 9, 1⟩ (node ⟨0, 7, 7, 1⟩ nil nil) nil) := by
  have hleaf : Shows layout pair (some 0) (node ⟨0, 7, 7, 1⟩ nil nil) :=
    .node (L := layout) (x := ⟨0, 7, 7, 1, 1, none, none⟩) (Set.mem_univ _) rfl .nil .nil
  exact .node (L := layout) (x := ⟨0, 9, 9, 1, 2, some 0, none⟩) (Set.mem_univ _) rfl hleaf .nil

/-- The lower key is deleted: one step at the copy of the root, or none. -/
theorem stepwise_eq_recursive_pair :
    ∃ s' q goal h₁ ctx₁, searchDelete 3 pair 1 (some 1) 7 7 = some (s', q) ∧
      Shows layout s' q goal ∧ startTask 0 pair (started .delete 1 7 7 (some 1)) = some (h₁, ctx₁) ∧
      ctx₁.st = .running ∧ ∀ k, ∃ h' ctx', handOver 0 k h₁ ctx₁ = some (h', ctx') ∧
        Shows layout h' ctx'.root goal := by
  obtain ⟨s', q, goal, h₁, ctx₁, hrest, hq, hstart, hall, -⟩ :=
    stepwise_eq_recursive 0 .delete 1 7 7 pair_shows (by decide)
  refine ⟨s', q, goal, h₁, ctx₁, hrest, hq, hstart, ?_, fun k => ?_⟩
  · cases hstart
    rfl
  · obtain ⟨h', ctx', hrun, -, hroot⟩ := hall k
    exact ⟨h', ctx', hrun, hroot⟩

end Scheduler
