/-
Reading a tree that tasks are at work in.

A client goes down from a root node by node, and the threads of the scheduler take steps
in between.  What a pointer stands for does not change by any of these (`Change.plans`),
so a search that has come to a pointer is in the same tree after them.  What a read comes
to is therefore a matter of the one node it reads (`Inv.read`).  A node that no running
task is at has all its fields.  Of a node that a task is at the key is there, and its
links and its counter are as far as the task has come with them: a link is null until it
is written, and leads into the tree of the version from then on.
-/
import Contreap.Proofs.Scheduler.Threads

namespace Scheduler

open BinaryTree Cartesian PtrHeap Treap

variable {c : Config} {T : Nat → BinaryTree Datum} {s s' : State} {steps steps' : Nat → Nat}
  {h h' : Store} {ctxs : Nat → Context} {n u : Nat} {p : Ptr} {a : Addr} {x : Node}
  {t : BinaryTree Datum} {act : Action} {m : Moment} {key : UInt64}

/-! ### Between two reads

A client holds a pointer while the threads take any number of steps.  It stands for the
same tree all the while.
-/

/-- **What a pointer stands for it stands for after every step.** -/
theorem Change.plans (hinv : Inv c T s steps) (hchange : Change act s steps s' steps')
    (hp : Plan s.heap s.ctxs steps n p t) : Plan s'.heap s'.ctxs steps' n p t := by
  cases hchange with
  | same hheap hctxs _ hsteps =>
      rw [hheap, hctxs, hsteps]
      exact hp
  | moved _ heff hheap hctxs _ hsteps =>
      rw [hheap, hctxs, hsteps]
      exact heff.plans hp
  | @staged u k hheap hctxs _ hu hrun hsteps =>
      obtain ⟨b, y, hopen⟩ := (hinv.trees.placed u hu hrun).open
      rw [hheap, hctxs, hsteps]
      exact hp.restage hopen _
  | issued _ _ _ hm =>
      have hnew := (hinv.trees.unissued _ (Nat.lt_succ_self s.numIssued)).1
      exact hp.start hnew hm
  | @augmented _ task _ _ _ hrun hctxs _ hsteps =>
      obtain ⟨y, hy, hsame⟩ := hinv.augment_root task
      obtain rfl := Option.some.inj (hy.symm.trans hrun)
      rw [hctxs, hsteps]
      exact hp.onlyAug hsame

/-! ### A node half linked

The link that is written first is the one the task takes over as it is, so that it
stands for what it should as soon as it is there.
-/

/-- A thread comes to the step of a task when the task it reads of is done or ahead. -/
theorem Inv.coming (hinv : Inv c T s steps) (hcome : comingTask c s act = some u) :
    u ≤ s.numIssued ∧ ¬ Finished s.ctxs u ∧
      ∀ b y, (s.ctxs u).tPast = some b → s.heap.get? b = some y →
        Finished s.ctxs y.ver ∨ steps u < steps y.ver := by
  have hreads : u ≤ s.numIssued → ¬ Finished s.ctxs u → ∀ b y, (s.ctxs u).tPast = some b →
      s.heap.get? b = some y → y.ver < u := by
    intro hu hrun b y hb hy
    obtain ⟨b', y', hb', hy', hlt⟩ := hinv.trees.reads hu hrun
    obtain rfl : b = b' := Option.some.inj (hb.symm.trans hb')
    obtain rfl := Option.some.inj (hy.symm.trans hy')
    exact hlt
  cases act with
  | pipe id =>
      simp only [comingTask] at hcome
      split at hcome
      case isFalse => cases hcome
      next hgo =>
      obtain ⟨hid, hat, hrun⟩ := hgo
      obtain ⟨i, rfl⟩ : ∃ i, id = i + 1 := ⟨id - 1, by omega⟩
      obtain rfl := Option.some.inj hcome
      have hissued := (hinv.pipe_pos hid.2 hat).2.1
      refine ⟨hissued, hrun, fun b y hb hy => ?_⟩
      exact hinv.pipe_ahead hid.2 hat hrun y.ver (hreads hissued hrun b y hb hy)
  | worker id =>
      have hknows := hinv.crew.knows id
      simp only [comingTask] at hcome
      split at hcome
      · next n hat =>
          obtain ⟨v, hv, hcome⟩ := Option.bind_eq_some_iff.mp hcome
          split at hcome
          case isFalse => cases hcome
          next hle =>
          obtain rfl := Option.some.inj hcome
          rw [hat] at hknows
          obtain ⟨-, -, hsub, -, hrun, -⟩ := hknows
          refine ⟨hsub.trans hinv.flow.submitted_le_issued, hrun, fun b y hb hy => Or.inl ?_⟩
          obtain ⟨b', y', hb', hy', hver⟩ := vdep_eq_some.mp hv
          obtain rfl : b = b' := Option.some.inj (hb.symm.trans hb')
          obtain rfl := Option.some.inj (hy.symm.trans hy')
          exact hinv.trees.committed y.ver (hver ▸ hle)
      · next n hat =>
          obtain ⟨v, hv, hcome⟩ := Option.bind_eq_some_iff.mp hcome
          split at hcome
          · cases hcome
          next hstage =>
          obtain rfl := Option.some.inj hcome
          rw [hat] at hknows
          obtain ⟨-, -, hsub, -, hrun, -⟩ := hknows
          have hissued := hsub.trans hinv.flow.submitted_le_issued
          refine ⟨hissued, hrun, fun b y hb hy => ?_⟩
          have hlt := hreads hissued hrun b y hb hy
          obtain ⟨b', y', hb', hy', hver⟩ := vdep_eq_some.mp hv
          obtain rfl : b = b' := Option.some.inj (hb.symm.trans hb')
          obtain rfl := Option.some.inj (hy.symm.trans hy')
          rw [← hver] at hstage
          exact hinv.worker_ahead rfl hat hlt (Bool.not_eq_true _ ▸ hstage)
      · cases hcome
  | master => cases hcome
  | unblock id => cases hcome
  | boarder => cases hcome
  | collector => cases hcome

/-- **The first link leads into the tree that the task's node stands for.** -/
theorem OpenAt.firstLink (hu : OpenAt h ctxs u a x) (hp : Plan h ctxs steps n (some a) t)
    (hahead : ∀ b y, (ctxs u).tPast = some b → h.get? b = some y →
      Finished ctxs y.ver ∨ steps u < steps y.ver)
    (hrun : firstLink h (ctxs u) = some h') :
    ∃ first q l r, h' = setChild first h a q ∧
      (ctxs u).firstSide = (if first then .left else .right) ∧ t = node x.datum l r ∧
      Plan h ctxs steps (n + 1) q (if first then l else r) := by
  have hsame : ∀ {w : Nat} {z : Node}, OpenAt h ctxs w a z → w = u ∧ z = x := by
    intro w z hw
    obtain rfl := Option.some.inj (hw.cell.symm.trans hu.cell)
    exact ⟨hw.ver.symm.trans hu.ver, rfl⟩
  -- What the task reads is linked, and so are its children.
  have hchildren : ∀ {d : Datum} {l r : BinaryTree Datum},
      Plan h ctxs steps (steps u) (ctxs u).tPast (node d l r) →
      ∃ b y, (ctxs u).tPast = some b ∧ h.get? b = some y ∧
        Plan h ctxs steps (steps u + 1) y.lch l ∧ Plan h ctxs steps (steps u + 1) y.rch r := by
    intro d l r hpast
    obtain ⟨b, y, hb, hy, rfl⟩ := hpast.of_node
    rw [hb] at hpast
    exact ⟨b, y, hb, hy, hpast.children hy (hahead b y hb hy)⟩
  unfold Scheduler.firstLink at hrun
  unfold Context.firstSide
  generalize hq : some a = q at hp
  cases hp with
  | settled hs =>
      subst hq
      obtain ⟨z, l, r, -, hz, rfl, -, -⟩ := hs.shows.of_some
      obtain rfl := Option.some.inj (hz.symm.trans hu.cell)
      have hfin := (forall_mem_inorder_node.mp hs.finished).1
      exact absurd hfin (by rw [layout_shown, datum_ver, hu.ver]; exact hu.running)
  | linked _ hleft =>
      obtain rfl := Option.some.inj hq
      exact absurd hu.cur (hleft u hu.running)
  | @search w v b z d l r hw hdo hpast =>
      obtain rfl := Option.some.inj hq
      obtain ⟨rfl, rfl⟩ := hsame hw
      obtain ⟨b, y, hb, hy, hl, hr⟩ := hchildren hpast
      have hfn : (ctxs w).fn ≠ .setref := by
        rw [hdo.fn]
        decide
      simp only [hdo.fn, hw.cur, hb, hy, Option.bind_eq_bind, Option.bind_some] at hrun
      rw [if_neg hfn]
      by_cases hdir : (ctxs w).dir = .left
      · rw [if_pos hdir] at hrun ⊢
        exact ⟨false, y.rch, _, r, (Option.some.inj hrun).symm, rfl, hdo.target_left hdir, hr⟩
      · rw [if_neg hdir] at hrun ⊢
        exact ⟨true, y.lch, l, _, (Option.some.inj hrun).symm, rfl, hdo.target_right hdir, hl⟩
  | @setref w v b z d l r hw hdo hpast =>
      obtain rfl := Option.some.inj hq
      obtain ⟨rfl, rfl⟩ := hsame hw
      obtain ⟨b, y, hb, hy, hl, -⟩ := hchildren hpast
      simp only [hdo.fn, hw.cur, hb, hy, Option.bind_eq_bind, Option.bind_some] at hrun
      rw [if_pos hdo.fn]
      exact ⟨true, y.lch, l, r, (Option.some.inj hrun).symm, rfl, hdo.target, hl⟩
  | @concat w b z dL dR lL rL lR rR hw hdo hL hR =>
      obtain rfl := Option.some.inj hq
      obtain ⟨rfl, rfl⟩ := hsame hw
      have hfn : (ctxs w).fn ≠ .setref := by
        rw [hdo.fn]
        decide
      simp only [hdo.fn, hw.cur, Option.bind_eq_bind, Option.bind_some] at hrun
      rw [if_neg hfn]
      by_cases hdir : (ctxs w).dir = .left
      · obtain ⟨b, y, hb, -, hy, -⟩ := hR.shows.of_node
        rw [hb] at hR
        obtain ⟨-, -, hr⟩ := hR.left hy
        simp only [hb, hy, if_pos hdir, Option.bind_some] at hrun
        rw [if_pos hdir]
        have htree : concatTree (ctxs w).ver (node dL lL rL) (node dR lR rR)
            = node z.datum (concatTree (ctxs w).ver (node dL lL rL) lR) rR := hdo.concat_left hdir
        rw [hw.self] at htree
        exact ⟨false, y.rch, _, rR, (Option.some.inj hrun).symm, rfl, htree, .settled hr⟩
      · obtain ⟨b, y, hb, -, hy, -⟩ := hL.shows.of_node
        rw [hb] at hL
        obtain ⟨-, hl, -⟩ := hL.left hy
        simp only [hb, hy, if_neg hdir, Option.bind_some] at hrun
        rw [if_neg hdir]
        have htree : concatTree (ctxs w).ver (node dL lL rL) (node dR lR rR)
            = node z.datum lL (concatTree (ctxs w).ver rL (node dR lR rR)) := hdo.concat_right hdir
        rw [hw.self] at htree
        exact ⟨true, y.lch, lL, _, (Option.some.inj hrun).symm, rfl, htree, .settled hl⟩

/-! ### A copy that has not been counted

In this moment the node has the counter of the version before, and is otherwise as it is
going to be.
-/

/-- Only a task that has been issued copies the node of its key. -/
theorem Inv.counting (hinv : Inv c T s steps) (hcount : countingTask s act = some u) :
    u ≤ s.numIssued ∧ ¬ Finished s.ctxs u ∧ (s.ctxs u).fn = .setref := by
  unfold countingTask at hcount
  obtain ⟨w, -, hw⟩ := Option.bind_eq_some_iff.mp hcount
  split at hw
  case isFalse => cases hw
  next hgo =>
  obtain rfl := Option.some.inj hw
  refine ⟨Nat.le_of_not_lt fun hlt => ?_, ?_, hgo.2⟩
  · have hfn := hgo.2
    rw [(hinv.trees.unissued w hlt).1] at hfn
    cases hfn
  · rw [Finished, hgo.1]
    decide

/-- The counter of the original is not the one that the copy is to have. -/
theorem OpenAt.uncounted (hu : OpenAt h ctxs u a x) (hp : Plan h ctxs steps n (some a) t)
    (hfn : (ctxs u).fn = .setref) (hrun : uncounted h (ctxs u) = some h') :
    ∃ v, h' = setVal h a v ∧ v ≠ x.val := by
  rcases hu.task hp with ⟨d, l, r, v, hdo, -⟩ | ⟨d, l, r, v, hdo, hpast, -⟩ |
    ⟨dL, lL, rL, dR, lR, rR, hdo, -⟩
  · rw [hdo.fn] at hfn
    cases hfn
  · obtain ⟨b, y, hb, hy, rfl⟩ := hpast.of_node
    simp only [Scheduler.uncounted, hu.cur, hb, hy, Option.bind_eq_bind, Option.bind_some] at hrun
    have hval : x.val = if (ctxs u).op = .insert then y.val + 1 else y.val - 1 :=
      congrArg Datum.val hdo.copy
    refine ⟨y.val, (Option.some.inj hrun).symm, ?_⟩
    rw [hval]
    split
    · simp
    · intro heq
      have hsum : y.val + 1 = y.val - 1 + 1 := congrArg (· + 1) heq
      rw [UInt64.sub_add_cancel] at hsum
      simp at hsum
  · rw [hdo.fn] at hfn
    cases hfn

/-! ### What is not written yet

A node belongs to the task of its version, and no other task is ever at it.  While the task
is, a search takes one field of the node, which may be one that is still to be written.
-/

/-- Of what a search for `key` takes from a node, the task `u` that is at the node has still
to write something: the counter at the node of the key, or else the link on the key's side. -/
def Lacks (c : Config) (s : State) (u : Nat) (x : Node) (key : UInt64) : Moment → Prop
  | .between => key ≠ x.key
  | .linking act => key ≠ x.key ∧ ¬ (comingTask c s act = some u ∧
      (s.ctxs u).firstSide = if key < x.key then .left else .right)
  | .counting act => key = x.key → countingTask s act = some u

/-- A search for `key` that reads the node at `a` is too early for a running task. -/
def Unwritten (c : Config) (s : State) (m : Moment) (key : UInt64) (a : Addr) : Prop :=
  ∃ x ∈ s.heap.get? a, (s.ctxs x.ver).st ≠ .done ∧ (s.ctxs x.ver).tCur = some a ∧
    Lacks c s x.ver x key m

/-- It is tested on the threads' places. -/
instance : Decidable (Lacks c s u x key m) :=
  match m with
  | .between => inferInstanceAs (Decidable (key ≠ x.key))
  | .linking act => inferInstanceAs (Decidable (key ≠ x.key ∧ ¬ (comingTask c s act = some u ∧
      (s.ctxs u).firstSide = if key < x.key then .left else .right)))
  | .counting act => inferInstanceAs (Decidable (key = x.key → countingTask s act = some u))

/-- The one task to look at is the one whose version the node has. -/
instance : Decidable (Unwritten c s m key a) :=
  inferInstanceAs (Decidable (∃ x ∈ s.heap.get? a, (s.ctxs x.ver).st ≠ .done ∧
    (s.ctxs x.ver).tCur = some a ∧ Lacks c s x.ver x key m))

theorem OpenAt.unwritten_iff (hu : OpenAt s.heap s.ctxs u a x) :
    Unwritten c s m key a ↔ Lacks c s u x key m := by
  constructor
  · rintro ⟨y, hy, -, -, hlacks⟩
    obtain rfl := Option.some.inj (hu.cell.symm.trans hy)
    rwa [hu.ver] at hlacks
  · intro hlacks
    refine ⟨x, hu.cell, ?_⟩
    rw [hu.ver]
    exact ⟨hu.running, hu.cur, hlacks⟩

theorem not_unwritten (hfree : ∀ u, ¬ Finished s.ctxs u → (s.ctxs u).tCur ≠ some a) :
    ¬ Unwritten c s m key a := by
  rintro ⟨y, -, hrun, hcur, -⟩
  exact hfree y.ver hrun hcur

/-! ### One read

A node that no running task is at is final but for its aggregate.  At any other the read
is too early, and leads nowhere or to a wrong counter; or else the field has been
written already.
-/

/-- A link leads into the tree `t`, or is null when it is not written yet. -/
def Leads (s : State) (steps : Nat → Nat) (unwritten : Prop) (q : Ptr) (t : BinaryTree Datum) :
    Prop :=
  (¬ unwritten → ∃ n, Plan s.heap s.ctxs steps n q t) ∧ (unwritten → q = none)

/-- What a search for `key` finds at a node that is to be the root of `t`, when it sees `x`. -/
def Offers (s : State) (steps : Nat → Nat) (unwritten : Prop) (key : UInt64) (x : Node)
    (t : BinaryTree Datum) : Prop :=
  ∃ d l r, t = node d l r ∧ x.key = d.key ∧ (key = d.key → (unwritten ↔ x.val ≠ d.val)) ∧
    (key < d.key → Leads s steps unwritten x.lch l) ∧
    (d.key < key → Leads s steps unwritten x.rch r)

/-- Where one thread at the most is inside its step, only the node of its task is not as it
is in the heap. -/
theorem Inv.seen_frame (hinv : Inv c T s steps) (hseen : seen c s m = some h')
    (ha : ∀ u, ¬ Finished s.ctxs u → (∃ act, m = .linking act ∧ comingTask c s act = some u ∨
      m = .counting act ∧ countingTask s act = some u) → (s.ctxs u).tCur ≠ some a) :
    h'.get? a = s.heap.get? a := by
  cases m with
  | between =>
      obtain rfl := Option.some.inj hseen
      rfl
  | linking act =>
      obtain ⟨u, hcome, hrun⟩ := Option.bind_eq_some_iff.mp hseen
      obtain ⟨hissued, hnot, hahead⟩ := hinv.coming hcome
      obtain ⟨b, x, t, hu, hp⟩ := hinv.trees.placed u hissued hnot
      obtain ⟨first, q, -, -, rfl, -⟩ := hu.firstLink hp hahead hrun
      refine get?_setChild_of_ne first (fun hab => ?_) q
      exact ha u hnot ⟨act, Or.inl ⟨rfl, hcome⟩⟩ (hab ▸ hu.cur)
  | counting act =>
      obtain ⟨u, hcount, hrun⟩ := Option.bind_eq_some_iff.mp hseen
      obtain ⟨hissued, hnot, hfn⟩ := hinv.counting hcount
      obtain ⟨b, x, t, hu, hp⟩ := hinv.trees.placed u hissued hnot
      obtain ⟨v, rfl, -⟩ := hu.uncounted hp hfn hrun
      refine Heap.get?_modify_of_ne fun hab => ?_
      exact ha u hnot ⟨act, Or.inr ⟨rfl, hcount⟩⟩ (hab ▸ hu.cur)

/-- A node that no running task is at has been written. -/
theorem Inv.read_free (hinv : Inv c T s steps)
    (hfree : ∀ u, ¬ Finished s.ctxs u → (s.ctxs u).tCur ≠ some a) (hx : s.heap.get? a = some x)
    {l r : BinaryTree Datum} (hl : Plan s.heap s.ctxs steps n x.lch l)
    (hr : Plan s.heap s.ctxs steps n x.rch r) (hseen : seen c s m = some h') :
    h'.get? a = some x ∧
      Offers s steps (Unwritten c s m key a) key x (node x.datum l r) := by
  have hnot : ¬ Unwritten c s m key a := not_unwritten hfree
  refine ⟨(hinv.seen_frame hseen fun u hrun _ => hfree u hrun).trans hx, ?_⟩
  refine ⟨x.datum, l, r, rfl, rfl, fun _ => ?_, fun _ => ?_, fun _ => ?_⟩
  · exact iff_of_false hnot fun hne => hne rfl
  · exact ⟨fun _ => ⟨n, hl⟩, fun hun => absurd hun hnot⟩
  · exact ⟨fun _ => ⟨n, hr⟩, fun hun => absurd hun hnot⟩

/-- Of a node that a task has not begun to link, a search may take the counter alone. -/
theorem OpenAt.offers (hu : OpenAt s.heap s.ctxs u a x) {l r : BinaryTree Datum} {b : Prop}
    (hb : b ↔ key ≠ x.key) : Offers s steps b key x (node x.datum l r) := by
  refine ⟨x.datum, l, r, rfl, rfl, fun hk => ?_, fun hk => ?_, fun hk => ?_⟩
  · exact iff_of_false (fun hun => hb.mp hun hk) fun hne => hne rfl
  · have hun : b := hb.mpr hk.ne
    exact ⟨fun hnot => absurd hun hnot, fun _ => hu.lch⟩
  · have hun : b := hb.mpr hk.ne'
    exact ⟨fun hnot => absurd hun hnot, fun _ => hu.rch⟩

/-- Of a node that a task has half linked, the one link leads on. -/
theorem OpenAt.offers_linking (hu : OpenAt s.heap s.ctxs u a x)
    (hcome : comingTask c s act = some u) {first : Bool} {q : Ptr} {l r : BinaryTree Datum}
    (hside : (s.ctxs u).firstSide = if first then .left else .right)
    (hq : Plan s.heap s.ctxs steps n q (if first then l else r)) :
    Offers s steps (Lacks c s u x key (.linking act)) key
      (if first then { x with lch := q } else { x with rch := q }) (node x.datum l r) := by
  have hlacks : Lacks c s u x key (.linking act) ↔ key ≠ x.key ∧
      ¬ (if first then Direction.left else .right) = if key < x.key then .left else .right := by
    rw [← hside]
    exact and_congr_right fun _ => not_congr (and_iff_right hcome)
  cases first with
  | true =>
      refine ⟨x.datum, l, r, rfl, rfl, fun hk => ?_, fun hk => ?_, fun hk => ?_⟩
      · exact iff_of_false (fun hun => (hlacks.mp hun).1 hk) fun hne => hne rfl
      · have hnot : ¬ Lacks c s u x key (.linking act) := by
          rw [hlacks, if_pos (show key < x.key from hk)]
          simp
        exact ⟨fun _ => ⟨n, hq⟩, fun hun => absurd hun hnot⟩
      · have hun : Lacks c s u x key (.linking act) := by
          rw [hlacks, if_neg (show ¬ key < x.key from hk.not_gt)]
          exact ⟨hk.ne', by simp⟩
        exact ⟨fun hnot => absurd hun hnot, fun _ => hu.rch⟩
  | false =>
      refine ⟨x.datum, l, r, rfl, rfl, fun hk => ?_, fun hk => ?_, fun hk => ?_⟩
      · exact iff_of_false (fun hun => (hlacks.mp hun).1 hk) fun hne => hne rfl
      · have hun : Lacks c s u x key (.linking act) := by
          rw [hlacks, if_pos (show key < x.key from hk)]
          exact ⟨hk.ne, by simp⟩
        exact ⟨fun hnot => absurd hun hnot, fun _ => hu.lch⟩
      · have hnot : ¬ Lacks c s u x key (.linking act) := by
          rw [hlacks, if_neg (show ¬ key < x.key from hk.not_gt)]
          simp
        exact ⟨fun _ => ⟨n, hq⟩, fun hun => absurd hun hnot⟩

/-! ### A node of a running task -/

/-- A node that a task is at, by how far the task has come there. -/
theorem Inv.read_open (hinv : Inv c T s steps) (hu : OpenAt s.heap s.ctxs u a x)
    (hp : Plan s.heap s.ctxs steps n (some a) t) (hseen : seen c s m = some h') (key : UInt64) :
    ∃ y, h'.get? a = some y ∧ Offers s steps (Lacks c s u x key m) key y t := by
  obtain ⟨z, l, r, hz, rfl⟩ := hp.of_some
  obtain rfl := Option.some.inj (hu.cell.symm.trans hz)
  have hcur : ∀ {w}, ¬ Finished s.ctxs w → (s.ctxs w).tCur = some a → w = u := fun hrun hw =>
    (hinv.trees.owned _ hrun a x hw hu.cell).symm.trans hu.ver
  cases m with
  | between =>
      obtain rfl := Option.some.inj hseen
      exact ⟨x, hu.cell, hu.offers Iff.rfl⟩
  | linking act =>
      obtain ⟨w, hcome, hrun⟩ := Option.bind_eq_some_iff.mp hseen
      by_cases hwu : w = u
      · subst hwu
        obtain ⟨first, q, l', r', rfl, hside, htree, hq⟩ :=
          hu.firstLink hp (hinv.coming hcome).2.2 hrun
        cases htree
        exact ⟨_, get?_setChild first hu.cell q, hu.offers_linking hcome hside hq⟩
      · have hne : comingTask c s act ≠ some u := by
          rw [hcome]
          exact fun heq => hwu (Option.some.inj heq)
        refine ⟨x, (hinv.seen_frame hseen fun v hrun' hv hcur' => ?_).trans hu.cell, hu.offers ?_⟩
        · obtain rfl := hcur hrun' hcur'
          obtain ⟨act', ⟨heq, hv⟩ | ⟨heq, -⟩⟩ := hv
          · cases heq
            exact hne hv
          · cases heq
        · exact and_iff_left fun hboth => hne hboth.1
  | counting act =>
      obtain ⟨w, hcount, hrun⟩ := Option.bind_eq_some_iff.mp hseen
      by_cases hwu : w = u
      · subst hwu
        obtain ⟨v, rfl, hv⟩ := hu.uncounted hp (hinv.counting hcount).2.2 hrun
        -- The copy has both links to come, and the counter of the node it was made of.
        have hlacks : Lacks c s w x key (.counting act) := fun _ => hcount
        refine ⟨_, Heap.get?_modify_self hu.cell, x.datum, l, r, rfl, rfl, fun _ => ?_, fun _ => ?_,
          fun _ => ?_⟩
        · exact iff_of_true hlacks hv
        · exact ⟨fun hnot => absurd hlacks hnot, fun _ => hu.lch⟩
        · exact ⟨fun hnot => absurd hlacks hnot, fun _ => hu.rch⟩
      · have hne : countingTask s act ≠ some u := by
          rw [hcount]
          exact fun heq => hwu (Option.some.inj heq)
        refine ⟨x, (hinv.seen_frame hseen fun v hrun' hv hcur' => ?_).trans hu.cell, hu.offers ?_⟩
        · obtain rfl := hcur hrun' hcur'
          obtain ⟨act', ⟨heq, -⟩ | ⟨heq, hv⟩⟩ := hv
          · cases heq
          · cases heq
            exact hne hv
        · exact ⟨fun himp hk => hne (himp hk), fun hk heq => absurd heq hk⟩

/-- **What one read comes to**, of a node that is to be the root of `t`. -/
theorem Inv.read (hinv : Inv c T s steps) (hp : Plan s.heap s.ctxs steps n (some a) t)
    (hseen : seen c s m = some h') (key : UInt64) :
    ∃ y, h'.get? a = some y ∧ Offers s steps (Unwritten c s m key a) key y t := by
  have howned := hinv.trees.owned
  have hopen : ∀ {u : Nat} {x : Node} {t : BinaryTree Datum}, OpenAt s.heap s.ctxs u a x →
      Plan s.heap s.ctxs steps n (some a) t →
      ∃ y, h'.get? a = some y ∧ Offers s steps (Unwritten c s m key a) key y t := by
    intro u x t hu hp
    obtain ⟨y, hy, hoffers⟩ := hinv.read_open hu hp hseen key
    rw [← propext hu.unwritten_iff] at hoffers
    exact ⟨y, hy, hoffers⟩
  generalize hq : some a = q at hp
  have hall := hp
  cases hp with
  | settled hs =>
      subst hq
      obtain ⟨x, l, r, -, hx, rfl, -, -⟩ := hs.shows.of_some
      obtain ⟨-, hl, hr⟩ := hs.left hx
      have hfin : Finished s.ctxs x.ver := (forall_mem_inorder_node.mp hs.finished).1
      have hfree : ∀ u, ¬ Finished s.ctxs u → (s.ctxs u).tCur ≠ some a := fun u hrun hcur =>
        hrun (howned u hrun a x hcur hx ▸ hfin)
      exact ⟨x, hinv.read_free hfree hx (.settled (n := n) hl) (.settled hr) hseen⟩
  | linked hx hleft hl hr =>
      cases hq
      exact ⟨_, hinv.read_free hleft hx hl hr hseen⟩
  | search hu =>
      cases hq
      exact hopen hu hall
  | setref hu =>
      cases hq
      exact hopen hu hall
  | concat hu =>
      cases hq
      exact hopen hu hall

end Scheduler
