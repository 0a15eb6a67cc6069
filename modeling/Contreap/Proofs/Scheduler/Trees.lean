/-
The trees behind the contexts of a scheduler.

`Trees` is what is known of the heap and the contexts in every state: the root of each
issued task stands for the tree of its version, and each task that is not done is
placed somewhere in its tree.  It is kept by everything a thread does to the two: a
step of a task, the start of the next one, a stage stored, an aggregate written, and a
later version committed.
-/
import Contreap.Proofs.Scheduler.Complete
import Contreap.Proofs.Treap.Query

namespace Scheduler

open BinaryTree Cartesian PtrHeap Treap

variable {T : Nat → BinaryTree Datum} {h h' : Store} {ctxs ctxs' : Nat → Context}
  {steps steps' : Nat → Nat} {n k k' m u : Nat} {p : Ptr} {t : BinaryTree Datum}
  {a : Addr} {x : Node} {ctx' : Context}

/-! ### Plans when only aggregates or a stage change

Plans do not mention aggregates or stages, so nothing changes for them; but a node with
another aggregate is another node.
-/

theorem OpenAt.onlyAug (hs : OnlyAug h h') (hu : OpenAt h ctxs u a x) :
    ∃ v, OpenAt h' ctxs u a { x with aug := v } := by
  obtain ⟨v, hv⟩ := hs.same a x hu.cell
  exact ⟨v, hu.running, hu.self, hu.cur, hv, hu.ver, hu.lch, hu.rch⟩

theorem Settled.onlyAug (hs : OnlyAug h h') (hp : Settled h ctxs p t) : Settled h' ctxs p t :=
  ⟨Rep.onlyAug hp.shows hs, hp.finished⟩

/-- By induction on the plan: every cell it speaks of is there with another aggregate. -/
theorem Plan.onlyAug (hs : OnlyAug h h') (hp : Plan h ctxs steps n p t) :
    Plan h' ctxs steps n p t := by
  induction hp with
  | settled hp => exact .settled (hp.onlyAug hs)
  | @linked n a x l r hx hleft _ _ ihl ihr =>
      obtain ⟨v, hv⟩ := hs.same a x hx
      exact .linked (x := { x with aug := v }) hv hleft ihl ihr
  | search hu hdo _ hbound hlt ih =>
      obtain ⟨v, hv⟩ := hu.onlyAug hs
      exact .search hv ⟨hdo.fn, hdo.above, hdo.dir, hdo.copy⟩ ih hbound hlt
  | setref hu hdo _ hbound hlt ih =>
      obtain ⟨v, hv⟩ := hu.onlyAug hs
      exact .setref hv ⟨hdo.fn, hdo.top, hdo.key, hdo.keep, hdo.copy⟩ ih hbound hlt
  | concat hu hdo hL hR =>
      obtain ⟨v, hv⟩ := hu.onlyAug hs
      exact .concat hv ⟨hdo.fn, hdo.dir, hdo.copy⟩ (hL.onlyAug hs) (hR.onlyAug hs)

/-- Unfinished or not, a pointer shows some tree. -/
theorem Plan.shows (hp : Plan h ctxs steps n p t) : ∃ t', Shows layout h p t' := by
  have hopen : ∀ {u : Nat} {a : Addr} {x : Node}, OpenAt h ctxs u a x →
      ∃ t', Shows layout h (some a) t' := by
    intro u a x hu
    refine ⟨node x.datum nil nil, .node (L := layout) (Set.mem_univ a) hu.cell ?_ ?_⟩
    · rw [layout_lch, hu.lch]
      exact .nil
    · rw [layout_rch, hu.rch]
      exact .nil
  induction hp with
  | settled hs => exact ⟨_, hs.shows⟩
  | @linked n a x l r hx _ _ _ ihl ihr =>
      obtain ⟨l', hl'⟩ := ihl
      obtain ⟨r', hr'⟩ := ihr
      exact ⟨_, .node (L := layout) (Set.mem_univ a) hx hl' hr'⟩
  | search hu => exact hopen hu
  | setref hu => exact hopen hu
  | concat hu => exact hopen hu

theorem Placed.open {u : Nat} (hp : Placed h ctxs steps u) : ∃ a x, OpenAt h ctxs u a x :=
  let ⟨a, x, _, hu, _⟩ := hp
  ⟨a, x, hu⟩

/-- Storing a stage is a move on the spot. -/
theorem OpenAt.restage (hu : OpenAt h ctxs u a x) (steps : Nat → Nat) (sg : Stage) :
    Moves h ctxs steps u h (Function.update ctxs u { ctxs u with stage := sg }) steps ∧
      OpenAt h (Function.update ctxs u { ctxs u with stage := sg }) u a x := by
  refine ⟨⟨hu.running, fun b y hcur hy => ?_, fun b y _ hy => hy, fun w hw => ?_, ?_⟩,
    ⟨?_, ?_, ?_, hu.cell, hu.ver, hu.lch, hu.rch⟩⟩
  · obtain rfl : a = b := Option.some.inj (hu.cur.symm.trans hcur)
    obtain rfl := Option.some.inj (hu.cell.symm.trans hy)
    exact hu.ver
  · exact ⟨Function.update_of_ne hw .., rfl⟩
  · intro _ b _ hcur
    rwa [Function.update_self] at hcur
  · rw [Finished, Function.update_self]
    exact hu.running
  · rw [Function.update_self]
    exact hu.self
  · rw [Function.update_self]
    exact hu.cur

/-- By induction on the plan, which does not look at stages. -/
theorem Plan.restage (hu : OpenAt h ctxs u a x) (sg : Stage) (hp : Plan h ctxs steps n p t) :
    Plan h (Function.update ctxs u { ctxs u with stage := sg }) steps n p t := by
  have hself : Function.update ctxs u { ctxs u with stage := sg } u
      = { ctxs u with stage := sg } := Function.update_self ..
  obtain ⟨hm, -⟩ := hu.restage steps sg
  refine hp.moves hm ?_ ?_ ?_
  · intro b y d l r v hb hdo _ hbound hlt hpast
    rw [show (ctxs u).target (node d l r)
      = (Function.update ctxs u { ctxs u with stage := sg } u).target (node d l r) by rw [hself]; rfl]
    refine .search (hb.restage steps sg).2 ?_ ?_ hbound hlt
    · rw [hself]
      exact ⟨hdo.fn, hdo.above, hdo.dir, hdo.copy⟩
    · rwa [hself]
  · intro b y d l r v hb hdo _ hbound hlt hpast
    rw [show (ctxs u).target (node d l r)
      = (Function.update ctxs u { ctxs u with stage := sg } u).target (node d l r) by rw [hself]; rfl]
    refine .setref (hb.restage steps sg).2 ?_ ?_ hbound hlt
    · rw [hself]
      exact ⟨hdo.fn, hdo.top, hdo.key, hdo.keep, hdo.copy⟩
    · rwa [hself]
  · intro b y dL dR lL rL lR rR hb hdo hL hR
    refine .concat (hb.restage steps sg).2 ?_ ?_ ?_
    · rw [hself]
      exact ⟨hdo.fn, hdo.dir, hdo.copy⟩
    · rw [hself]
      exact hm.settled hL
    · rw [hself]
      exact hm.settled hR

/-! ### A task starts

The new task has no place in any plan there is, and its root is a plan of its own.
-/

/-- A task that was not issued before comes to its root. -/
theorem moves_start (hnew : ctxs u = {})
    (hcells : ∀ a x, h.get? a = some x → h'.get? a = some x)
    (hfresh : ctx'.st ≠ .done → ∃ c, ctx'.tCur = some c ∧ h.size ≤ c) :
    Moves h ctxs steps u h' (Function.update ctxs u ctx') steps := by
  constructor
  · rw [Finished, hnew]
    decide
  · intro a x hcur
    rw [hnew] at hcur
    cases hcur
  · exact fun a x _ hx => hcells a x hx
  · exact fun w hw => ⟨Function.update_of_ne hw .., rfl⟩
  · intro hnot a ha hcur
    rw [Finished, Function.update_self] at hnot
    rw [Function.update_self] at hcur
    obtain ⟨c, hc, hle⟩ := hfresh hnot
    obtain rfl : c = a := Option.some.inj (hc.symm.trans hcur)
    exact absurd ha (Nat.not_lt.mpr hle)

theorem Plan.start (hnew : ctxs u = {}) (hm : Moves h ctxs steps u h' ctxs' steps')
    (hp : Plan h ctxs steps n p t) : Plan h' ctxs' steps' n p t := by
  have hnot : ∀ {a : Addr} {x : Node}, OpenAt h ctxs u a x → False := by
    intro a x hu
    have hcur := hu.cur
    rw [hnew] at hcur
    cases hcur
  exact hp.moves hm (fun hu => (hnot hu).elim) (fun hu => (hnot hu).elim) fun hu => (hnot hu).elim

/-! ### The invariant

The first fields are about the tasks that are issued; `unissued` says that nothing has
happened to the others, and `done` how other threads can tell that a task is done.
-/

/-- What is known of the heap and the contexts.  The root of an issued task stands for the
tree of its version, a task that is not done is at a node of its own, and a context that
has not been issued is as it was made. -/
structure Trees (T : Nat → BinaryTree Datum) (h : Store) (ctxs : Nat → Context)
    (steps : Nat → Nat) (numIssued numCommitted : Nat) : Prop where
  roots : ∀ w ≤ numIssued, Plan h ctxs steps 0 (ctxs w).root (T w)
  placed : ∀ w ≤ numIssued, ¬ Finished ctxs w → Placed h ctxs steps w
  joins : ∀ w ≤ numIssued, ¬ Finished ctxs w → Joins h numCommitted (ctxs w)
  unissued : ∀ w, numIssued < w → ctxs w = {} ∧ steps w = 0
  committed : ∀ w ≤ numCommitted, Finished ctxs w
  done : ∀ w, Finished ctxs w ↔ (ctxs w).stage = .done

namespace Trees

theorem finished_le (ht : Trees T h ctxs steps k m) {w : Nat} (hw : Finished ctxs w) : w ≤ k := by
  by_contra hlt
  rw [Finished, (ht.unissued w (Nat.not_le.mp hlt)).1] at hw
  cases hw

theorem owned (ht : Trees T h ctxs steps k m) : Owned h ctxs := by
  intro w hw b y hcur hy
  by_cases hwk : w ≤ k
  · obtain ⟨a, x, hu⟩ := (ht.placed w hwk hw).open
    obtain rfl : a = b := Option.some.inj (hu.cur.symm.trans hcur)
    obtain rfl := Option.some.inj (hu.cell.symm.trans hy)
    exact hu.ver
  · rw [(ht.unissued w (Nat.not_le.mp hwk)).1] at hcur
    cases hcur

/-- A task that is not done reads a node of an earlier version. -/
theorem reads (ht : Trees T h ctxs steps k m) (hu : u ≤ k) (hrun : ¬ Finished ctxs u) :
    ∃ b y, (ctxs u).tPast = some b ∧ h.get? b = some y ∧ y.ver < u := by
  obtain ⟨a, x, t, hopen, hp⟩ := ht.placed u hu hrun
  have hfinished : ∀ {w : Nat}, w ≤ m → w < u := fun hw =>
    Nat.lt_of_not_le fun hle => hrun (ht.committed u (hle.trans hw))
  rcases hopen.task hp with ⟨d, l, r, v, -, hpast, hbound, hlt⟩ |
    ⟨d, l, r, v, -, hpast, hbound, hlt⟩ | ⟨dL, lL, rL, dR, lR, rR, hdo, -, -⟩
  · obtain ⟨b, y, hb, hy, rfl⟩ := hpast.of_node
    exact ⟨b, y, hb, hy, Nat.lt_of_le_of_lt hbound.1 hlt⟩
  · obtain ⟨b, y, hb, hy, rfl⟩ := hpast.of_node
    exact ⟨b, y, hb, hy, Nat.lt_of_le_of_lt hbound.1 hlt⟩
  · obtain ⟨b, y, hb, hy, hle⟩ := ht.joins u hu hrun hdo.fn
    exact ⟨b, y, hb, hy, hfinished hle⟩

/-- **The trees survive the move of one task**, if its own place is in order afterwards. -/
theorem move (ht : Trees T h ctxs steps k m) (hm : Moves h ctxs steps u h' ctxs' steps')
    (hplans : ∀ {n p t}, Plan h ctxs steps n p t → Plan h' ctxs' steps' n p t)
    (hk : ∀ w, w ≠ u → (w ≤ k' ↔ w ≤ k)) (hu : u ≤ k')
    (hroot : Plan h' ctxs' steps' 0 (ctxs' u).root (T u))
    (hplaced : ¬ Finished ctxs' u → Placed h' ctxs' steps' u)
    (hjoins : ¬ Finished ctxs' u → Joins h' m (ctxs' u))
    (hdone : Finished ctxs' u ↔ (ctxs' u).stage = .done) :
    Trees T h' ctxs' steps' k' m := by
  have hsame : ∀ {w}, w ≠ u → (Finished ctxs' w ↔ Finished ctxs w) := fun hw => by
    rw [Finished, Finished, (hm.others _ hw).1]
  constructor
  · intro w hw
    by_cases hwu : w = u
    · subst hwu
      exact hroot
    · rw [(hm.others w hwu).1]
      exact hplans (ht.roots w ((hk w hwu).mp hw))
  · intro w hw hrun
    by_cases hwu : w = u
    · subst hwu
      exact hplaced hrun
    · obtain ⟨a, x, t, hopen, hp⟩ :=
        ht.placed w ((hk w hwu).mp hw) fun hfin => hrun ((hsame hwu).mpr hfin)
      refine ⟨a, x, t, hm.openAt hwu hopen, ?_⟩
      rw [(hm.others w hwu).2]
      exact hplans hp
  · intro w hw hrun hfn
    by_cases hwu : w = u
    · subst hwu
      exact hjoins hrun hfn
    · rw [(hm.others w hwu).1] at hfn ⊢
      obtain ⟨b, y, hb, hy, hle⟩ :=
        ht.joins w ((hk w hwu).mp hw) (fun hfin => hrun ((hsame hwu).mpr hfin)) hfn
      exact ⟨b, y, hb, hm.cell_of_finished hy (ht.committed _ hle), hle⟩
  · intro w hw
    have hwu : w ≠ u := fun heq => absurd (heq ▸ hu) (Nat.not_le.mpr hw)
    obtain ⟨hctx, hsteps⟩ := hm.others w hwu
    rw [hctx, hsteps]
    exact ht.unissued w (Nat.lt_of_not_le fun hle => absurd ((hk w hwu).mpr hle) (Nat.not_le.mpr hw))
  · exact fun w hw => hm.finished (ht.committed w hw)
  · intro w
    by_cases hwu : w = u
    · subst hwu
      exact hdone
    · rw [hsame hwu, (hm.others w hwu).1]
      exact ht.done w

/-! ### What the threads do

One lemma for each kind of change that a thread makes to the heap and the contexts.
-/

/-- What a step has done, put into the trees. -/
theorem effect (ht : Trees T h ctxs steps k m) (hu : u ≤ k)
    (heff : Effect h ctxs steps u m h' ctx') :
    Trees T h' (Function.update ctxs u ctx') (Function.update steps u (steps u + 1)) k m := by
  refine ht.move heff.moves heff.plans (fun _ _ => Iff.rfl) hu ?_ (fun hrun => ?_)
    (fun hrun => ?_) ?_
  · rw [Function.update_self, heff.root]
    exact heff.plans (ht.roots u hu)
  · rw [Finished, Function.update_self] at hrun
    exact heff.placed hrun
  · rw [Finished, Function.update_self] at hrun
    rw [Function.update_self]
    exact heff.joins hrun
  · rw [Finished, Function.update_self]
    refine ⟨heff.done, fun hstage => ?_⟩
    by_contra hst
    exact heff.moves.running ((ht.done u).mpr ((heff.stage hst).symm.trans hstage))

/-- One step of a task, provided the task it reads of is ahead. -/
theorem oneStep (ht : Trees T h ctxs steps k m) (hu : u ≤ k) (hrun : ¬ Finished ctxs u)
    (hahead : ∀ b y, (ctxs u).tPast = some b → h.get? b = some y → y.ver < u →
      Finished ctxs y.ver ∨ steps u < steps y.ver) :
    (∃ w, m < w ∧ w < u ∧ executeOneStep h m (ctxs u) = none) ∨
    ∃ h' ctx', executeOneStep h m (ctxs u) = some (h', ctx') ∧
      Effect h ctxs steps u m h' ctx' := by
  obtain ⟨a, x, t, hopen, hp⟩ := ht.placed u hu hrun
  obtain ⟨b, y, hb, hy, hlt⟩ := ht.reads hu hrun
  refine executeOneStep_effect hopen ht.owned ht.committed hp (fun b' y' hb' hy' => ?_)
    (ht.joins u hu hrun)
  obtain rfl : b = b' := Option.some.inj (hb.symm.trans hb')
  obtain rfl := Option.some.inj (hy.symm.trans hy')
  exact hahead b y hb hy hlt

/-- The rest of a task at once, when the version it reads of is committed. -/
theorem toComplete (ht : Trees T h ctxs steps k m) (hu : u ≤ k) (hrun : ¬ Finished ctxs u)
    (hdep : ∀ b y, (ctxs u).tPast = some b → h.get? b = some y → y.ver ≤ m) :
    ∃ h' ctx', executeToComplete h (ctxs u) = some (h', ctx') ∧ ctx'.st = .done ∧
      Effect h ctxs steps u m h' ctx' := by
  obtain ⟨a, x, t, hopen, hp⟩ := ht.placed u hu hrun
  exact executeToComplete_effect hopen ht.owned ht.committed hp hdep (ht.joins u hu hrun)

theorem restage (ht : Trees T h ctxs steps k m) (hu : u ≤ k) (hrun : ¬ Finished ctxs u) (n : Nat) :
    Trees T h (Function.update ctxs u { ctxs u with stage := .reached n }) steps k m := by
  obtain ⟨a, x, t, hopen, hp⟩ := ht.placed u hu hrun
  obtain ⟨hm, hopen'⟩ := hopen.restage steps (.reached n)
  refine ht.move hm (Plan.restage hopen _) (fun _ _ => Iff.rfl) hu ?_ (fun _ => ?_) (fun _ => ?_) ?_
  · rw [Function.update_self]
    exact (ht.roots u hu).restage hopen _
  · exact ⟨a, x, t, hopen', hp.restage hopen _⟩
  · rw [Function.update_self]
    exact ht.joins u hu hrun
  · rw [Finished, Function.update_self]
    exact ⟨fun hst => absurd hst hrun, by simp⟩

theorem onlyAug (ht : Trees T h ctxs steps k m) (hs : OnlyAug h h') :
    Trees T h' ctxs steps k m := by
  refine ⟨fun w hw => (ht.roots w hw).onlyAug hs, fun w hw hrun => ?_, fun w hw hrun hfn => ?_,
    ht.unissued, ht.committed, ht.done⟩
  · obtain ⟨a, x, t, hopen, hp⟩ := ht.placed w hw hrun
    obtain ⟨v, hv⟩ := hopen.onlyAug hs
    exact ⟨a, _, t, hv, hp.onlyAug hs⟩
  · obtain ⟨b, y, hb, hy, hle⟩ := ht.joins w hw hrun hfn
    obtain ⟨v, hv⟩ := hs.same b y hy
    exact ⟨b, _, hb, hv, hle⟩

theorem commit (ht : Trees T h ctxs steps k m) {m' : Nat} (hm : m ≤ m')
    (hdone : ∀ w ≤ m', Finished ctxs w) : Trees T h ctxs steps k m' := by
  refine ⟨ht.roots, ht.placed, fun w hw hrun hfn => ?_, ht.unissued, hdone, ht.done⟩
  obtain ⟨b, y, hb, hy, hle⟩ := ht.joins w hw hrun hfn
  exact ⟨b, y, hb, hy, hle.trans hm⟩

/-- The next task is done as soon as it is issued. -/
theorem issue_done (ht : Trees T h ctxs steps k m) (hT : T (k + 1) = T k) {ctx : Context}
    (hroot : ctx.root = (ctxs k).root) :
    Moves h ctxs steps (k + 1) h (Function.update ctxs (k + 1) ctx.done) steps ∧
      Trees T h (Function.update ctxs (k + 1) ctx.done) steps (k + 1) m := by
  obtain ⟨hnew, -⟩ := ht.unissued (k + 1) (Nat.lt_succ_self k)
  have hfin : Finished (Function.update ctxs (k + 1) ctx.done) (k + 1) := by
    rw [Finished, Function.update_self]
    rfl
  have hm : Moves h ctxs steps (k + 1) h (Function.update ctxs (k + 1) ctx.done) steps :=
    moves_start hnew (fun _ _ hx => hx) fun hst => absurd rfl hst
  refine ⟨hm, ht.move hm (Plan.start hnew hm) (fun w hw => ⟨fun hle => ?_, fun hle => hle.step⟩)
    (Nat.le_refl _) ?_ (fun hrun => absurd hfin hrun) (fun hrun => absurd hfin hrun) ?_⟩
  · exact Nat.le_of_lt_succ (Nat.lt_of_le_of_ne hle hw)
  · rw [Function.update_self, show ctx.done.root = ctx.root from rfl, hroot, hT]
    exact (ht.roots k (Nat.le_refl k)).start hnew hm
  · exact ⟨fun _ => by rw [Function.update_self]; rfl, fun _ => hfin⟩

/-- The root of the last version, seen by the task that is about to start. -/
theorem sees_root (ht : Trees T h ctxs steps k m) (hbound : VerBound k (T k)) :
    Sees h Set.univ (Finished ctxs) m (ctxs k).root (T k) := by
  have hp := ht.roots k (Nat.le_refl k)
  constructor
  · intro hnil
    rw [hnil] at hp
    exact hp.of_nil
  · intro d l r hnode
    rw [hnode] at hp
    exact hp.of_node
  · intro d l r hnode hle
    rw [hnode] at hp hbound
    have hs := hp.settle (v := d.ver) ⟨Nat.le_refl _, hbound.2⟩ fun w hw =>
      ht.committed w (hw.trans hle)
    rw [hnode]
    exact ⟨hs.shows, hs.finished⟩

/-- **The next task starts** on the root of the last version, or waits for a version
before its own. -/
theorem issue (ht : Trees T h ctxs steps k m) (hbound : VerBound k (T k)) {ctx : Context}
    (hfn : ctx.fn = .search) (hst : ctx.st = .running) (hstage : ctx.stage = .reached 0)
    (hver : ctx.ver = k + 1) (hpast : ctx.tPast = (ctxs k).root)
    (hT : T (k + 1) = ctx.target (T k)) :
    (∃ w, m < w ∧ w ≤ k ∧ update h m ctx = none) ∨
    ∃ h' ctx' q, update h m ctx = some (h', ctx', q) ∧
      Grows h h' ∧ (ctx'.st = .done ∨ ctx'.stage = .reached 0) ∧
      Moves h ctxs steps (k + 1) h'
        (Function.update ctxs (k + 1) { ctx' with root := q, tCur := q }) steps ∧
      Trees T h' (Function.update ctxs (k + 1) { ctx' with root := q, tCur := q }) steps (k + 1) m := by
  obtain ⟨hnew, hzero⟩ := ht.unissued (k + 1) (Nat.lt_succ_self k)
  have hsees := ht.sees_root hbound
  rw [← hpast] at hsees
  rcases update_spec hfn (fun a _ => Set.mem_univ a) hsees with
    ⟨d, l, r, hnode, hwait, hnone⟩ | ⟨h', ctx', q, hrun, hgrow, hsame, hjoins, hout⟩
  · rw [hnode] at hbound
    exact Or.inl ⟨d.ver, hwait, hbound.1, hnone⟩
  · have hstatus := hout.status
    have hfresh : ({ ctx' with root := q, tCur := q } : Context).st ≠ .done →
        ∃ c, ({ ctx' with root := q, tCur := q } : Context).tCur = some c ∧ h.size ≤ c := by
      intro hne
      obtain ⟨-, -, hq⟩ := hstatus.resolve_left fun hd => hne hd.1
      exact ⟨h.size, hq, Nat.le_refl _⟩
    have hm : Moves h ctxs steps (k + 1) h'
        (Function.update ctxs (k + 1) { ctx' with root := q, tCur := q }) steps :=
      moves_start hnew (fun _ _ hx => hgrow.preserves.get? hx) hfresh
    have hself : Function.update ctxs (k + 1) { ctx' with root := q, tCur := q } (k + 1)
        = { ctx' with root := q, tCur := q } := Function.update_self ..
    have hland : Lands h' Set.univ (Finished ctxs) ctx ctx' q h'
        (Function.update ctxs (k + 1) { ctx' with root := q, tCur := q }) (k + 1) := by
      refine ⟨fun _ _ => rfl, hver, ?_, hsame, fun hd => ?_, fun _ => ⟨q, hself⟩,
        fun w hw => hm.finished hw⟩
      · rw [hst]
        decide
      · rw [Finished, hself]
        exact hd
    obtain ⟨hroot, hplaced⟩ := hout.plan hland (Set.mem_univ _) (m := 0) (v := k) hzero
      (by rw [hpast]; exact (ht.roots k (Nat.le_refl k)).start hnew hm) hbound (Nat.lt_succ_self k)
    refine Or.inr ⟨h', ctx', q, hrun, hgrow, ?_, hm, ht.move hm (Plan.start hnew hm)
      (fun w hw => ⟨fun hle => ?_, fun hle => hle.step⟩) (Nat.le_refl _) ?_ hplaced
      (fun _ => ?_) ?_⟩
    · rcases hstatus with hd | ⟨-, hsg, -⟩
      · exact Or.inl hd.1
      · exact Or.inr (hsg.trans hstage)
    · exact Nat.le_of_lt_succ (Nat.lt_of_le_of_ne hle hw)
    · rw [hself, hT]
      exact hroot
    · rw [hself]
      intro hconcat
      obtain ⟨b, y, hb, hy, hle⟩ := hjoins hconcat
      exact ⟨b, y, hb, hgrow.preserves.get? hy, hle⟩
    · rw [Finished, hself]
      rcases hstatus with hd | ⟨hst', hsg, -⟩
      · exact ⟨fun _ => hd.2, fun _ => hd.1⟩
      · refine ⟨fun hd => ?_, fun hd => ?_⟩
        · exact absurd (hst'.symm.trans hd) (by rw [hst]; decide)
        · exact absurd (hsg.symm.trans hd) (by rw [hstage]; decide)

end Trees

end Scheduler
