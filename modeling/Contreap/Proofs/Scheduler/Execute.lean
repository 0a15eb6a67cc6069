/-
`execute_one_step_` and `execute_to_complete_` keep the plan.

Both take a task at a node it has copied, link the node, and leave the task further
down or done.  `Effect` says what that comes to: no pointer stands for anything else
than before, the task is placed again unless it is done, and of the heap only the one
node has changed.  It is proved for the three things a task can be doing, searching,
copying links and joining, in one way: what lies below the node is known to be linked
or settled, the call below has one of its outcomes, and the node with both its links
stands for what the unlinked one did.
-/
import Contreap.Proofs.Scheduler.Step

namespace Scheduler

open BinaryTree Cartesian PtrHeap Treap

variable {h h₁ h' s' : Store} {ctxs ctxs' : Nat → Context} {steps steps' : Nat → Nat}
  {n m u v numCommitted : Nat} {p q : Ptr} {t l r : BinaryTree Datum} {a b : Addr}
  {x x' y : Node} {ctx ctx' : Context} {d : Datum}

/-! ### The node a task is at

A task that is not done is at the root of some plan, and which of the three kinds it is
can be read off its context.
-/

/-- Everything but one address. -/
def Off (a : Addr) : Set Addr := {b | b ≠ a}

theorem OpenAt.lt_size (hu : OpenAt h ctxs u a x) : a < h.size := Heap.lt_size_of_get? hu.cell

theorem OpenAt.ne_of_ver (hu : OpenAt h ctxs u a x) (hy : h.get? b = some y) (hver : y.ver ≠ u) :
    b ≠ a := by
  rintro rfl
  obtain rfl := Option.some.inj (hu.cell.symm.trans hy)
  exact hver hu.ver

/-- A settled tree does not contain the node. -/
theorem OpenAt.off (hu : OpenAt h ctxs u a x) (hs : Settled h ctxs p t) :
    Rep layout h (Off a) p t :=
  hs.shows.within fun _ _ hy hmem => hu.ne_of_ver hy fun hver =>
    hu.running (hver ▸ hs.finished _ hmem)

theorem rep_of_off (hp : Rep layout h (Off a) p t) (hoff : ∀ b, b ≠ a → h₁.get? b = h.get? b) :
    Rep layout h₁ (Off a) p t :=
  hp.congr fun b y hb hy _ => ⟨y, (hoff b hb).trans hy, rfl, rfl, rfl⟩

/-- What a task sees of an older tree whose place in the plan is known. -/
theorem OpenAt.sees (hu : OpenAt h ctxs u a x) (hp : Plan h ctxs steps m p t)
    (hbound : VerBound v t) (hlt : v < u) (hcommit : ∀ w ≤ numCommitted, Finished ctxs w)
    (hoff : ∀ b, b ≠ a → h₁.get? b = h.get? b) :
    Sees h₁ (Off a) (Finished ctxs) numCommitted p t := by
  constructor
  · rintro rfl
    exact hp.of_nil
  · rintro d l r rfl
    obtain ⟨b, y, hb, hy, hd⟩ := hp.of_node
    subst hd
    refine ⟨b, y, hb, ?_, rfl⟩
    have hver : y.ver ≠ u := Nat.ne_of_lt (Nat.lt_of_le_of_lt hbound.1 hlt)
    rw [hoff b (hu.ne_of_ver hy hver), hy]
  · rintro d l r rfl hcom
    have hs := hp.settle (v := d.ver) ⟨Nat.le_refl _, hbound.2⟩ fun w hw => hcommit w (hw.trans hcom)
    exact ⟨rep_of_off (hu.off hs) hoff, hs.finished⟩

/-- Putting a task at a new node, or nowhere, is a move. -/
theorem OpenAt.moves (hu : OpenAt h ctxs u a x)
    (hcells : ∀ b y, b ≠ a → h.get? b = some y → h'.get? b = some y)
    (hfresh : ctx'.st ≠ .done → ∃ c, ctx'.tCur = some c ∧ h.size ≤ c) {k : Nat} :
    Moves h ctxs steps u h' (Function.update ctxs u ctx') (Function.update steps u k) := by
  constructor
  · exact hu.running
  · intro b y hcur hy
    obtain rfl : a = b := Option.some.inj (hu.cur.symm.trans hcur)
    obtain rfl := Option.some.inj (hu.cell.symm.trans hy)
    exact hu.ver
  · exact fun b y hcur hy => hcells b y (fun hba => hcur (hba ▸ hu.cur)) hy
  · intro w hw
    rw [Function.update_of_ne hw, Function.update_of_ne hw]
    exact ⟨rfl, rfl⟩
  · intro hnot b hb hcur
    rw [Finished, Function.update_self] at hnot
    rw [Function.update_self] at hcur
    obtain ⟨c, hc, hle⟩ := hfresh hnot
    obtain rfl : c = b := Option.some.inj (hc.symm.trans hcur)
    exact absurd hb (Nat.not_lt.mpr hle)

/-- No two tasks are at the same node. -/
def Owned (h : Store) (ctxs : Nat → Context) : Prop :=
  ∀ w, ¬ Finished ctxs w → ∀ b y, (ctxs w).tCur = some b → h.get? b = some y → y.ver = w

/-- The node a task has left, once it is linked. -/
theorem Moves.linked (hm : Moves h ctxs steps u h' ctxs' steps') (howned : Owned h ctxs)
    (hu : OpenAt h ctxs u a x)
    (hfresh : ¬ Finished ctxs' u → ∃ c, (ctxs' u).tCur = some c ∧ h.size ≤ c)
    (hx' : h'.get? a = some x') (hdatum : x'.datum = x.datum)
    (hl : Plan h' ctxs' steps' (n + 1) x'.lch l) (hr : Plan h' ctxs' steps' (n + 1) x'.rch r) :
    Plan h' ctxs' steps' n (some a) (node x.datum l r) := by
  rw [← hdatum]
  refine .linked hx' (fun w hw hcur => ?_) hl hr
  by_cases hwu : w = u
  · subst hwu
    obtain ⟨c, hc, hle⟩ := hfresh hw
    obtain rfl : c = a := Option.some.inj (hc.symm.trans hcur)
    exact absurd hu.lt_size (Nat.not_lt.mpr hle)
  · obtain ⟨hctx, -⟩ := hm.others w hwu
    rw [Finished, hctx] at hw
    rw [hctx] at hcur
    exact hwu ((howned w hw a x hcur hu.cell).symm.trans hu.ver)

/-- What a placed task is doing. -/
theorem OpenAt.task (hu : OpenAt h ctxs u a x) (hp : Plan h ctxs steps n (some a) t) :
    (∃ d l r v, Searching (ctxs u) x d ∧
      Plan h ctxs steps (steps u) (ctxs u).tPast (node d l r) ∧ VerBound v (node d l r) ∧ v < u) ∨
    (∃ d l r v, Recounting (ctxs u) x d ∧
      Plan h ctxs steps (steps u) (ctxs u).tPast (node d l r) ∧ VerBound v (node d l r) ∧ v < u) ∨
    (∃ dL lL rL dR lR rR, Joining (ctxs u) x dL dR ∧
      Settled h ctxs (ctxs u).tL (node dL lL rL) ∧ Settled h ctxs (ctxs u).tR (node dR lR rR)) := by
  have hsame : ∀ {w : Nat} {z : Node}, OpenAt h ctxs w a z → w = u ∧ z = x := by
    intro w z hw
    obtain rfl := Option.some.inj (hw.cell.symm.trans hu.cell)
    exact ⟨hw.ver.symm.trans hu.ver, rfl⟩
  cases hp with
  | settled hs =>
      obtain ⟨z, l, r, -, hz, rfl, -, -⟩ := hs.shows.of_some
      obtain rfl := Option.some.inj (hz.symm.trans hu.cell)
      have hfin := (forall_mem_inorder_node.mp hs.finished).1
      exact absurd hfin (by rw [layout_shown, datum_ver, hu.ver]; exact hu.running)
  | linked _ hleft => exact absurd hu.cur (hleft u hu.running)
  | search hw hdo hpast hbound hlt =>
      obtain ⟨rfl, rfl⟩ := hsame hw
      exact Or.inl ⟨_, _, _, _, hdo, hpast, hbound, hlt⟩
  | setref hw hdo hpast hbound hlt =>
      obtain ⟨rfl, rfl⟩ := hsame hw
      exact Or.inr (Or.inl ⟨_, _, _, _, hdo, hpast, hbound, hlt⟩)
  | concat hw hdo hL hR =>
      obtain ⟨rfl, rfl⟩ := hsame hw
      exact Or.inr (Or.inr ⟨_, _, _, _, _, _, hdo, hL, hR⟩)

/-! ### The two sides of a node

A task goes down on one side, and takes over the link on the other.
-/

/-- The link on one side of a node. -/
def childPtr (left : Bool) (n : Node) : Ptr := if left then n.lch else n.rch

/-- Write the link on one side. -/
def setChild (left : Bool) (s : Store) (a : Addr) (p : Ptr) : Store :=
  if left then setLch s a p else setRch s a p

/-- A tree from the side gone down and the other one. -/
def joinSides (left : Bool) (e : Datum) (c o : BinaryTree Datum) : BinaryTree Datum :=
  if left then node e c o else node e o c

/-- The heap around a call made while the node at `a` is half linked. -/
structure Around (h h₁ s' h' : Store) (a : Addr) : Prop where
  before : ∀ b, b ≠ a → h₁.get? b = h.get? b
  size : h₁.size = h.size
  grows : Grows h₁ s'
  after : ∀ b, b ≠ a → h'.get? b = s'.get? b
  size' : h'.size = s'.size
  mid : ∀ z z', h.get? a = some z → h₁.get? a = some z' → z'.ver = z.ver
  same : ∀ z z', h.get? a = some z → h'.get? a = some z' → z'.aug = z.aug

theorem get?_setChild (left : Bool) (hx : h.get? a = some x) (p : Ptr) :
    (setChild left h a p).get? a
      = some (if left then { x with lch := p } else { x with rch := p }) := by
  cases left
  · exact get?_setRch hx p
  · exact get?_setLch hx p

theorem get?_setChild_of_ne (left : Bool) (hb : b ≠ a) (p : Ptr) :
    (setChild left h a p).get? b = h.get? b := by
  cases left
  · exact Heap.get?_modify_of_ne hb
  · exact Heap.get?_modify_of_ne hb

theorem size_setChild (left : Bool) (p : Ptr) : (setChild left h a p).size = h.size := by
  cases left
  · exact Heap.size_modify
  · exact Heap.size_modify

/-- One link is taken over before the call, the other is made after it. -/
theorem around_setChild (left : Bool) (hx : h.get? a = some x) (o : Ptr)
    (hgrow : Grows (setChild (!left) h a o) s') (q : Ptr) :
    Around h (setChild (!left) h a o) s' (setChild left s' a q) a ∧
      ∃ x', (setChild left s' a q).get? a = some x' ∧ x'.datum = x.datum ∧
        childPtr left x' = q ∧ childPtr (!left) x' = o := by
  have hmid : s'.get? a = some (if !left then { x with lch := o } else { x with rch := o }) :=
    hgrow.preserves.get? (get?_setChild (!left) hx o)
  have hend := get?_setChild left hmid q
  refine ⟨⟨fun b hb => get?_setChild_of_ne _ hb o, size_setChild _ o, hgrow,
    fun b hb => get?_setChild_of_ne _ hb q, size_setChild _ q, fun z z' hz hz' => ?_,
    fun z z' hz hz' => ?_⟩, _, hend, ?_, ?_, ?_⟩
  · obtain rfl := Option.some.inj (hx.symm.trans hz)
    rw [get?_setChild (!left) hx o] at hz'
    rw [← Option.some.inj hz']
    cases left <;> rfl
  · obtain rfl := Option.some.inj (hx.symm.trans hz)
    rw [hend] at hz'
    rw [← Option.some.inj hz']
    cases left <;> rfl
  · cases left <;> rfl
  · cases left <;> rfl
  · cases left <;> rfl

namespace Around

theorem cells (har : Around h h₁ s' h' a) (hb : b ≠ a) (hy : h.get? b = some y) :
    h'.get? b = some y := by
  rw [har.after b hb]
  exact har.grows.preserves.get? ((har.before b hb).trans hy)

theorem size_le (har : Around h h₁ s' h' a) : h.size ≤ h'.size := by
  rw [har.size', ← har.size]
  exact har.grows.preserves.size_le

theorem aug (har : Around h h₁ s' h' a) (ha : a < h.size) {y' : Node}
    (hy' : h'.get? b = some y') :
    y'.aug = augUninitialized ∨ ∃ y, h.get? b = some y ∧ y.aug = y'.aug := by
  by_cases hba : b = a
  · subst hba
    obtain ⟨z, hz⟩ := Heap.get?_of_lt ha
    exact Or.inr ⟨z, hz, (har.same z y' hz hy').symm⟩
  · rw [har.after b hba] at hy'
    by_cases hlt : b < h₁.size
    · rw [har.grows.preserves.same b hlt, har.before b hba] at hy'
      exact Or.inr ⟨y', hy', rfl⟩
    · exact Or.inl (har.grows.fresh b y' (Nat.not_lt.mp hlt) hy')

theorem fresh_mem (har : Around h h₁ s' h' a) (ha : a < h.size) :
    ∀ c, h₁.size ≤ c → c ∈ Off a := by
  intro c hc hca
  rw [har.size] at hc
  exact absurd (hca ▸ ha) (Nat.not_lt.mpr hc)

end Around

/-! ### The effect of a step

`Effect` is all that the threads need to know of a step: only the cell the task was at
has changed, every plan is kept, and the task is done or placed again.
-/

/-- What a step of task `u` comes to. -/
structure Effect (h : Store) (ctxs : Nat → Context) (steps : Nat → Nat) (u numCommitted : Nat)
    (h' : Store) (ctx' : Context) : Prop where
  moves : Moves h ctxs steps u h' (Function.update ctxs u ctx')
    (Function.update steps u (steps u + 1))
  plans : ∀ {n p t}, Plan h ctxs steps n p t →
    Plan h' (Function.update ctxs u ctx') (Function.update steps u (steps u + 1)) n p t
  placed : ctx'.st ≠ .done →
    Placed h' (Function.update ctxs u ctx') (Function.update steps u (steps u + 1)) u
  stage : ctx'.st ≠ .done → ctx'.stage = (ctxs u).stage
  done : ctx'.st = .done → ctx'.stage = .done
  joins : ctx'.st ≠ .done → Joins h' numCommitted ctx'
  ver : ctx'.ver = (ctxs u).ver
  root : ctx'.root = (ctxs u).root
  size : h.size ≤ h'.size
  aug : ∀ {b y'}, h'.get? b = some y' →
    y'.aug = augUninitialized ∨ ∃ y, h.get? b = some y ∧ y.aug = y'.aug

theorem Joined.status {goal : BinaryTree Datum} {S : Set Addr} {F : Nat → Prop} {s : Store}
    (hj : Joined s s' S F ctx ctx' q goal) :
    (ctx'.st = .done ∧ ctx'.stage = .done) ∨
      (ctx'.st = ctx.st ∧ ctx'.stage = ctx.stage ∧ q = some s.size) := by
  cases hj with
  | closed hc => exact Or.inl ⟨hc.st, hc.stage⟩
  | opened ho => exact Or.inr ⟨ho.running, ho.stage, ho.ptr⟩

theorem Outcome.status {S : Set Addr} {F : Nat → Prop} {s : Store}
    (hout : Outcome s s' S F ctx ctx' q t) :
    (ctx'.st = .done ∧ ctx'.stage = .done) ∨
      (ctx'.st = ctx.st ∧ ctx'.stage = ctx.stage ∧ q = some s.size) := by
  cases hout with
  | joined hj => exact hj.status
  | kept hst hstage => exact Or.inl ⟨hst, hstage⟩
  | search ho => exact Or.inr ⟨ho.running, ho.stage, ho.ptr⟩
  | setref ho => exact Or.inr ⟨ho.running, ho.stage, ho.ptr⟩

/-- Linking the node a task has left, on whichever side it went down. -/
theorem Moves.joinSides (left : Bool) (hm : Moves h ctxs steps u h' ctxs' steps')
    (howned : Owned h ctxs) (hu : OpenAt h ctxs u a x)
    (hfresh : ¬ Finished ctxs' u → ∃ c, (ctxs' u).tCur = some c ∧ h.size ≤ c)
    (hx' : h'.get? a = some x') (hdatum : x'.datum = x.datum) {c o : BinaryTree Datum}
    (hc : Plan h' ctxs' steps' (n + 1) (childPtr left x') c)
    (ho : Plan h' ctxs' steps' (n + 1) (childPtr (!left) x') o) :
    Plan h' ctxs' steps' n (some a) (joinSides left x.datum c o) := by
  cases left
  · exact hm.linked howned hu hfresh hx' hdatum ho hc
  · exact hm.linked howned hu hfresh hx' hdatum hc ho

/-- The call below a half linked node, put at its place. -/
structure Below (h h₁ s' h' : Store) (ctxs : Nat → Context) (u : Nat) (a : Addr)
    (ctx₁ ctx' : Context) (q : Ptr) (ctxF : Context) : Prop where
  around : Around h h₁ s' h' a
  same : SameTask ctx₁ ctx'
  of_task : ctx₁.st = (ctxs u).st ∧ ctx₁.stage = (ctxs u).stage ∧ ctx₁.ver = (ctxs u).ver ∧
    ctx₁.root = (ctxs u).root
  status : (ctx'.st = .done ∧ ctx'.stage = .done) ∨
    (ctx'.st = ctx₁.st ∧ ctx'.stage = ctx₁.stage ∧ q = some h₁.size)
  final : (ctxF.st = .done ∧ ctxF.stage = .done ∧ ctx'.st = .done ∧ ctxF.ver = ctx'.ver ∧
    ctxF.root = ctx'.root) ∨ ctxF = { ctx' with tCur := q }

namespace Below

variable {ctx₁ ctxF : Context}

theorem st_iff (hb : Below h h₁ s' h' ctxs u a ctx₁ ctx' q ctxF) :
    ctxF.st = .done ↔ ctx'.st = .done := by
  rcases hb.final with ⟨hst, -, hst', -⟩ | rfl
  · exact ⟨fun _ => hst', fun _ => hst⟩
  · exact Iff.rfl

/-- A task that is not done is at the new node. -/
theorem opened (hb : Below h h₁ s' h' ctxs u a ctx₁ ctx' q ctxF) (hst : ctxF.st ≠ .done) :
    ctxF = { ctx' with tCur := q } ∧ ctx'.stage = ctx₁.stage ∧ q = some h.size := by
  have hst' : ctx'.st ≠ .done := fun hd => hst (hb.st_iff.mpr hd)
  have hF : ctxF = { ctx' with tCur := q } :=
    hb.final.resolve_left fun hd => hst hd.1
  obtain ⟨-, hstage, hq⟩ := hb.status.resolve_left fun hd => hst' hd.1
  exact ⟨hF, hstage, hb.around.size ▸ hq⟩

theorem fresh (hb : Below h h₁ s' h' ctxs u a ctx₁ ctx' q ctxF) (hst : ctxF.st ≠ .done) :
    ∃ c, ctxF.tCur = some c ∧ h.size ≤ c := by
  obtain ⟨rfl, -, hq⟩ := hb.opened hst
  exact ⟨h.size, hq, Nat.le_refl _⟩

theorem moves (hb : Below h h₁ s' h' ctxs u a ctx₁ ctx' q ctxF) (hu : OpenAt h ctxs u a x)
    (steps : Nat → Nat) (k : Nat) :
    Moves h ctxs steps u h' (Function.update ctxs u ctxF) (Function.update steps u k) :=
  hu.moves (fun _ _ hba hy => hb.around.cells hba hy) hb.fresh

/-- The heap after the step is that of the call, but for the two links of the node. -/
theorem lands (hb : Below h h₁ s' h' ctxs u a ctx₁ ctx' q ctxF) (hu : OpenAt h ctxs u a x) :
    Lands s' (Off a) (Finished ctxs) ctx₁ ctx' q h' (Function.update ctxs u ctxF) u := by
  obtain ⟨hst, hstage, hver, hroot⟩ := hb.of_task
  constructor
  · exact fun b hba => hb.around.after b hba
  · exact hver.trans hu.self
  · rw [hst]
    exact hu.running
  · exact hb.same
  · intro hd
    rw [Finished, Function.update_self]
    exact hb.st_iff.mpr hd
  · intro hd
    obtain ⟨hF, -⟩ := hb.opened fun hF => hd (hb.st_iff.mp hF)
    exact ⟨ctx'.root, by rw [Function.update_self, hF]⟩
  · intro w hw
    exact (hb.moves hu (fun _ => 0) 0).finished hw

/-- The effect of a step, from what the step does to the plan of its own node. -/
theorem effect (hb : Below h h₁ s' h' ctxs u a ctx₁ ctx' q ctxF) (hu : OpenAt h ctxs u a x)
    (hcommit : ∀ w ≤ numCommitted, Finished ctxs w) (hjoins : Joins h₁ numCommitted ctx')
    (hplans : ∀ {n p t}, Plan h ctxs steps n p t → Plan h' (Function.update ctxs u ctxF)
      (Function.update steps u (steps u + 1)) n p t)
    (hplaced : ctxF.st ≠ .done → Placed h' (Function.update ctxs u ctxF)
      (Function.update steps u (steps u + 1)) u) :
    Effect h ctxs steps u numCommitted h' ctxF := by
  obtain ⟨-, hstage, hver, hroot⟩ := hb.of_task
  constructor
  · exact hb.moves hu steps (steps u + 1)
  · exact hplans
  · exact hplaced
  · intro hst
    obtain ⟨rfl, hstage', -⟩ := hb.opened hst
    exact hstage'.trans hstage
  · intro hst
    rcases hb.final with ⟨-, hd, -⟩ | rfl
    · exact hd
    · rcases hb.status with ⟨-, hd⟩ | ⟨hst', -⟩
      · exact hd
      · exact absurd (hst'.symm.trans hst) (by rw [hb.of_task.1]; exact hu.running)
  · intro hst hfn
    obtain ⟨rfl, -⟩ := hb.opened hst
    obtain ⟨b, y, hpast, hy, hle⟩ := hjoins hfn
    refine ⟨b, y, hpast, ?_, hle⟩
    have hba : b ≠ a := by
      rintro rfl
      have hver' : y.ver = u := (hb.around.mid x y hu.cell hy).trans hu.ver
      exact hu.running (hcommit u (hver' ▸ hle))
    rw [hb.around.after b hba]
    exact hb.around.grows.preserves.get? hy
  · rcases hb.final with ⟨-, -, -, hv, -⟩ | rfl
    · exact hv.trans (hb.same.ver.trans hver)
    · exact hb.same.ver.trans hver
  · rcases hb.final with ⟨-, -, -, -, hr⟩ | rfl
    · exact hr.trans (hb.same.root.trans hroot)
    · exact hb.same.root.trans hroot
  · exact hb.around.size_le
  · exact fun hy' => hb.around.aug hu.lt_size hy'

end Below

/-! ### Searching

The step links the node on one side to what the original had there, and on the other to
what `update_` returns.  The first is known because the task that made the original is
ahead, so that its links are there to be copied.
-/

/-- What a search computes, on either side: one link is taken over, then `update_` is
called, then the other link is set. -/
theorem executeOneStep_search (numCommitted : Nat) (left : Bool) (hfn : ctx.fn = .search)
    (hdir : left = decide (ctx.dir = .left)) (hcur : ctx.tCur = some a) (hpast : ctx.tPast = some b)
    (hy : h.get? b = some y) :
    executeOneStep h numCommitted ctx
      = (update (setChild (!left) h a (childPtr (!left) y)) numCommitted
          { ctx with tPast := childPtr left y }).bind
          fun r => some (setChild left r.1 a r.2.2, { r.2.1 with tCur := r.2.2 }) := by
  by_cases hd : ctx.dir = .left
  · obtain rfl : left = true := by simpa [hd] using hdir
    simp only [executeOneStep, hcur, hpast, hy, hfn, if_pos hd, Option.bind_eq_bind,
      Option.bind_some]
    rfl
  · obtain rfl : left = false := by simpa [hd] using hdir
    simp only [executeOneStep, hcur, hpast, hy, hfn, if_neg hd, Option.bind_eq_bind,
      Option.bind_some]
    rfl

theorem Searching.target_sides (hdo : Searching ctx x d) (left : Bool)
    (hdir : left = decide (ctx.dir = .left)) :
    ctx.target (node d l r)
      = joinSides left x.datum (ctx.target (if left then l else r)) (if left then r else l) := by
  by_cases hd : ctx.dir = .left
  · obtain rfl : left = true := by simpa [hd] using hdir
    exact hdo.target_left hd
  · obtain rfl : left = false := by simpa [hd] using hdir
    exact hdo.target_right hd

/-- The children of a node that is linked, on both sides. -/
theorem plan_sides (left : Bool) (hl : Plan h ctxs steps n y.lch l)
    (hr : Plan h ctxs steps n y.rch r) :
    Plan h ctxs steps n (childPtr left y) (if left then l else r) ∧
      Plan h ctxs steps n (childPtr (!left) y) (if left then r else l) := by
  cases left
  · exact ⟨hr, hl⟩
  · exact ⟨hl, hr⟩

theorem verBound_sides (left : Bool) (hbound : VerBound v (node d l r)) :
    VerBound d.ver (if left then l else r) := by
  cases left
  · exact hbound.2.2
  · exact hbound.2.1

/-- Coming to the child of the node a task reads. -/
theorem update_below (hu : OpenAt h ctxs u a x) (hcommit : ∀ w ≤ numCommitted, Finished ctxs w)
    (left : Bool) (hfn : (ctxs u).fn = .search)
    (hy : h.get? b = some y) (hpast : Plan h ctxs steps n (some b) (node d l r))
    (hbound : VerBound v (node d l r)) (hlt : v < u)
    (hahead : Finished ctxs y.ver ∨ n < steps y.ver) :
    (∃ w, numCommitted < w ∧ w < u ∧ update (setChild (!left) h a (childPtr (!left) y))
      numCommitted { ctxs u with tPast := childPtr left y } = none) ∨
    ∃ s' ctx' q, update (setChild (!left) h a (childPtr (!left) y)) numCommitted
        { ctxs u with tPast := childPtr left y } = some (s', ctx', q) ∧
      Grows (setChild (!left) h a (childPtr (!left) y)) s' ∧
      SameTask { ctxs u with tPast := childPtr left y } ctx' ∧
      Joins (setChild (!left) h a (childPtr (!left) y)) numCommitted ctx' ∧
      Outcome (setChild (!left) h a (childPtr (!left) y)) s' (Off a) (Finished ctxs)
        { ctxs u with tPast := childPtr left y } ctx' q (if left then l else r) := by
  obtain ⟨hl, hr⟩ := hpast.children hy hahead
  obtain ⟨hc, -⟩ := plan_sides left hl hr
  have hdlt : d.ver < u := Nat.lt_of_le_of_lt hbound.1 hlt
  have hoff : ∀ b, b ≠ a → (setChild (!left) h a (childPtr (!left) y)).get? b = h.get? b :=
    fun b hb => get?_setChild_of_ne _ hb _
  have hsees := hu.sees hc (verBound_sides left hbound) hdlt hcommit hoff
  have hS : ∀ c, (setChild (!left) h a (childPtr (!left) y)).size ≤ c → c ∈ Off a := by
    intro c hc hca
    rw [size_setChild] at hc
    exact absurd (hca ▸ hu.lt_size) (Nat.not_lt.mpr hc)
  rcases update_spec
    (show ({ ctxs u with tPast := childPtr left y } : Context).fn = .search from hfn) hS hsees with
    ⟨d', l', r', heq, hwait, hnone⟩ | hrun
  · refine Or.inl ⟨d'.ver, hwait, ?_, hnone⟩
    have hb := verBound_sides left hbound
    rw [heq] at hb
    exact Nat.lt_of_le_of_lt hb.1 hdlt
  · exact Or.inr hrun

/-! ### The other two functions on either side

Copying the links needs no call, and joining is symmetric as searching is.
-/

theorem executeOneStep_setref (hfn : ctx.fn = .setref) (hcur : ctx.tCur = some a)
    (hpast : ctx.tPast = some b) (hy : h.get? b = some y) :
    executeOneStep h numCommitted ctx
      = some (setRch (setLch h a y.lch) a y.rch, ctx.done) := by
  simp only [executeOneStep, hcur, hpast, hy, hfn, Option.bind_eq_bind, Option.bind_some]

/-- The tree a joining task goes down in, and the one it leaves as it is. -/
theorem Joining.concat_sides {dL dR : Datum} {lL rL lR rR : BinaryTree Datum}
    (hdo : Joining ctx x dL dR) (left : Bool) (hdir : left = decide (ctx.dir = .left)) :
    concatTree ctx.ver (node dL lL rL) (node dR lR rR)
      = joinSides left x.datum
          (concatTree ctx.ver (if left then node dL lL rL else rL)
            (if left then lR else node dR lR rR))
          (if left then rR else lL) := by
  by_cases hd : ctx.dir = .left
  · obtain rfl : left = true := by simpa [hd] using hdir
    exact hdo.concat_left hd
  · obtain rfl : left = false := by simpa [hd] using hdir
    exact hdo.concat_right hd

/-- The context with the root of the higher tree replaced by its child. -/
def joinBelow (left : Bool) (ctx : Context) (p : Ptr) : Context :=
  if left then { ctx with tR := p } else { ctx with tL := p }

/-- What a join computes, on either side. -/
theorem executeOneStep_concat (left : Bool) (hfn : ctx.fn = .concat)
    (hdir : left = decide (ctx.dir = .left)) (hcur : ctx.tCur = some a)
    (htop : (if left then ctx.tR else ctx.tL) = some b) (hy : h.get? b = some y) :
    executeOneStep h numCommitted ctx
      = (concat (setChild (!left) h a (childPtr (!left) y)) (joinBelow left ctx (childPtr left y))).bind
          fun r => some (setChild left r.1 a r.2.2, { r.2.1 with tCur := r.2.2 }) := by
  by_cases hd : ctx.dir = .left
  · obtain rfl : left = true := by simpa [hd] using hdir
    obtain ⟨st, op, fn, dir, tCur, tPast, ver, pry, key, tL, tR, stage, root⟩ := ctx
    obtain rfl : fn = .concat := hfn
    obtain rfl : dir = .left := hd
    obtain rfl : tCur = some a := hcur
    obtain rfl : tR = some b := htop
    simp only [executeOneStep, hy, Option.bind_eq_bind, Option.bind_some]
    rfl
  · obtain rfl : left = false := by simpa [hd] using hdir
    obtain ⟨st, op, fn, dir, tCur, tPast, ver, pry, key, tL, tR, stage, root⟩ := ctx
    obtain rfl : fn = .concat := hfn
    obtain rfl : tCur = some a := hcur
    obtain rfl : tL = some b := htop
    simp only [executeOneStep, hy, if_neg hd, Option.bind_eq_bind, Option.bind_some]
    rfl

/-- The two trees that are left to join, and the one that is in place. -/
theorem join_sides {dL dR : Datum} {lL rL lR rR : BinaryTree Datum} (left : Bool)
    (hL : Settled h ctxs ctx.tL (node dL lL rL)) (hR : Settled h ctxs ctx.tR (node dR lR rR)) :
    ∃ b y, (if left then ctx.tR else ctx.tL) = some b ∧ h.get? b = some y ∧
      Settled h ctxs (joinBelow left ctx (childPtr left y)).tL (if left then node dL lL rL else rL) ∧
      Settled h ctxs (joinBelow left ctx (childPtr left y)).tR (if left then lR else node dR lR rR) ∧
      Settled h ctxs (childPtr (!left) y) (if left then rR else lL) := by
  cases left
  · obtain ⟨b, y, hb, -, hy, -⟩ := hL.shows.of_node
    rw [hb] at hL
    obtain ⟨-, hl, hr⟩ := hL.left hy
    exact ⟨b, y, hb, hy, hr, hR, hl⟩
  · obtain ⟨b, y, hb, -, hy, -⟩ := hR.shows.of_node
    rw [hb] at hR
    obtain ⟨-, hl, hr⟩ := hR.left hy
    exact ⟨b, y, hb, hy, hL, hl, hr⟩

theorem joinBelow_task (left : Bool) (ctx : Context) (p : Ptr) :
    (joinBelow left ctx p).st = ctx.st ∧ (joinBelow left ctx p).stage = ctx.stage ∧
      (joinBelow left ctx p).ver = ctx.ver ∧ (joinBelow left ctx p).root = ctx.root ∧
      (joinBelow left ctx p).fn = ctx.fn ∧ (joinBelow left ctx p).tPast = ctx.tPast := by
  cases left <;> exact ⟨rfl, rfl, rfl, rfl, rfl, rfl⟩

section
variable (hu : OpenAt h ctxs u a x) (howned : Owned h ctxs)
  (hcommit : ∀ w ≤ numCommitted, Finished ctxs w)
include hu howned hcommit

/-- A searching task's node after the step: linked on both sides, it stands for what it
stood for, and the task is placed below it. -/
theorem search_plan (left : Bool) (hdir : left = decide ((ctxs u).dir = .left))
    (hdo : Searching (ctxs u) x d) {ctxF : Context}
    (hold : Plan h ctxs steps (steps u) (some b) (node d l r)) (hy : h.get? b = some y)
    (hbound : VerBound v (node d l r)) (hlt : v < u)
    (hahead : Finished ctxs y.ver ∨ steps u < steps y.ver)
    (hrun : update (setChild (!left) h a (childPtr (!left) y)) numCommitted
      { ctxs u with tPast := childPtr left y } = some (s', ctx', q))
    (hb : Below h (setChild (!left) h a (childPtr (!left) y)) s' h' ctxs u a
      { ctxs u with tPast := childPtr left y } ctx' q ctxF)
    (hctxs' : ctxs' = Function.update ctxs u ctxF)
    (hsteps' : steps' = Function.update steps u (steps u + 1))
    (hx' : h'.get? a = some x') (hdatum : x'.datum = x.datum) (hcq : childPtr left x' = q)
    (hco : childPtr (!left) x' = childPtr (!left) y)
    (hnew : Plan h' ctxs' steps' (steps u) (some b) (node d l r)) :
    Plan h' ctxs' steps' (steps u) (some a) ((ctxs u).target (node d l r)) ∧
      (¬ Finished ctxs' u → Placed h' ctxs' steps' u) := by
  have hmoves := hb.moves hu steps (steps u + 1)
  have hland := hb.lands hu
  have hfresh : ¬ Finished ctxs' u → ∃ c, (ctxs' u).tCur = some c ∧ h.size ≤ c := by
    rw [hctxs', Finished, Function.update_self]
    exact hb.fresh
  rw [← hctxs', ← hsteps'] at hmoves
  rw [← hctxs'] at hland
  have hcount : steps' u = steps u + 1 := by rw [hsteps', Function.update_self]
  have hdlt : d.ver < u := Nat.lt_of_le_of_lt hbound.1 hlt
  have hyver : y.ver < u := by
    obtain ⟨z, l', r', hz, heq⟩ := hold.of_some
    obtain rfl := Option.some.inj (hy.symm.trans hz)
    cases heq
    exact hdlt
  have hy' : h'.get? b = some y :=
    hb.around.cells (hu.ne_of_ver hy (Nat.ne_of_lt hyver)) hy
  have hpassed : Finished ctxs' y.ver ∨ steps u < steps' y.ver := by
    rw [hsteps', Function.update_of_ne (Nat.ne_of_lt hyver)]
    exact hahead.imp hmoves.finished id
  obtain ⟨hl, hr⟩ := hnew.children hy' hpassed
  obtain ⟨hc, ho⟩ := plan_sides left hl hr
  rcases update_below hu hcommit left hdo.fn hy hold hbound hlt hahead with
    ⟨-, -, -, hnone⟩ | ⟨s₂, ctx₂, q₂, hrun₂, -, -, -, hout⟩
  · rw [hrun] at hnone
    cases hnone
  · rw [hrun] at hrun₂
    cases hrun₂
    obtain ⟨hq, hplaced⟩ := hout.plan hland (hb.around.fresh_mem hu.lt_size _ (Nat.le_refl _))
      hcount hc (verBound_sides left hbound) hdlt
    refine ⟨?_, hplaced⟩
    rw [hdo.target_sides left hdir]
    rw [← hcq] at hq
    rw [← hco] at ho
    exact hmoves.joinSides left howned hu hfresh hx' hdatum hq ho

/-- The outcome of `update_` below is put in place, and the node the task leaves stands
for what it stood for. -/
theorem search_effect (hdo : Searching (ctxs u) x d)
    (hpast : Plan h ctxs steps (steps u) (ctxs u).tPast (node d l r))
    (hbound : VerBound v (node d l r)) (hlt : v < u)
    (hahead : ∀ b y, (ctxs u).tPast = some b → h.get? b = some y →
      Finished ctxs y.ver ∨ steps u < steps y.ver) :
    (∃ w, numCommitted < w ∧ w < u ∧ executeOneStep h numCommitted (ctxs u) = none) ∨
    ∃ h' ctx', executeOneStep h numCommitted (ctxs u) = some (h', ctx') ∧
      Effect h ctxs steps u numCommitted h' ctx' := by
  obtain ⟨b, y, hp, hy, hd⟩ := hpast.of_node
  obtain ⟨left, hdir⟩ : ∃ left, left = decide ((ctxs u).dir = .left) := ⟨_, rfl⟩
  have heq := executeOneStep_search numCommitted left hdo.fn hdir hu.cur hp hy
  have hpassed := hahead b y hp hy
  rw [hp] at hpast
  rcases update_below hu hcommit left hdo.fn hy hpast hbound hlt hpassed with
    ⟨w, hw, hwu, hnone⟩ | ⟨s', ctx', q, hrun, hgrow, hsame, hjoins, hout⟩
  · exact Or.inl ⟨w, hw, hwu, by rw [heq, hnone, Option.bind_none]⟩
  · refine Or.inr ⟨setChild left s' a q, { ctx' with tCur := q },
      by rw [heq, hrun, Option.bind_some], ?_⟩
    obtain ⟨har, x', hx', hdatum, hcq, hco⟩ :=
      around_setChild left hu.cell (childPtr (!left) y) hgrow q
    have hbelow : Below h _ s' (setChild left s' a q) ctxs u a _ ctx' q { ctx' with tCur := q } :=
      ⟨har, hsame, ⟨rfl, rfl, rfl, rfl⟩, hout.status, Or.inr rfl⟩
    have hplans : ∀ {n p t}, Plan h ctxs steps n p t →
        Plan (setChild left s' a q) (Function.update ctxs u { ctx' with tCur := q })
          (Function.update steps u (steps u + 1)) n p t := by
      refine Plan.moves (hbelow.moves hu steps (steps u + 1)) ?_ ?_ ?_
      · intro a₂ x₂ d₂ l₂ r₂ v₂ hu₂ hdo₂ hold hbound₂ hlt₂ hnew
        obtain rfl : a = a₂ := Option.some.inj (hu.cur.symm.trans hu₂.cur)
        obtain rfl := Option.some.inj (hu.cell.symm.trans hu₂.cell)
        rw [hp] at hold hnew
        exact (search_plan hu howned hcommit left hdir hdo₂ hold hy hbound₂ hlt₂ hpassed hrun
          hbelow rfl rfl hx' hdatum hcq hco hnew).1
      · exact fun _ hdo₂ => absurd (hdo.fn.symm.trans hdo₂.fn) (by simp)
      · exact fun _ hdo₂ => absurd (hdo.fn.symm.trans hdo₂.fn) (by simp)
    refine hbelow.effect hu hcommit hjoins hplans fun hst => ?_
    refine (search_plan hu howned hcommit left hdir hdo hpast hy hbound hlt hpassed hrun
      hbelow rfl rfl hx' hdatum hcq hco (hplans hpast)).2 ?_
    rw [Finished, Function.update_self]
    exact hst

/-! ### Copying the links

The one case in which nothing is made: the counter has been changed, and the node takes
over both links.
-/

/-- The node is linked to both children of the original, and the task is done. -/
theorem setref_effect (hdo : Recounting (ctxs u) x d)
    (hpast : Plan h ctxs steps (steps u) (ctxs u).tPast (node d l r))
    (hahead : ∀ b y, (ctxs u).tPast = some b → h.get? b = some y →
      Finished ctxs y.ver ∨ steps u < steps y.ver) :
    ∃ b y, (ctxs u).tPast = some b ∧ h.get? b = some y ∧
      Effect h ctxs steps u numCommitted (setRch (setLch h a y.lch) a y.rch) (ctxs u).done := by
  obtain ⟨b, y, hp, hy, hd⟩ := hpast.of_node
  refine ⟨b, y, hp, hy, ?_⟩
  have hx' : (setRch (setLch h a y.lch) a y.rch).get? a
      = some { x with lch := y.lch, rch := y.rch } :=
    get?_setRch (get?_setLch hu.cell y.lch) y.rch
  have hoff : ∀ c, c ≠ a → (setRch (setLch h a y.lch) a y.rch).get? c = h.get? c := fun c hc =>
    (Heap.get?_modify_of_ne hc).trans (Heap.get?_modify_of_ne hc)
  have har : Around h h h (setRch (setLch h a y.lch) a y.rch) a := by
    refine ⟨fun _ _ => rfl, rfl, .refl h, hoff, Heap.size_modify.trans Heap.size_modify, ?_, ?_⟩
    · intro z z' hz hz'
      rw [Option.some.inj (hz.symm.trans hz')]
    · intro z z' hz hz'
      obtain rfl := Option.some.inj (hu.cell.symm.trans hz)
      rw [← Option.some.inj (hx'.symm.trans hz')]
  have hbelow : Below h h h (setRch (setLch h a y.lch) a y.rch) ctxs u a (ctxs u) (ctxs u).done none
      (ctxs u).done :=
    ⟨har, ⟨rfl, rfl, rfl, rfl, rfl, rfl⟩, ⟨rfl, rfl, rfl, rfl⟩, Or.inl ⟨rfl, rfl⟩,
      Or.inl ⟨rfl, rfl, rfl, rfl, rfl⟩⟩
  have hmoves := hbelow.moves hu steps (steps u + 1)
  have hfin : Finished (Function.update ctxs u (ctxs u).done) u := by
    rw [Finished, Function.update_self]
    rfl
  refine hbelow.effect hu hcommit (fun hfn => ?_) (Plan.moves hmoves ?_ ?_ ?_)
    fun hst => absurd rfl hst
  · have hcontra := hdo.fn.symm.trans (show (ctxs u).fn = .concat from hfn)
    simp at hcontra
  · exact fun _ hdo₂ => absurd (hdo.fn.symm.trans hdo₂.fn) (by simp)
  · intro a₂ x₂ d₂ l₂ r₂ v₂ hu₂ hdo₂ hold hbound₂ hlt₂ hnew
    obtain rfl : a = a₂ := Option.some.inj (hu.cur.symm.trans hu₂.cur)
    obtain rfl := Option.some.inj (hu.cell.symm.trans hu₂.cell)
    rw [hp] at hold hnew
    have hyver : y.ver < u := by
      obtain ⟨z, l', r', hz, heq⟩ := hold.of_some
      obtain rfl := Option.some.inj (hy.symm.trans hz)
      cases heq
      exact Nat.lt_of_le_of_lt hbound₂.1 hlt₂
    have hy' := har.cells (hu.ne_of_ver hy (Nat.ne_of_lt hyver)) hy
    have hpassed : Finished (Function.update ctxs u (ctxs u).done) y.ver ∨
        steps u < Function.update steps u (steps u + 1) y.ver := by
      rw [Function.update_of_ne (Nat.ne_of_lt hyver)]
      exact (hahead b y hp hy).imp hmoves.finished id
    obtain ⟨hl, hr⟩ := hnew.children hy' hpassed
    rw [hdo₂.target]
    exact hmoves.linked howned hu (fun hnot => absurd hfin hnot) hx' rfl hl hr
  · exact fun _ hdo₂ => absurd (hdo.fn.symm.trans hdo₂.fn) (by simp)

/-! ### Joining

As for a search, one side is linked to what was there, and below the other the join goes
on.  What is joined was committed when the task began to join, so all of it is there.
-/

/-- A joining task's step, from the outcome of joining below. -/
theorem join_effect (left : Bool) (hdir : left = decide ((ctxs u).dir = .left))
    {dL dR : Datum} {lL rL lR rR : BinaryTree Datum} (hdo : Joining (ctxs u) x dL dR)
    (hL : Settled h ctxs (ctxs u).tL (node dL lL rL))
    (hR : Settled h ctxs (ctxs u).tR (node dR lR rR)) {ctx₁ ctxF : Context}
    (hb : Below h h₁ s' h' ctxs u a ctx₁ ctx' q ctxF) (hjoins : Joins h₁ numCommitted ctx')
    (hj : Joined h₁ s' (Off a) (Finished ctxs) ctx₁ ctx' q
      (concatTree u (if left then node dL lL rL else rL) (if left then lR else node dR lR rR)))
    (hx' : h'.get? a = some x') (hdatum : x'.datum = x.datum) (hcq : childPtr left x' = q)
    (ho : Settled h ctxs (childPtr (!left) x') (if left then rR else lL)) :
    Effect h ctxs steps u numCommitted h' ctxF := by
  have hmoves := hb.moves hu steps (steps u + 1)
  obtain ⟨hq, hplaced⟩ := hj.plan (m := steps u + 1) (hb.lands hu)
    (hb.around.fresh_mem hu.lt_size _ (Nat.le_refl _))
    (show Function.update steps u (steps u + 1) u = steps u + 1 from Function.update_self ..)
  have hfresh : ¬ Finished (Function.update ctxs u ctxF) u →
      ∃ c, (Function.update ctxs u ctxF u).tCur = some c ∧ h.size ≤ c := by
    rw [Finished, Function.update_self]
    exact hb.fresh
  refine hb.effect hu hcommit hjoins (Plan.moves hmoves ?_ ?_ ?_) fun hst => hplaced ?_
  · exact fun _ hdo₂ => absurd (hdo.fn.symm.trans hdo₂.fn) (by simp)
  · exact fun _ hdo₂ => absurd (hdo.fn.symm.trans hdo₂.fn) (by simp)
  · intro a₂ x₂ dL₂ dR₂ lL₂ rL₂ lR₂ rR₂ hu₂ hdo₂ hL₂ hR₂
    obtain rfl : a = a₂ := Option.some.inj (hu.cur.symm.trans hu₂.cur)
    cases hL.shows.unique hL₂.shows
    cases hR.shows.unique hR₂.shows
    rw [← hcq] at hq
    have hnode := hmoves.joinSides left howned hu hfresh hx' hdatum (n := steps u) hq
      (.settled (hmoves.settled ho))
    rw [← hu.self] at hnode ⊢
    rwa [hdo.concat_sides left hdir]
  · rw [Finished, Function.update_self]
    exact hst

/-- The outcome of `concat_` below is put in place. -/
theorem concat_effect {dL dR : Datum} {lL rL lR rR : BinaryTree Datum}
    (hdo : Joining (ctxs u) x dL dR) (hL : Settled h ctxs (ctxs u).tL (node dL lL rL))
    (hR : Settled h ctxs (ctxs u).tR (node dR lR rR)) (hjoin : Joins h numCommitted (ctxs u)) :
    ∃ h' ctx', executeOneStep h numCommitted (ctxs u) = some (h', ctx') ∧
      Effect h ctxs steps u numCommitted h' ctx' := by
  obtain ⟨left, hdir⟩ : ∃ left, left = decide ((ctxs u).dir = .left) := ⟨_, rfl⟩
  obtain ⟨b, y, htop, hy, hLs, hRs, hos⟩ := join_sides left hL hR
  obtain ⟨hst, hstage, hver, hroot, hfn, hpast⟩ := joinBelow_task left (ctxs u) (childPtr left y)
  have hoff : ∀ c, c ≠ a → (setChild (!left) h a (childPtr (!left) y)).get? c = h.get? c :=
    fun c hc => get?_setChild_of_ne _ hc _
  obtain ⟨s', ctx', q, hrun, hgrow, hsame, hfn', hj⟩ := concat_spec (F := Finished ctxs)
    (hfn.trans hdo.fn) (rep_of_off (hu.off hLs) hoff) (rep_of_off (hu.off hRs) hoff)
    hLs.finished hRs.finished
  obtain ⟨har, x', hx', hdatum, hcq, hco⟩ :=
    around_setChild left hu.cell (childPtr (!left) y) hgrow q
  refine ⟨setChild left s' a q, { ctx' with tCur := q }, ?_, ?_⟩
  · rw [executeOneStep_concat left hdo.fn hdir hu.cur htop hy, hrun, Option.bind_some]
  · rw [hver, hu.self] at hj
    refine join_effect hu howned hcommit left hdir hdo hL hR
      ⟨har, hsame, ⟨hst, hstage, hver, hroot⟩, hj.status, Or.inr rfl⟩ ?_ hj hx' hdatum hcq
      (hco ▸ hos)
    intro _
    obtain ⟨b', y', hp', hy', hle⟩ := hjoin hdo.fn
    have hba : b' ≠ a := hu.ne_of_ver hy' fun heq => hu.running (hcommit u (heq ▸ hle))
    exact ⟨b', y', hsame.tPast.trans (hpast.trans hp'), (hoff b' hba).trans hy', hle⟩

/--
**One step keeps the plan.**  A placed task either waits for a version before its own
to be committed, or takes its step, and the step has its effect.
-/
theorem executeOneStep_effect (hplaced : Plan h ctxs steps n (some a) t)
    (hahead : ∀ b y, (ctxs u).tPast = some b → h.get? b = some y →
      Finished ctxs y.ver ∨ steps u < steps y.ver)
    (hjoin : Joins h numCommitted (ctxs u)) :
    (∃ w, numCommitted < w ∧ w < u ∧ executeOneStep h numCommitted (ctxs u) = none) ∨
    ∃ h' ctx', executeOneStep h numCommitted (ctxs u) = some (h', ctx') ∧
      Effect h ctxs steps u numCommitted h' ctx' := by
  rcases hu.task hplaced with ⟨d, l, r, v, hdo, hpast, hbound, hlt⟩ |
    ⟨d, l, r, v, hdo, hpast, hbound, hlt⟩ | ⟨dL, lL, rL, dR, lR, rR, hdo, hL, hR⟩
  · exact search_effect hu howned hcommit hdo hpast hbound hlt hahead
  · obtain ⟨b, y, hp, hy, heff⟩ := setref_effect hu howned hcommit hdo hpast hahead
    exact Or.inr ⟨_, _, executeOneStep_setref hdo.fn hu.cur hp hy, heff⟩
  · exact Or.inr (concat_effect hu howned hcommit hdo hL hR hjoin)

end

end Scheduler
