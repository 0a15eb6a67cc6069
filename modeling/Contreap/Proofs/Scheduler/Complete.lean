/-
`execute_to_complete_` finishes a task whose past is committed.

Everything below the node the task reads is settled then, so the rest of the operation
is the sequential one, on a tree that is there.  The effect is that of a step with the
task done at the end of it.
-/
import Contreap.Proofs.Scheduler.Execute

namespace Scheduler

open BinaryTree Cartesian PtrHeap Treap

variable {h h₁ h' s s' : Store} {ctxs : Nat → Context} {steps : Nat → Nat}
  {n u v numCommitted : Nat} {p q : Ptr} {t l r : BinaryTree Datum} {a b : Addr}
  {x y : Node} {ctx : Context} {d : Datum} {S : Set Addr}

/-! ### The steps

What each branch of `execute_to_complete_` computes, on either side, in terms of the
sequential function it calls.
-/

/-- One link is taken over, and the other is what the sequential update returns. -/
theorem executeToComplete_search (left : Bool) (hfn : ctx.fn = .search)
    (hdir : left = decide (ctx.dir = .left)) (hcur : ctx.tCur = some a) (hpast : ctx.tPast = some b)
    (hy : h.get? b = some y) :
    executeToComplete h ctx
      = (searchRest (setChild (!left) h a (childPtr (!left) y))
          { ctx with tPast := childPtr left y }).bind
          fun r => some (setChild left r.1 a r.2, ({ ctx with tPast := childPtr left y }).done) := by
  obtain ⟨st, op, fn, dir, tCur, tPast, ver, pry, key, tL, tR, stage, root⟩ := ctx
  obtain rfl : fn = .search := hfn
  obtain rfl : tCur = some a := hcur
  obtain rfl : tPast = some b := hpast
  by_cases hd : dir = .left
  · obtain rfl : left = true := by simpa [hd] using hdir
    simp only [executeToComplete, hy, if_pos hd, Option.bind_eq_bind, Option.bind_some]
    rfl
  · obtain rfl : left = false := by simpa [hd] using hdir
    simp only [executeToComplete, hy, if_neg hd, Option.bind_eq_bind, Option.bind_some]
    rfl

theorem executeToComplete_setref (hfn : ctx.fn = .setref) (hcur : ctx.tCur = some a)
    (hpast : ctx.tPast = some b) (hy : h.get? b = some y) :
    executeToComplete h ctx = some (setRch (setLch h a y.lch) a y.rch, ctx.done) := by
  simp only [executeToComplete, hcur, hpast, hy, hfn, Option.bind_eq_bind, Option.bind_some]

/-- One link is taken over, and the other is what the sequential join returns. -/
theorem executeToComplete_concat (left : Bool) (hfn : ctx.fn = .concat)
    (hdir : left = decide (ctx.dir = .left)) (hcur : ctx.tCur = some a)
    (htop : (if left then ctx.tR else ctx.tL) = some b) (hy : h.get? b = some y) :
    executeToComplete h ctx
      = (processConcat (recursionBound (setChild (!left) h a (childPtr (!left) y))
            + recursionBound (setChild (!left) h a (childPtr (!left) y)))
          (setChild (!left) h a (childPtr (!left) y)) (joinBelow left ctx (childPtr left y)).ver
          (joinBelow left ctx (childPtr left y)).tL (joinBelow left ctx (childPtr left y)).tR).bind
          fun r => some (setChild left r.1 a r.2, (joinBelow left ctx (childPtr left y)).done) := by
  obtain ⟨st, op, fn, dir, tCur, tPast, ver, pry, key, tL, tR, stage, root⟩ := ctx
  obtain rfl : fn = .concat := hfn
  obtain rfl : tCur = some a := hcur
  by_cases hd : dir = .left
  · obtain rfl : left = true := by simpa [hd] using hdir
    obtain rfl : tR = some b := htop
    simp only [executeToComplete, hy, if_pos hd, Option.bind_eq_bind, Option.bind_some]
    rfl
  · obtain rfl : left = false := by simpa [hd] using hdir
    obtain rfl : tL = some b := htop
    simp only [executeToComplete, hy, if_neg hd, Option.bind_eq_bind, Option.bind_some]
    rfl

/-- The sequential update reaches the target. -/
theorem searchRest_spec (ctx : Context) (hS : ∀ c, s.size ≤ c → c ∈ S) (hp : Rep layout s S ctx.tPast t) :
    ∃ s' q, searchRest s ctx = some (s', q) ∧ Grows s s' ∧ Rep layout s' S q (ctx.target t) := by
  have hheight : t.height < recursionBound s := Nat.lt_succ_of_le hp.height_le
  unfold searchRest Context.target
  by_cases hop : ctx.op = .insert
  · rw [if_pos hop, if_pos hop]
    exact searchInsert_spec ctx.ver ctx.pry ctx.key hS hp hheight
  · rw [if_neg hop, if_neg hop]
    exact searchDelete_spec ctx.ver ctx.pry ctx.key hS hp hheight

theorem target_finished {F : Nat → Prop} (hF : ∀ e ∈ t.inorder, F e.ver) :
    ∀ e ∈ (ctx.target t).inorder, e.ver = ctx.ver ∨ F e.ver := by
  have hF' : ∀ e ∈ t.inorder, e.ver = ctx.ver ∨ F e.ver := fun e he => Or.inr (hF e he)
  unfold Context.target
  split
  · exact forall_ver_insertTree (Q := fun w => w = ctx.ver ∨ F w) _ _ (Or.inl rfl) hF'
  · exact forall_ver_deleteTree (Q := fun w => w = ctx.ver ∨ F w) _ _ (Or.inl rfl) hF'

/-! ### Their effect

The version that was waited for covers the tree the task reads, so the sequential
function finds all of it linked, and the result can be linked in its place at once.
-/

/-- What a task reads is settled once its version is committed. -/
theorem past_settled (hcommit : ∀ w ≤ numCommitted, Finished ctxs w)
    (hpast : Plan h ctxs steps n p (node d l r))
    (hbound : VerBound v (node d l r)) (hdep : d.ver ≤ numCommitted) :
    Settled h ctxs p (node d l r) :=
  hpast.settle (v := d.ver) ⟨Nat.le_refl _, hbound.2⟩ fun w hw => hcommit w (hw.trans hdep)

section
variable (hu : OpenAt h ctxs u a x) (howned : Owned h ctxs)
  (hcommit : ∀ w ≤ numCommitted, Finished ctxs w)
include hu howned hcommit

/-- The sequential update is run on the subtree the task would go down to, which is
settled. -/
theorem complete_search (hdo : Searching (ctxs u) x d)
    (hpast : Plan h ctxs steps (steps u) (ctxs u).tPast (node d l r))
    (hbound : VerBound v (node d l r)) (hdep : d.ver ≤ numCommitted) :
    ∃ h' ctx', executeToComplete h (ctxs u) = some (h', ctx') ∧ ctx'.st = .done ∧
      Effect h ctxs steps u numCommitted h' ctx' := by
  have hs := past_settled hcommit hpast hbound hdep
  obtain ⟨b, y, hp, hy, hd⟩ := hpast.of_node
  obtain ⟨left, hdir⟩ : ∃ left, left = decide ((ctxs u).dir = .left) := ⟨_, rfl⟩
  have hs' := hs
  rw [hp] at hs'
  obtain ⟨-, hsl, hsr⟩ := hs'.left hy
  have hsc : Settled h ctxs (childPtr left y) (if left then l else r) := by
    cases left
    · exact hsr
    · exact hsl
  have hso : Settled h ctxs (childPtr (!left) y) (if left then r else l) := by
    cases left
    · exact hsl
    · exact hsr
  have hoff : ∀ c, c ≠ a → (setChild (!left) h a (childPtr (!left) y)).get? c = h.get? c :=
    fun c hc => get?_setChild_of_ne _ hc _
  have hS : ∀ c, (setChild (!left) h a (childPtr (!left) y)).size ≤ c → c ∈ Off a := by
    intro c hc hca
    rw [size_setChild] at hc
    exact absurd (hca ▸ hu.lt_size) (Nat.not_lt.mpr hc)
  obtain ⟨s', q, hrun, hgrow, hq⟩ := searchRest_spec
    { ctxs u with tPast := childPtr left y } hS (rep_of_off (hu.off hsc) hoff)
  obtain ⟨har, x', hx', hdatum, hcq, hco⟩ :=
    around_setChild left hu.cell (childPtr (!left) y) hgrow q
  have hj : Joined (setChild (!left) h a (childPtr (!left) y)) s' (Off a) (Finished ctxs)
      { ctxs u with tPast := childPtr left y } ({ ctxs u with tPast := childPtr left y }).done q
      ((ctxs u).target (if left then l else r)) :=
    .closed ⟨rfl, rfl, hq, target_finished hsc.finished⟩
  have hb : Below h (setChild (!left) h a (childPtr (!left) y)) s' (setChild left s' a q) ctxs u a
      { ctxs u with tPast := childPtr left y } ({ ctxs u with tPast := childPtr left y }).done q
      ({ ctxs u with tPast := childPtr left y }).done :=
    ⟨har, ⟨rfl, rfl, rfl, rfl, rfl, rfl⟩, ⟨rfl, rfl, rfl, rfl⟩, hj.status,
      Or.inl ⟨rfl, rfl, rfl, rfl, rfl⟩⟩
  have hmoves := hb.moves hu steps (steps u + 1)
  have hfin : Finished (Function.update ctxs u ({ ctxs u with tPast := childPtr left y }).done) u := by
    rw [Finished, Function.update_self]
    rfl
  obtain ⟨hqplan, -⟩ := hj.plan (m := steps u + 1) (hb.lands hu)
    (hb.around.fresh_mem hu.lt_size _ (Nat.le_refl _))
    (show Function.update steps u (steps u + 1) u = steps u + 1 from Function.update_self ..)
  refine ⟨_, _, ?_, rfl, hb.effect hu hcommit (fun hfn => ?_) (Plan.moves hmoves ?_ ?_ ?_)
    fun hst => absurd rfl hst⟩
  · rw [executeToComplete_search left hdo.fn hdir hu.cur hp hy, hrun, Option.bind_some]
  · have hcontra := hdo.fn.symm.trans (show (ctxs u).fn = .concat from hfn)
    simp at hcontra
  · intro a₂ x₂ d₂ l₂ r₂ v₂ hu₂ hdo₂ hold hbound₂ hlt₂ hnew
    obtain rfl : a = a₂ := Option.some.inj (hu.cur.symm.trans hu₂.cur)
    obtain rfl := Option.some.inj (hu.cell.symm.trans hu₂.cell)
    -- The tree read is the settled one.
    have hd₂ : d₂.ver ≤ numCommitted := by
      obtain ⟨b₂, y₂, hp₂, hy₂, rfl⟩ := hold.of_node
      obtain rfl : b = b₂ := Option.some.inj (hp.symm.trans hp₂)
      obtain rfl := Option.some.inj (hy.symm.trans hy₂)
      rw [hd]
      exact hdep
    cases hs.shows.unique (past_settled hcommit hold hbound₂ hd₂).shows
    rw [hdo.target_sides left hdir]
    exact hmoves.joinSides left howned hu (fun hnot => absurd hfin hnot) hx' hdatum
      (by rw [hcq]; exact hqplan) (.settled (hmoves.settled (hco ▸ hso)))
  · exact fun _ hdo₂ => absurd (hdo.fn.symm.trans hdo₂.fn) (by simp)
  · exact fun _ hdo₂ => absurd (hdo.fn.symm.trans hdo₂.fn) (by simp)

/-- The sequential join is run on the two trees that are left. -/
theorem complete_concat {dL dR : Datum} {lL rL lR rR : BinaryTree Datum}
    (hdo : Joining (ctxs u) x dL dR) (hL : Settled h ctxs (ctxs u).tL (node dL lL rL))
    (hR : Settled h ctxs (ctxs u).tR (node dR lR rR)) (hjoin : Joins h numCommitted (ctxs u)) :
    ∃ h' ctx', executeToComplete h (ctxs u) = some (h', ctx') ∧ ctx'.st = .done ∧
      Effect h ctxs steps u numCommitted h' ctx' := by
  obtain ⟨left, hdir⟩ : ∃ left, left = decide ((ctxs u).dir = .left) := ⟨_, rfl⟩
  obtain ⟨b, y, htop, hy, hLs, hRs, hos⟩ := join_sides left hL hR
  obtain ⟨hst, hstage, hver, hroot, hfn, hpast⟩ := joinBelow_task left (ctxs u) (childPtr left y)
  have hoff : ∀ c, c ≠ a → (setChild (!left) h a (childPtr (!left) y)).get? c = h.get? c :=
    fun c hc => get?_setChild_of_ne _ hc _
  have hS : ∀ c, (setChild (!left) h a (childPtr (!left) y)).size ≤ c → c ∈ Off a := by
    intro c hc hca
    rw [size_setChild] at hc
    exact absurd (hca ▸ hu.lt_size) (Nat.not_lt.mpr hc)
  have hLr := rep_of_off (hu.off hLs) hoff
  have hRr := rep_of_off (hu.off hRs) hoff
  have hroom : (if left then node dL lL rL else rL).height
      + (if left then lR else node dR lR rR).height
      < recursionBound (setChild (!left) h a (childPtr (!left) y))
        + recursionBound (setChild (!left) h a (childPtr (!left) y)) :=
    Nat.add_lt_add (Nat.lt_succ_of_le hLr.height_le) (Nat.lt_succ_of_le hRr.height_le)
  obtain ⟨s', q, hrun, hgrow, hq⟩ :=
    processConcat_spec (joinBelow left (ctxs u) (childPtr left y)).ver hS hLr hRr hroom
  obtain ⟨har, x', hx', hdatum, hcq, hco⟩ :=
    around_setChild left hu.cell (childPtr (!left) y) hgrow q
  have hj : Joined (setChild (!left) h a (childPtr (!left) y)) s' (Off a) (Finished ctxs)
      (joinBelow left (ctxs u) (childPtr left y)) (joinBelow left (ctxs u) (childPtr left y)).done q
      (concatTree (joinBelow left (ctxs u) (childPtr left y)).ver
        (if left then node dL lL rL else rL) (if left then lR else node dR lR rR)) := by
    refine .closed ⟨rfl, rfl, hq, ?_⟩
    exact forall_ver_concatTree
      (Q := fun w => w = (joinBelow left (ctxs u) (childPtr left y)).ver ∨ Finished ctxs w)
      (Or.inl rfl) (fun e he => Or.inr (hLs.finished e he)) fun e he => Or.inr (hRs.finished e he)
  have hb : Below h (setChild (!left) h a (childPtr (!left) y)) s' (setChild left s' a q) ctxs u a
      (joinBelow left (ctxs u) (childPtr left y)) (joinBelow left (ctxs u) (childPtr left y)).done q
      (joinBelow left (ctxs u) (childPtr left y)).done :=
    ⟨har, ⟨rfl, rfl, rfl, rfl, rfl, rfl⟩, ⟨hst, hstage, hver, hroot⟩, hj.status,
      Or.inl ⟨rfl, rfl, rfl, rfl, rfl⟩⟩
  rw [hver, hu.self] at hj
  refine ⟨setChild left s' a q, (joinBelow left (ctxs u) (childPtr left y)).done, ?_, rfl,
    join_effect hu howned hcommit left hdir hdo hL hR hb ?_ hj hx' hdatum hcq (hco ▸ hos)⟩
  · rw [executeToComplete_concat left hdo.fn hdir hu.cur htop hy, hrun, Option.bind_some]
  · intro _
    obtain ⟨b', y', hp', hy', hle⟩ := hjoin hdo.fn
    have hba : b' ≠ a := hu.ne_of_ver hy' fun heq => hu.running (hcommit u (heq ▸ hle))
    exact ⟨b', y', hpast.trans hp', (hoff b' hba).trans hy', hle⟩

/-- **A task is brought to its end** when the version it depends on is committed. -/
theorem executeToComplete_effect (hplaced : Plan h ctxs steps n (some a) t)
    (hdep : ∀ b y, (ctxs u).tPast = some b → h.get? b = some y → y.ver ≤ numCommitted)
    (hjoin : Joins h numCommitted (ctxs u)) :
    ∃ h' ctx', executeToComplete h (ctxs u) = some (h', ctx') ∧ ctx'.st = .done ∧
      Effect h ctxs steps u numCommitted h' ctx' := by
  have hahead : ∀ b y, (ctxs u).tPast = some b → h.get? b = some y →
      Finished ctxs y.ver ∨ steps u < steps y.ver :=
    fun b y hp hy => Or.inl (hcommit _ (hdep b y hp hy))
  rcases hu.task hplaced with ⟨d, l, r, v, hdo, hpast, hbound, -⟩ |
    ⟨d, l, r, v, hdo, hpast, hbound, hlt⟩ | ⟨dL, lL, rL, dR, lR, rR, hdo, hL, hR⟩
  · obtain ⟨b, y, hp, hy, rfl⟩ := hpast.of_node
    exact complete_search hu howned hcommit hdo hpast hbound (hdep b y hp hy)
  · obtain ⟨b, y, hp, hy, heff⟩ := setref_effect hu howned hcommit hdo hpast hahead
    exact ⟨_, _, executeToComplete_setref hdo.fn hu.cur hp hy, rfl, heff⟩
  · exact complete_concat hu howned hcommit hdo hL hR hjoin

end

end Scheduler
