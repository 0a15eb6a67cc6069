/-
A database that answers each query rightly, answers rightly in any interleaving.

`Serves` is what has to be known of a database by itself: of its steps, of its pushes, and
of one client at work on one query while the others go on.  From this it follows, for all
clients and any order of steps, that whatever is stored as the answer to the `i`-th push
is a right answer to what was pushed there (`results_right`), and that after `Stop` all
queries are answered once if the queue was being drained when the flag was cleared
(`answered_once_iff`).
-/
import Contreap.Model.Interface
import Contreap.Proofs.QueryProcessor

namespace DB

open Transition

variable {σ α κ : Type} {n : Nat} {S : Server σ α κ} {s s' : State σ κ} {a : Action α}
  {qp qp' : QueryProcessor.State} {f : Nat → UInt64 → UInt64 → UInt64}

/-! ### The query processor's part of a step

The invariants of the query processor were proved for it alone.  They carry over,
because a step of the whole is one of its steps, whatever the answer, or none.
-/

/-- A step of the whole is one of the query processor, with some answer, or none of its. -/
theorem step_processor (h : step n S s a = some s') :
    s'.queryProcessor = s.queryProcessor ∨
      ∃ f b, QueryProcessor.step n f s.queryProcessor b = some s'.queryProcessor := by
  have hproc : ∀ {t : State σ κ} {b}, t.queryProcessor = s.queryProcessor →
      processorStep n t b = some s' →
      ∃ f b, QueryProcessor.step n f s.queryProcessor b = some s'.queryProcessor := by
    intro t b ht hrun
    obtain ⟨qp, hqp, rfl⟩ := Option.map_eq_some_iff.mp hrun
    exact ⟨_, b, ht ▸ hqp⟩
  cases a with
  | start => exact Or.inr (hproc rfl h)
  | begin => exact Or.inr (hproc rfl h)
  | join => exact Or.inr (hproc rfl h)
  | stop =>
      simp only [step] at h
      split at h
      · exact Or.inr (hproc rfl h)
      · cases h
  | db b =>
      simp only [step] at h
      split at h
      · cases h
      · obtain ⟨db, -, rfl⟩ := Option.map_eq_some_iff.mp h
        exact Or.inl rfl
  | push =>
      obtain ⟨⟨p, db⟩, -, hrun⟩ := Option.bind_eq_some_iff.mp h
      exact Or.inr (hproc (t := { s with db := db }) rfl hrun)
  | client id pick =>
      simp only [step] at h
      split at h
      case isFalse => cases h
      next hid =>
      have hstep : ∀ {f qp}, QueryProcessor.processStep f s.queryProcessor id pick = some qp →
          QueryProcessor.step n f s.queryProcessor (.client id pick) = some qp := by
        intro f qp hrun
        simp only [QueryProcessor.step, if_pos hid]
        exact hrun
      unfold clientStep at h
      split at h
      · split at h
        · obtain ⟨qp, hqp, rfl⟩ := Option.map_eq_some_iff.mp h
          exact Or.inr ⟨_, _, hstep hqp⟩
        · obtain ⟨k, -, rfl⟩ := Option.map_eq_some_iff.mp h
          exact Or.inl rfl
      · obtain ⟨qp, hqp, rfl⟩ := Option.map_eq_some_iff.mp h
        refine Or.inr ⟨_, _, (hstep hqp).trans ?_⟩
        unfold dequeued
        split <;> rfl

/-- The database takes a step, or makes a push, or stays as it is. -/
theorem step_db (h : step n S s a = some s') :
    s'.db = s.db ∨ (∃ b, a = .db b ∧ S.step s.db b = some s'.db) ∨
      ∃ p, S.push s.db = some (p, s'.db) := by
  have hproc : ∀ {t : State σ κ} {b}, processorStep n t b = some s' → s'.db = t.db := by
    intro t b hrun
    obtain ⟨qp, -, rfl⟩ := Option.map_eq_some_iff.mp hrun
    rfl
  unfold step at h
  cases a with
  | start => exact Or.inl (hproc h)
  | begin => exact Or.inl (hproc h)
  | join => exact Or.inl (hproc h)
  | stop =>
      simp only at h
      split at h
      · exact Or.inl (hproc h)
      · cases h
  | db b =>
      simp only at h
      split at h
      · cases h
      · obtain ⟨db, hdb, rfl⟩ := Option.map_eq_some_iff.mp h
        exact Or.inr (Or.inl ⟨b, rfl, hdb⟩)
  | push =>
      obtain ⟨⟨p, db⟩, hpush, hrun⟩ := Option.bind_eq_some_iff.mp h
      rw [hproc hrun]
      exact Or.inr (Or.inr ⟨p, hpush⟩)
  | client id pick =>
      refine Or.inl ?_
      simp only [clientStep] at h
      split at h
      case isFalse => cases h
      split at h
      · split at h
        · obtain ⟨qp, -, rfl⟩ := Option.map_eq_some_iff.mp h
          rfl
        · obtain ⟨k, -, rfl⟩ := Option.map_eq_some_iff.mp h
          rfl
      · obtain ⟨qp, -, rfl⟩ := Option.map_eq_some_iff.mp h
        unfold dequeued
        split <;> rfl

/-- What the steps and the pushes of a database keep holds of it in the whole. -/
theorem reachable_db {I : σ → Prop} (hinit : I S.init)
    (hdb : ∀ db b db', I db → S.step db b = some db' → I db')
    (hpush : ∀ db p db', I db → S.push db = some (p, db') → I db')
    (hs : (system n S).Reachable s) : I s.db := by
  refine hs.invariant (I := fun s => I s.db) ?_ hinit
  intro s a s' h _ hstep
  rcases step_db hstep with heq | ⟨b, -, hb⟩ | ⟨p, hp⟩
  · rw [heq]
    exact h
  · exact hdb _ _ _ h hb
  · exact hpush _ _ _ h hp

/-- Pushes are counted up. -/
theorem numQueries_le (h : step n S s a = some s') :
    s.queryProcessor.numQueries ≤ s'.queryProcessor.numQueries := by
  rcases step_processor h with heq | ⟨f, b, hb⟩
  · rw [heq]
  · exact QueryProcessor.numQueries_le hb

/-- What no interleaving changes about the query processor. -/
theorem step_accounted (hlife : QueryProcessor.Lifetimes n s.queryProcessor)
    (hacc : QueryProcessor.Accounted n s.queryProcessor) (h : step n S s a = some s') :
    QueryProcessor.Lifetimes n s'.queryProcessor ∧
      QueryProcessor.Accounted n s'.queryProcessor := by
  rcases step_processor h with heq | ⟨f, b, hb⟩
  · rw [heq]
    exact ⟨hlife, hacc⟩
  · refine ⟨QueryProcessor.step_lifetimes hlife hb, QueryProcessor.step_accounted ?_ hacc hb⟩
    intro k hk id hid
    unfold QueryProcessor.Lifetimes at hlife
    rw [hk] at hlife
    exact hlife id hid

theorem reachable_accounted {good : State σ κ → Action α → Prop}
    (hs : (system n S).Reach good (init S) s) :
    QueryProcessor.Lifetimes n s.queryProcessor ∧
      QueryProcessor.Accounted n s.queryProcessor := by
  refine hs.invariant (I := fun s => QueryProcessor.Lifetimes n s.queryProcessor ∧
    QueryProcessor.Accounted n s.queryProcessor) ?_ ?_
  · rintro s a s' ⟨hlife, hacc⟩ - hstep
    exact step_accounted hlife hacc hstep
  · refine ⟨fun _ => rfl, ?_⟩
    simp [QueryProcessor.Accounted, init, QueryProcessor.init, QueryProcessor.taken,
      QueryProcessor.Client.holding]

/-- From the store of the flag on, being drained does not change. -/
theorem draining_iff_of_closing (hclose : QueryProcessor.Closing s.queryProcessor)
    {good : State σ κ → Action α → Prop} (h : (system n S).Reach good s s') :
    QueryProcessor.Draining n s'.queryProcessor ↔ QueryProcessor.Draining n s.queryProcessor := by
  refine (h.invariant (I := fun t => QueryProcessor.Closing t.queryProcessor ∧
    (QueryProcessor.Draining n t.queryProcessor ↔ QueryProcessor.Draining n s.queryProcessor))
      ?_ ⟨hclose, Iff.rfl⟩).2
  rintro t a t' ⟨ht, hiff⟩ - hstep
  rcases step_processor hstep with heq | ⟨f, b, hb⟩
  · rw [heq]
    exact ⟨ht, hiff⟩
  · refine ⟨(QueryProcessor.step_closing ht hb).1, ?_⟩
    by_cases hdrain : QueryProcessor.Draining n t.queryProcessor
    · exact iff_of_true (QueryProcessor.step_draining ht hdrain hb) (hiff.mp hdrain)
    · exact iff_of_false (QueryProcessor.step_stranded ht hdrain hb) fun hc => hdrain (hiff.mpr hc)

/-! ### One client at a time

Clients do not see each other.  So the proof is about one client and the query it holds,
and `Serves` asks that the steps of all others leave this client's work as it is.
-/

/-- What a database does by itself.  `Stays` is that others' steps leave a client's work as it
is; `asked` are the pushes so far. -/
structure Serves (S : Server σ α κ) (good : σ → α → Prop) (Inv : σ → Prop)
    (asked : σ → List Pushed) (Idle : σ → κ → Prop) (Busy : σ → Pushed → κ → Prop)
    (Right : Pushed → UInt64 → Prop) : Prop where
  init : Inv S.init ∧ asked S.init = [] ∧ Idle S.init S.fresh
  step : ∀ db a db', Inv db → good db a → S.step db a = some db' →
    Inv db' ∧ asked db' = asked db ∧ (∀ k, Idle db k → Idle db' k) ∧
      ∀ p k, Busy db p k → Busy db' p k
  push : ∀ db p db', Inv db → S.push db = some (p, db') →
    Inv db' ∧ asked db' = asked db ++ [p] ∧ (∀ k, Idle db k → Idle db' k) ∧
      ∀ p k, Busy db p k → Busy db' p k
  ask : ∀ db p k, Inv db → p ∈ asked db → Idle db k → Busy db p (S.ask k p)
  work : ∀ db p k k', Inv db → Busy db p k → S.work db k = some k' → Busy db p k'
  ret : ∀ db p k x, Inv db → Busy db p k → S.ret k = some x → Right p x ∧ Idle db k

/-- The `idx`-th push. -/
def Issued (ps : List Pushed) (idx : Nat) (p : Pushed) : Prop := 1 ≤ idx ∧ ps[idx - 1]? = some p

theorem Issued.append {ps qs : List Pushed} {idx : Nat} {p : Pushed} (h : Issued ps idx p) :
    Issued (ps ++ qs) idx p := by
  refine ⟨h.1, ?_⟩
  have hlt := (List.getElem?_eq_some_iff.mp h.2).1
  rw [List.getElem?_append_left hlt]
  exact h.2

theorem Issued.mem {ps : List Pushed} {idx : Nat} {p : Pushed} (h : Issued ps idx p) : p ∈ ps :=
  List.mem_of_getElem? h.2

theorem issued_last (ps : List Pushed) (p : Pushed) : Issued (ps ++ [p]) (ps.length + 1) p := by
  refine ⟨Nat.le_add_left 1 _, ?_⟩
  rw [Nat.add_sub_cancel, List.getElem?_concat_length]

section
variable {good : σ → α → Prop} {Inv : σ → Prop} {asked : σ → List Pushed} {Idle : σ → κ → Prop}
  {Busy : σ → Pushed → κ → Prop} {Right : Pushed → UInt64 → Prop}

/-- Queries are what was pushed, clients are at work on them, and what they store is right. -/
structure Answering (n : Nat) (Inv : σ → Prop) (asked : σ → List Pushed) (Idle : σ → κ → Prop)
    (Busy : σ → Pushed → κ → Prop) (Right : Pushed → UInt64 → Prop) (s : State σ κ) : Prop where
  lifetimes : QueryProcessor.Lifetimes n s.queryProcessor
  accounted : QueryProcessor.Accounted n s.queryProcessor
  inv : Inv s.db
  count : s.queryProcessor.numQueries = (asked s.db).length
  queued : ∀ q ∈ s.queryProcessor.queries, Issued (asked s.db) q.idx (pushedOf q)
  working : ∀ id q, s.queryProcessor.clients id = .processing q →
    Issued (asked s.db) q.idx (pushedOf q) ∧ Busy s.db (pushedOf q) (s.locals id)
  idle : ∀ id, (∀ q, s.queryProcessor.clients id ≠ .processing q) → Idle s.db (s.locals id)
  results : ∀ id, ∀ res ∈ s.queryProcessor.results id,
    ∃ p, Issued (asked s.db) res.ver p ∧ Right p res.ret

/-- Nothing is queued, and no client has a query. -/
theorem answering_init (hS : Serves S good Inv asked Idle Busy Right) :
    Answering n Inv asked Idle Busy Right (init S) := by
  obtain ⟨hinv, hasked, hidle⟩ := hS.init
  have hstart : (system n S).Reachable (init S) := .refl
  obtain ⟨hlife, hacc⟩ := reachable_accounted hstart
  refine ⟨hlife, hacc, hinv, ?_, ?_, ?_, fun _ _ => hidle, ?_⟩
  · show 0 = (asked S.init).length
    rw [hasked]
    rfl
  · exact fun q hq => absurd hq List.not_mem_nil
  · intro id q hq
    cases hq
  · exact fun id res hres => absurd hres List.not_mem_nil

/-! ### Who does not move

A push and a step of the database give the clients nothing to do, and a step of one client
leaves the others at their queries.  These are the two frame rules that the steps are taken
apart by.
-/

/-- The database has moved on, and so has the list of pushes, if anything. -/
theorem Answering.advance (h : Answering n Inv asked Idle Busy Right s) {db : σ}
    {ps : List Pushed} (hinv : Inv db) (hasked : asked db = asked s.db ++ ps)
    (hidle : ∀ k, Idle s.db k → Idle db k) (hbusy : ∀ p k, Busy s.db p k → Busy db p k)
    (hs : s' = { s with db := db, queryProcessor := qp }) (hlife : QueryProcessor.Lifetimes n qp)
    (hacc : QueryProcessor.Accounted n qp) (hcount : qp.numQueries = (asked db).length)
    (hqueued : ∀ q ∈ qp.queries, q ∈ s.queryProcessor.queries ∨ Issued (asked db) q.idx (pushedOf q))
    (hclients : ∀ id q, qp.clients id = .processing q ↔ s.queryProcessor.clients id = .processing q)
    (hresults : qp.results = s.queryProcessor.results) :
    Answering n Inv asked Idle Busy Right s' := by
  subst hs
  have hissued : ∀ {idx p}, Issued (asked s.db) idx p → Issued (asked db) idx p := fun hp =>
    hasked ▸ hp.append
  refine ⟨hlife, hacc, hinv, hcount, fun q hq => ?_, fun id q hq => ?_, fun id hid => ?_,
    fun id res hres => ?_⟩
  · exact (hqueued q hq).elim (fun hold => hissued (h.queued q hold)) fun hnew => hnew
  · obtain ⟨hq', hb⟩ := h.working id q ((hclients id q).mp hq)
    exact ⟨hissued hq', hbusy _ _ hb⟩
  · exact hidle _ (h.idle id fun q hq => hid q ((hclients id q).mpr hq))
  · rw [show qp.results = s.queryProcessor.results from hresults] at hres
    obtain ⟨p, hp, hright⟩ := h.results id res hres
    exact ⟨p, hissued hp, hright⟩

/-- `Start`, `Stop` and joining leave queries and answers alone, and touch no client at work. -/
theorem control_same {b : QueryProcessor.Action} (hlife : QueryProcessor.Lifetimes n qp)
    (hb : b = .start ∨ b = .begin ∨ b = .stop ∨ b = .join)
    (hstep : QueryProcessor.step n f qp b = some qp') :
    qp'.queries = qp.queries ∧ qp'.results = qp.results ∧ qp'.numQueries = qp.numQueries ∧
      ∀ id q, qp'.clients id = .processing q ↔ qp.clients id = .processing q := by
  rcases hb with rfl | rfl | rfl | rfl
  · simp only [QueryProcessor.step] at hstep
    split at hstep
    · cases hstep
      exact ⟨rfl, rfl, rfl, fun _ _ => Iff.rfl⟩
    · cases hstep
  · simp only [QueryProcessor.step] at hstep
    split at hstep
    · next k hk =>
        split at hstep
        · cases hstep
          refine ⟨rfl, rfl, rfl, fun id q => ?_⟩
          by_cases hid : id = k
          · subst hid
            have hunborn : qp.clients id = .unborn := by
              unfold QueryProcessor.Lifetimes at hlife
              rw [hk] at hlife
              exact hlife id (Nat.le_refl id)
            simp [hunborn]
          · simp [hid]
        · cases hstep
          exact ⟨rfl, rfl, rfl, fun _ _ => Iff.rfl⟩
    · cases hstep
  · simp only [QueryProcessor.step] at hstep
    split at hstep
    · cases hstep
      exact ⟨rfl, rfl, rfl, fun _ _ => Iff.rfl⟩
    · cases hstep
  · simp only [QueryProcessor.step] at hstep
    split at hstep
    · split at hstep
      · split at hstep
        · cases hstep
          exact ⟨rfl, rfl, rfl, fun _ _ => Iff.rfl⟩
        · cases hstep
      · cases hstep
        exact ⟨rfl, rfl, rfl, fun _ _ => Iff.rfl⟩
    · cases hstep

theorem Answering.control {b : QueryProcessor.Action} (h : Answering n Inv asked Idle Busy Right s)
    (hb : b = .start ∨ b = .begin ∨ b = .stop ∨ b = .join)
    (hstep : processorStep n s b = some s') (hlife : QueryProcessor.Lifetimes n s'.queryProcessor)
    (hacc : QueryProcessor.Accounted n s'.queryProcessor) :
    Answering n Inv asked Idle Busy Right s' := by
  obtain ⟨qp, hqp, rfl⟩ := Option.map_eq_some_iff.mp hstep
  obtain ⟨hqueries, hresults, hcount, hclients⟩ := control_same h.lifetimes hb hqp
  exact h.advance h.inv (List.append_nil _).symm (fun _ hk => hk) (fun _ _ hk => hk) rfl hlife hacc
    (hcount.trans h.count) (fun q hq => Or.inl (hqueries ▸ hq)) hclients hresults

/-- Only this client's variables change. -/
theorem Answering.client (h : Answering n Inv asked Idle Busy Right s) (id : Nat) (k : κ)
    (hs : s' = { s with queryProcessor := qp, locals := Function.update s.locals id k })
    (hlife : QueryProcessor.Lifetimes n qp) (hacc : QueryProcessor.Accounted n qp)
    (hcount : qp.numQueries = s.queryProcessor.numQueries)
    (hqueued : ∀ q ∈ qp.queries, q ∈ s.queryProcessor.queries)
    (hothers : ∀ j, j ≠ id → qp.clients j = s.queryProcessor.clients j)
    (hworking : ∀ q, qp.clients id = .processing q →
      Issued (asked s.db) q.idx (pushedOf q) ∧ Busy s.db (pushedOf q) k)
    (hidle : (∀ q, qp.clients id ≠ .processing q) → Idle s.db k)
    (hresults : ∀ j, ∀ res ∈ qp.results j, res ∈ s.queryProcessor.results j ∨
      ∃ p, Issued (asked s.db) res.ver p ∧ Right p res.ret) :
    Answering n Inv asked Idle Busy Right s' := by
  subst hs
  refine ⟨hlife, hacc, h.inv, hcount.trans h.count, fun q hq => h.queued q (hqueued q hq),
    fun j q hq => ?_, fun j hj => ?_, fun j res hres => ?_⟩
  · dsimp only at hq ⊢
    by_cases hjd : j = id
    · subst hjd
      rw [Function.update_self]
      exact hworking q hq
    · rw [Function.update_of_ne hjd]
      exact h.working j q ((hothers j hjd) ▸ hq)
  · dsimp only at hj ⊢
    by_cases hjd : j = id
    · subst hjd
      rw [Function.update_self]
      exact hidle hj
    · rw [Function.update_of_ne hjd]
      exact h.idle j fun q hq => hj q ((hothers j hjd).trans hq)
  · exact (hresults j res hres).elim (fun hold => h.results j res hold) fun hnew => hnew

/-- A step of the whole is good if it is a good step of the database, or none of its steps. -/
def GoodStep (good : σ → α → Prop) (s : State σ κ) (a : Action α) : Prop :=
  ∀ b, a = .db b → good s.db b

theorem goodStep_stop {good : σ → α → Prop} : GoodStep good s .stop := by
  intro b hb
  cases hb

/-- A client dequeues a query, does some work on it, or stores what it has returned.  In
the last case its answer is right, because it was at work on what was pushed. -/
theorem Answering.client_step (hS : Serves S good Inv asked Idle Busy Right)
    (h : Answering n Inv asked Idle Busy Right s) {id pick : Nat}
    (hstep : clientStep S s id pick = some s') (hlife : QueryProcessor.Lifetimes n s'.queryProcessor)
    (hacc : QueryProcessor.Accounted n s'.queryProcessor) :
    Answering n Inv asked Idle Busy Right s' := by
  unfold clientStep at hstep
  split at hstep
  · next q hq =>
      obtain ⟨hissued, hbusy⟩ := h.working id q hq
      split at hstep
      · -- The answer is stored.
        next ret hret =>
          obtain ⟨hright, hidle⟩ := hS.ret _ _ _ _ h.inv hbusy hret
          obtain ⟨qp, hqp, rfl⟩ := Option.map_eq_some_iff.mp hstep
          simp only [QueryProcessor.processStep, hq, Option.some.injEq] at hqp
          subst hqp
          refine h.client id (s.locals id) (by simp) hlife hacc rfl (fun _ hq => hq)
            (fun j hj => by simp [hj]) (fun q' hq' => by simp at hq') (fun _ => hidle)
            fun j res hres => ?_
          by_cases hjd : j = id
          · subst hjd
            simp only [Function.update_self, List.mem_append, List.mem_singleton] at hres
            rcases hres with hold | rfl
            · exact Or.inl hold
            · exact Or.inr ⟨_, hissued, hright⟩
          · simp only [Function.update_of_ne hjd] at hres
            exact Or.inl hres
      -- It goes on with its work.
      · obtain ⟨k, hk, rfl⟩ := Option.map_eq_some_iff.mp hstep
        refine h.client id k rfl hlife hacc rfl (fun _ hq => hq) (fun _ _ => rfl)
          (fun q' hq' => ?_) (fun hne => absurd hq (hne q)) fun _ res hres => Or.inl hres
        obtain rfl : q = q' := QueryProcessor.Client.processing.inj (hq.symm.trans hq')
        exact ⟨hissued, hS.work _ _ _ _ h.inv hbusy hk⟩
  · next hnot =>
      have hidle := h.idle id hnot
      obtain ⟨qp, hqp, rfl⟩ := Option.map_eq_some_iff.mp hstep
      have hproc : (dequeued S { s with queryProcessor := qp } id).queryProcessor = qp := by
        unfold dequeued
        split <;> rfl
      rw [hproc] at hlife hacc
      rcases QueryProcessor.processStep_cases hqp with
        ⟨c, -, -, hc, -, rfl⟩ | ⟨q, -, hpick, rfl⟩ | ⟨q, hq, -⟩
      -- It moves on in its loop, and takes no query.
      · have hout : ∀ q, c ≠ .processing q := by
          rintro q rfl
          cases hc
        have hsame : dequeued S { s with queryProcessor := { s.queryProcessor with
            clients := Function.update s.queryProcessor.clients id c } } id
            = { s with queryProcessor := { s.queryProcessor with
              clients := Function.update s.queryProcessor.clients id c } } := by
          unfold dequeued
          simp only [Function.update_self]
        rw [hsame]
        refine h.client id (s.locals id) (by simp) hlife hacc rfl (fun _ hq => hq)
          (fun j hj => by simp [hj]) (fun q hq => ?_) (fun _ => hidle)
          fun _ res hres => Or.inl hres
        simp only [Function.update_self] at hq
        exact absurd hq (hout q)
      -- It takes a query.
      · have hissued := h.queued q (List.mem_of_getElem? hpick)
        have hnext : dequeued S { s with queryProcessor := { s.queryProcessor with
            queries := s.queryProcessor.queries.eraseIdx pick
            clients := Function.update s.queryProcessor.clients id (.processing q) } } id
            = { s with
              queryProcessor := { s.queryProcessor with
                queries := s.queryProcessor.queries.eraseIdx pick
                clients := Function.update s.queryProcessor.clients id (.processing q) }
              locals := Function.update s.locals id (S.ask (s.locals id) (pushedOf q)) } := by
          unfold dequeued
          simp only [Function.update_self]
        rw [hnext]
        refine h.client id _ rfl hlife hacc rfl (fun q' hq' => List.mem_of_mem_eraseIdx hq')
          (fun j hj => by simp [hj]) (fun q' hq' => ?_) (fun hne => ?_) fun _ res hres => Or.inl hres
        · simp only [Function.update_self, QueryProcessor.Client.processing.injEq] at hq'
          subst hq'
          exact ⟨hissued, hS.ask _ _ _ h.inv hissued.mem hidle⟩
        · simp only [Function.update_self] at hne
          exact absurd rfl (hne q)
      · exact absurd hq (hnot q)

/-! ### All steps -/

/-- The database and its pushes extend what is asked; the clients do the rest. -/
theorem answering_step (hS : Serves S good Inv asked Idle Busy Right)
    (h : Answering n Inv asked Idle Busy Right s) (hgood : GoodStep good s a)
    (hstep : step n S s a = some s') : Answering n Inv asked Idle Busy Right s' := by
  obtain ⟨hlife, hacc⟩ := step_accounted h.lifetimes h.accounted hstep
  cases a with
  | start => exact h.control (Or.inl rfl) hstep hlife hacc
  | begin => exact h.control (Or.inr (Or.inl rfl)) hstep hlife hacc
  | stop =>
      simp only [step] at hstep
      split at hstep
      · exact h.control (Or.inr (Or.inr (Or.inl rfl))) hstep hlife hacc
      · cases hstep
  | join => exact h.control (Or.inr (Or.inr (Or.inr rfl))) hstep hlife hacc
  | db b =>
      simp only [step] at hstep
      split at hstep
      · cases hstep
      · obtain ⟨db, hdb, rfl⟩ := Option.map_eq_some_iff.mp hstep
        obtain ⟨hinv, hasked, hidle, hbusy⟩ := hS.step _ _ _ h.inv (hgood b rfl) hdb
        exact h.advance hinv (hasked.trans (List.append_nil _).symm) hidle hbusy rfl hlife hacc
          (by rw [hasked]; exact h.count) (fun q hq => Or.inl hq) (fun _ _ => Iff.rfl) rfl
  | push =>
      obtain ⟨⟨p, db⟩, hdb, hrun⟩ := Option.bind_eq_some_iff.mp hstep
      obtain ⟨hinv, hasked, hidle, hbusy⟩ := hS.push _ _ _ h.inv hdb
      obtain ⟨qp, hqp, rfl⟩ := Option.map_eq_some_iff.mp hrun
      simp only [QueryProcessor.step] at hqp
      split at hqp
      case isFalse => cases hqp
      cases hqp
      refine h.advance hinv hasked hidle hbusy rfl hlife hacc ?_ (fun q hq => ?_)
        (fun _ _ => Iff.rfl) rfl
      · rw [hasked, List.length_append, h.count]
        rfl
      · rcases List.mem_append.mp hq with hold | hnew
        · exact Or.inl hold
        · rw [List.mem_singleton.mp hnew, hasked, h.count]
          exact Or.inr (issued_last _ p)
  | client id pick =>
      simp only [step] at hstep
      split at hstep
      · exact h.client_step hS hstep hlife hacc
      · cases hstep

theorem answering_reachable (hS : Serves S good Inv asked Idle Busy Right)
    (hs : (system n S).Reach (GoodStep good) (init S) s) :
    Answering n Inv asked Idle Busy Right s :=
  hs.invariant (fun _ _ _ h hgood hstep => answering_step hS h hgood hstep) (answering_init hS)

end

/-- Once `Stop` has returned, every push has been answered once if and only if the flag was
cleared with the queue empty or with a client in its dequeue loop. -/
theorem answered_once_iff {good : State σ κ → Action α → Prop} {s₁ s₂ s₃ : State σ κ}
    (hreach : (system n S).Reach good (init S) s₁) (hgood : good s₁ .stop)
    (hstop : (system n S).step s₁ .stop = some s₂) (hafter : (system n S).Reach good s₂ s₃)
    (hdone : s₃.queryProcessor.pusher = .stopped) :
    QueryProcessor.AllAnsweredOnce n s₃.queryProcessor ↔
      QueryProcessor.Draining n s₁.queryProcessor := by
  have hqp : ∃ qp, QueryProcessor.step n (fun _ _ _ => 0) s₁.queryProcessor .stop = some qp ∧
      s₂ = { s₁ with queryProcessor := qp } := by
    have hstop : step n S s₁ .stop = some s₂ := hstop
    simp only [step] at hstop
    split at hstop
    · obtain ⟨qp, hqp, rfl⟩ := Option.map_eq_some_iff.mp hstop
      exact ⟨qp, hqp, rfl⟩
    · cases hstop
  obtain ⟨qp, hqp, rfl⟩ := hqp
  have hstored : qp = { s₁.queryProcessor with working := false, pusher := .joining 0 } := by
    simp only [QueryProcessor.step] at hqp
    split at hqp
    · exact (Option.some.inj hqp).symm
    · cases hqp
  have hclose : QueryProcessor.Closing qp := by
    rw [hstored]
    exact ⟨rfl, Or.inr ⟨0, rfl⟩⟩
  have hdrain := draining_iff_of_closing hclose hafter
  obtain ⟨hlife, hacc⟩ := reachable_accounted ((hreach.tail .stop hgood hstop).trans hafter)
  have hleft : ∀ id < n, s₃.queryProcessor.clients id = .exited := by
    unfold QueryProcessor.Lifetimes at hlife
    rwa [hdone] at hlife
  rw [QueryProcessor.answered_iff_empty hlife hacc hdone]
  calc s₃.queryProcessor.queries = []
      ↔ QueryProcessor.Draining n s₃.queryProcessor := by
        refine ⟨Or.inl, fun h => h.resolve_right ?_⟩
        rintro ⟨id, hid, hin⟩
        rw [hleft id hid] at hin
        cases hin
    _ ↔ QueryProcessor.Draining n qp := hdrain
    _ ↔ QueryProcessor.Draining n s₁.queryProcessor := by
        rw [hstored]
        exact Iff.rfl

/-! ### Runs through `Stop`

A run is cut at the step that clears the flag, and whether the queue is being drained is
read off the state before it.
-/

/-- A run up to `Stop`, with the first client in its dequeue loop, and one to its end. -/
def closesInside (n : Nat) (S : Server σ α κ) (before after : List (Action α)) : Option Bool := do
  let s₁ ← (system n S).run before (init S)
  let s₂ ← step n S s₁ .stop
  let s₃ ← (system n S).run after s₂
  some ((s₁.queryProcessor.clients 0).inside ∧ s₃.queryProcessor.pusher = .stopped)

theorem exists_of_closesInside {before after : List (Action α)} (hn : 0 < n)
    (h : closesInside n S before after = some true) :
    ∃ s₁ s₂ s₃, (system n S).Reachable s₁ ∧ (system n S).step s₁ .stop = some s₂ ∧
      (system n S).Steps s₂ s₃ ∧ s₃.queryProcessor.pusher = .stopped ∧
      QueryProcessor.Draining n s₁.queryProcessor := by
  obtain ⟨s₁, hrun, h⟩ := Option.bind_eq_some_iff.mp h
  obtain ⟨s₂, hstop, h⟩ := Option.bind_eq_some_iff.mp h
  obtain ⟨s₃, hrun', h⟩ := Option.bind_eq_some_iff.mp h
  obtain ⟨hin, hdone⟩ := of_decide_eq_true (Option.some.inj h)
  exact ⟨s₁, s₂, s₃, System.reach_of_run hrun, hstop, System.reach_of_run hrun', hdone,
    Or.inr ⟨0, hn, hin⟩⟩

end DB
