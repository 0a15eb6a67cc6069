/-
Which queries the client threads answer.

`Stop` clears `working_` and joins the clients, and a client tests the flag before
it looks at the queue.  So whether the queue is drained is settled at one moment,
the store of the flag: a client that is inside its dequeue loop then will not
leave before the queue reports empty, and a client that is at its test leaves at
once, whatever the queue holds.  `answered_iff_draining` is that argument: once
`Stop` has returned, every index pushed is stored exactly once precisely when the
flag was cleared with the queue empty or with some client inside its loop.

Behind it is one account of indices, `Accounted`.  An index pushed is in the queue,
held by a client between its dequeue and its answer, or stored, and it is in one of
these places once.
-/
import Mathlib.Algebra.BigOperators.Group.Finset.Basic
import Mathlib.Algebra.Order.Group.Multiset
import Mathlib.Tactic.Abel
import Contreap.Model.QueryProcessor

namespace QueryProcessor

open Transition

variable {numThreads : Nat} {doProcess : Nat → UInt64 → UInt64 → UInt64}

/-! ### Where an index can be

The account is an equation between multisets, so that being stored twice is excluded
together with being lost.
-/

/-- The index of a query a client has dequeued and not answered yet. -/
def Client.holding : Client → List Nat
  | .processing q => [q.idx]
  | _ => []

/-- Everything a client has taken off the queue. -/
def taken (s : State) (id : Nat) : List Nat :=
  (s.results id).map (·.ver) ++ (s.clients id).holding

/-- Every index pushed so far is in the queue or with one client, and only once. -/
def Accounted (numThreads : Nat) (s : State) : Prop :=
  ((s.queries.map (·.idx) : List Nat) : Multiset Nat)
      + ∑ id ∈ Finset.range numThreads, (taken s id : Multiset Nat)
    = (List.range' 1 s.numQueries : Multiset Nat)

theorem coe_flatMap_range (f : Nat → List Nat) (n : Nat) :
    (((List.range n).flatMap f : List Nat) : Multiset Nat)
      = ∑ id ∈ Finset.range n, (f id : Multiset Nat) := by
  induction n with
  | zero => rfl
  | succ n ih =>
      rw [List.range_succ, List.flatMap_append, ← Multiset.coe_add, ih, Finset.sum_range_succ]
      simp

/-- What one client takes changes one summand of the account. -/
theorem sum_taken_update {s s' : State} {id : Nat} (hid : id < numThreads)
    (hother : ∀ j, j ≠ id → taken s' j = taken s j) :
    (∑ j ∈ Finset.range numThreads, (taken s' j : Multiset Nat)) + (taken s id : Multiset Nat)
      = (∑ j ∈ Finset.range numThreads, (taken s j : Multiset Nat))
        + (taken s' id : Multiset Nat) := by
  have hmem : id ∈ Finset.range numThreads := Finset.mem_range.mpr hid
  rw [← Finset.add_sum_erase _ (fun j => (taken s' j : Multiset Nat)) hmem,
    ← Finset.add_sum_erase _ (fun j => (taken s j : Multiset Nat)) hmem]
  have hrest : ∑ j ∈ (Finset.range numThreads).erase id, (taken s' j : Multiset Nat)
      = ∑ j ∈ (Finset.range numThreads).erase id, (taken s j : Multiset Nat) :=
    Finset.sum_congr rfl fun j hj => by rw [hother j (Finset.mem_erase.mp hj).1]
  rw [hrest]
  abel

/-! ### One step of a client -/

/-- What a client's step can do: leave the queue and the answers alone, move one
index from the queue to the client, or store the index the client holds. -/
theorem processStep_cases {s s' : State} {id pick : Nat}
    (h : processStep doProcess s id pick = some s') :
    (∃ c, s.clients id ≠ .unborn ∧ (s.clients id).holding = [] ∧ c.holding = [] ∧
      ((s.clients id = .atFlag ∧ c = if s.working then .atQueue else .exited) ∨
        (s.clients id = .atQueue ∧ s.queries = [] ∧ c = .atFlag)) ∧
      s' = { s with clients := Function.update s.clients id c }) ∨
    (∃ q, s.clients id = .atQueue ∧ s.queries[pick]? = some q ∧
      s' = { s with
        queries := s.queries.eraseIdx pick
        clients := Function.update s.clients id (.processing q) }) ∨
    (∃ q, s.clients id = .processing q ∧
      s' = { s with
        results := Function.update s.results id
          (s.results id ++ [{ ver := q.idx, ret := doProcess q.ver q.l q.r }])
        clients := Function.update s.clients id .atQueue }) := by
  unfold processStep at h
  cases hc : s.clients id with
  | unborn => simp [hc] at h
  | exited => simp [hc] at h
  | atFlag =>
      rw [hc] at h
      refine Or.inl ⟨_, by simp, rfl, ?_, Or.inl ⟨rfl, rfl⟩, (Option.some.inj h).symm⟩
      split <;> rfl
  | atQueue =>
      rw [hc] at h
      by_cases hq : s.queries.isEmpty = true
      · simp only [hq, if_true] at h
        exact Or.inl ⟨.atFlag, by simp, rfl, rfl,
          Or.inr ⟨rfl, List.isEmpty_iff.mp hq, rfl⟩, (Option.some.inj h).symm⟩
      · simp only [hq] at h
        obtain ⟨q, hpick, hs'⟩ := Option.map_eq_some_iff.mp h
        exact Or.inr (Or.inl ⟨q, rfl, hpick, hs'.symm⟩)
  | processing q =>
      rw [hc] at h
      exact Or.inr (Or.inr ⟨q, rfl, (Option.some.inj h).symm⟩)

/-- A dequeue moves an index from the queue to a client, and an answer leaves it with the
client. -/
theorem processStep_accounted {s s' : State} {id pick : Nat} (hid : id < numThreads)
    (hacc : Accounted numThreads s) (h : processStep doProcess s id pick = some s') :
    Accounted numThreads s' := by
  have hother : ∀ j, j ≠ id → taken s' j = taken s j := by
    intro j hj
    rcases processStep_cases h with ⟨c, -, -, -, -, rfl⟩ | ⟨q, -, -, rfl⟩ | ⟨q, -, rfl⟩ <;>
      simp [taken, hj]
  have hsum := sum_taken_update hid hother
  unfold Accounted at hacc ⊢
  rcases processStep_cases h with ⟨c, -, hold, hnew, -, rfl⟩ | ⟨q, hc, hpick, rfl⟩ | ⟨q, hc, rfl⟩
  · have htaken : taken { s with clients := Function.update s.clients id c } id = taken s id := by
      simp [taken, hold, hnew]
    rw [htaken] at hsum
    rw [add_right_cancel hsum]
    exact hacc
  · -- The index leaves the queue and is with the client from here on.
    have htaken : taken { s with
          queries := s.queries.eraseIdx pick
          clients := Function.update s.clients id (.processing q) } id
        = taken s id ++ [q.idx] := by
      simp [taken, hc, Client.holding]
    obtain ⟨hlt, hget⟩ := List.getElem?_eq_some_iff.mp hpick
    have hperm : (s.queries.map (·.idx)).Perm
        (q.idx :: (s.queries.eraseIdx pick).map (·.idx)) := by
      have := (List.getElem_cons_eraseIdx_perm hlt).symm.map (·.idx)
      rwa [hget, List.map_cons] at this
    have hqueue : ((s.queries.map (·.idx) : List Nat) : Multiset Nat)
        = {q.idx} + (((s.queries.eraseIdx pick).map (·.idx) : List Nat) : Multiset Nat) := by
      rw [Multiset.coe_eq_coe.mpr hperm]
      rfl
    rw [htaken, ← Multiset.coe_add, ← add_assoc, add_right_comm] at hsum
    rw [add_right_cancel hsum, ← hacc, hqueue, Multiset.coe_singleton]
    abel
  · have htaken : taken { s with
          results := Function.update s.results id
            (s.results id ++ [{ ver := q.idx, ret := doProcess q.ver q.l q.r }])
          clients := Function.update s.clients id .atQueue } id = taken s id := by
      simp [taken, hc, Client.holding]
    rw [htaken] at hsum
    rw [add_right_cancel hsum]
    exact hacc

/-! ### The account is kept -/

theorem accounted_congr {s s' : State} (hq : s'.queries = s.queries)
    (hn : s'.numQueries = s.numQueries) (ht : ∀ id, taken s' id = taken s id)
    (h : Accounted numThreads s) : Accounted numThreads s' := by
  unfold Accounted at h ⊢
  rw [hq, hn, ← h]
  simp only [ht]

/-- A push adds the next index to the queue.  Starting a client must find that it has
taken nothing yet. -/
theorem step_accounted {s s' : State} {a : Action} (hunborn : ∀ k, s.pusher = .starting k →
      ∀ id, k ≤ id → s.clients id = .unborn)
    (hacc : Accounted numThreads s) (h : step numThreads doProcess s a = some s') :
    Accounted numThreads s' := by
  cases a with
  | start =>
      simp only [step] at h
      split at h
      · cases h; exact accounted_congr rfl rfl (fun _ => rfl) hacc
      · cases h
  | begin =>
      simp only [step] at h
      split at h
      · rename_i k hk
        split at h
        · cases h
          refine accounted_congr (s := s) rfl rfl (fun id => ?_) hacc
          by_cases hid : id = k
          · subst hid
            simp [taken, hunborn _ hk _ (Nat.le_refl _), Client.holding]
          · simp [taken, hid]
        · cases h; exact accounted_congr rfl rfl (fun _ => rfl) hacc
      · cases h
  | push ver l r =>
      simp only [step] at h
      split at h
      · cases h
        unfold Accounted at hacc ⊢
        have hrange : ((List.range' 1 (s.numQueries + 1) : List Nat) : Multiset Nat)
            = (List.range' 1 s.numQueries : Multiset Nat) + {s.numQueries + 1} := by
          rw [List.range'_concat, ← Multiset.coe_add]
          simp [Nat.add_comm]
        rw [hrange, ← hacc]
        simp only [List.map_append, List.map_cons, List.map_nil, ← Multiset.coe_add,
          Multiset.coe_singleton, taken]
        abel
      · cases h
  | stop =>
      simp only [step] at h
      split at h
      · cases h; exact accounted_congr rfl rfl (fun _ => rfl) hacc
      · cases h
  | join =>
      simp only [step] at h
      split at h
      · split at h
        · split at h
          · cases h; exact accounted_congr rfl rfl (fun _ => rfl) hacc
          · cases h
        · cases h; exact accounted_congr rfl rfl (fun _ => rfl) hacc
      · cases h
  | client id pick =>
      simp only [step] at h
      split at h
      · rename_i hid
        exact processStep_accounted hid hacc h
      · cases h

/-! ### Threads begun and threads joined

The pusher starts the clients one by one and joins them one by one.  Which of them have
begun and which have left follows from where it is.
-/

/-- Which client threads exist, and which have left, at each point of the pusher. -/
def Lifetimes (numThreads : Nat) (s : State) : Prop :=
  match s.pusher with
  | .created => ∀ id, s.clients id = .unborn
  | .starting k => ∀ id, k ≤ id → s.clients id = .unborn
  | .serving => True
  | .joining k => ∀ id < k, s.clients id = .exited
  | .stopped => ∀ id < numThreads, s.clients id = .exited

/-- A client's step moves only a client that has begun and has not left. -/
theorem processStep_frame {s s' : State} {id pick : Nat}
    (h : processStep doProcess s id pick = some s') :
    s'.pusher = s.pusher ∧ s'.working = s.working ∧ s.clients id ≠ .unborn ∧
      s.clients id ≠ .exited ∧ ∀ j, j ≠ id → s'.clients j = s.clients j := by
  rcases processStep_cases h with ⟨c, hne, -, -, hc, rfl⟩ | ⟨q, hc, -, rfl⟩ | ⟨q, hc, rfl⟩
  · refine ⟨rfl, rfl, hne, ?_, fun j hj => by simp [hj]⟩
    rcases hc with ⟨hc, -⟩ | ⟨hc, -⟩ <;> simp [hc]
  · exact ⟨rfl, rfl, by simp [hc], by simp [hc], fun j hj => by simp [hj]⟩
  · exact ⟨rfl, rfl, by simp [hc], by simp [hc], fun j hj => by simp [hj]⟩

/-- Pushes are counted up. -/
theorem numQueries_le {s s' : State} {a : Action} (h : step numThreads doProcess s a = some s') :
    s.numQueries ≤ s'.numQueries := by
  unfold step at h
  cases a with
  | start =>
      simp only at h
      split at h
      · cases h
        exact Nat.le_refl _
      · cases h
  | begin =>
      simp only at h
      split at h
      · split at h <;> cases h <;> exact Nat.le_refl _
      · cases h
  | push ver l r =>
      simp only at h
      split at h
      · cases h
        exact Nat.le_succ _
      · cases h
  | stop =>
      simp only at h
      split at h
      · cases h
        exact Nat.le_refl _
      · cases h
  | join =>
      simp only at h
      split at h
      · split at h
        · split at h
          · cases h
            exact Nat.le_refl _
          · cases h
        · cases h
          exact Nat.le_refl _
      · cases h
  | client id pick =>
      simp only at h
      split at h
      · rcases processStep_cases h with ⟨c, -, -, -, -, rfl⟩ | ⟨q, -, -, rfl⟩ | ⟨q, -, rfl⟩
        · exact Nat.le_refl _
        · exact Nat.le_refl _
        · exact Nat.le_refl _
      · cases h

/-- The pusher goes from one point to the next, and clients begin and leave only where it
lets them. -/
theorem step_lifetimes {s s' : State} {a : Action} (hlife : Lifetimes numThreads s)
    (h : step numThreads doProcess s a = some s') : Lifetimes numThreads s' := by
  cases a with
  | start =>
      simp only [step] at h
      split at h
      · rename_i hp
        cases h
        simp only [Lifetimes, hp] at hlife ⊢
        exact fun id _ => hlife id
      · cases h
  | begin =>
      simp only [step] at h
      split at h
      · rename_i k hp
        split at h
        · cases h
          simp only [Lifetimes, hp] at hlife ⊢
          intro id hid
          -- The clients after the one that is started now are still unborn.
          rw [Function.update_of_ne (by omega)]
          exact hlife id (by omega)
        · cases h; trivial
      · cases h
  | push ver l r =>
      simp only [step] at h
      split at h
      · rename_i hp
        cases h
        simp only [Lifetimes, hp]
      · cases h
  | stop =>
      simp only [step] at h
      split at h
      · cases h
        simp only [Lifetimes]
        intro id hid
        omega
      · cases h
  | join =>
      simp only [step] at h
      split at h
      · rename_i k hp
        split at h
        · split at h
          · rename_i hex
            cases h
            simp only [Lifetimes, hp] at hlife ⊢
            intro id hid
            rcases Nat.lt_succ_iff_lt_or_eq.mp hid with hlt | heq
            · exact hlife id hlt
            · rw [heq]; exact hex
          · cases h
        · rename_i hk
          cases h
          simp only [Lifetimes, hp] at hlife ⊢
          exact fun id hid => hlife id (by omega)
      · cases h
  | client id pick =>
      simp only [step] at h
      split at h
      · obtain ⟨hp, -, hborn, hleft, hother⟩ := processStep_frame h
        -- A client that is not born does not step, and neither does one that has left.
        have hkeep : ∀ j c, s.clients j = c → c = .unborn ∨ c = .exited →
            s'.clients j = c := by
          intro j c hj hc
          have hne : j ≠ id := by
            rintro rfl
            rcases hc with rfl | rfl
            · exact hborn hj
            · exact hleft hj
          rw [hother j hne, hj]
        unfold Lifetimes at hlife ⊢
        rw [hp]
        cases hpc : s.pusher with
        | created => rw [hpc] at hlife; exact fun j => hkeep j _ (hlife j) (Or.inl rfl)
        | starting k =>
            rw [hpc] at hlife
            exact fun j hj => hkeep j _ (hlife j hj) (Or.inl rfl)
        | serving => trivial
        | joining k =>
            rw [hpc] at hlife
            exact fun j hj => hkeep j _ (hlife j hj) (Or.inr rfl)
        | stopped =>
            rw [hpc] at hlife
            exact fun j hj => hkeep j _ (hlife j hj) (Or.inr rfl)
      · cases h

theorem reachable_accounted {s : State}
    (h : (system numThreads doProcess).Reachable s) :
    Lifetimes numThreads s ∧ Accounted numThreads s := by
  refine h.invariant (I := fun s => Lifetimes numThreads s ∧ Accounted numThreads s) ?_ ?_
  · rintro s a s' ⟨hlife, hacc⟩ - hstep
    refine ⟨step_lifetimes hlife hstep, step_accounted ?_ hacc hstep⟩
    intro k hk id hid
    unfold Lifetimes at hlife
    rw [hk] at hlife
    exact hlife id hid
  · exact ⟨fun _ => rfl, by simp [Accounted, system, init, taken, Client.holding]⟩

/-! ### When everything is answered

With all clients gone nothing is being worked on, so that what has not been answered is
still in the queue.
-/

/-- Once `Stop` has returned, the answers are complete exactly when the queue is empty. -/
theorem answered_iff_empty {s : State} (hlife : Lifetimes numThreads s)
    (hacc : Accounted numThreads s) (hs : s.pusher = .stopped) :
    AllAnsweredOnce numThreads s ↔ s.queries = [] := by
  have hleft : ∀ id < numThreads, s.clients id = .exited := by
    unfold Lifetimes at hlife
    rwa [hs] at hlife
  have htaken : ∑ id ∈ Finset.range numThreads, (taken s id : Multiset Nat)
      = (answered numThreads s : Multiset Nat) := by
    rw [answered, coe_flatMap_range]
    refine Finset.sum_congr rfl fun id hid => ?_
    simp [taken, hleft id (Finset.mem_range.mp hid), Client.holding]
  unfold Accounted at hacc
  rw [htaken] at hacc
  rw [AllAnsweredOnce, ← Multiset.coe_eq_coe, ← hacc]
  constructor
  · intro heq
    have hzero : ((s.queries.map (·.idx) : List Nat) : Multiset Nat) = 0 :=
      add_eq_right.mp heq.symm
    simpa using hzero
  · intro hq
    simp [hq]

theorem stopped_answered_iff {s : State} (h : (system numThreads doProcess).Reachable s)
    (hs : s.pusher = .stopped) : AllAnsweredOnce numThreads s ↔ s.queries = [] := by
  obtain ⟨hlife, hacc⟩ := reachable_accounted h
  exact answered_iff_empty hlife hacc hs

/-! ### After the flag is cleared

From the store on no index is pushed and no client enters its loop, so both ways
the store can have found the queue are kept until `Stop` returns.
-/

/-- The flag has been cleared. -/
def Closing (s : State) : Prop :=
  s.working = false ∧ (s.pusher = .stopped ∨ ∃ k, s.pusher = .joining k)

/-- The flag is not set again. -/
theorem step_closing {s s' : State} {a : Action} (hclose : Closing s)
    (h : step numThreads doProcess s a = some s') :
    Closing s' ∧ ((∃ id < numThreads, ∃ pick, processStep doProcess s id pick = some s') ∨
      (s'.queries = s.queries ∧ s'.clients = s.clients)) := by
  obtain ⟨hw, hp⟩ := hclose
  have hpusher : s.pusher ≠ .created ∧ s.pusher ≠ .serving ∧ ∀ k, s.pusher ≠ .starting k := by
    rcases hp with hp | ⟨k, hp⟩ <;> simp [hp]
  cases a with
  | start => simp [step, hpusher.1] at h
  | begin =>
      simp only [step] at h
      split at h
      · rename_i k hk
        exact absurd hk (hpusher.2.2 k)
      · cases h
  | push ver l r => simp [step, hpusher.2.1] at h
  | stop => simp [step, hpusher.2.1] at h
  | join =>
      simp only [step] at h
      split at h
      · split at h
        · split at h
          · cases h; exact ⟨⟨hw, Or.inr ⟨_, rfl⟩⟩, Or.inr ⟨rfl, rfl⟩⟩
          · cases h
        · cases h; exact ⟨⟨hw, Or.inl rfl⟩, Or.inr ⟨rfl, rfl⟩⟩
      · cases h
  | client id pick =>
      simp only [step] at h
      split at h
      · rename_i hid
        obtain ⟨hp', hw', -⟩ := processStep_frame h
        exact ⟨⟨by rw [hw', hw], by rw [hp']; exact hp⟩, Or.inl ⟨id, hid, pick, h⟩⟩
      · cases h

/-- A queue that is being drained when the flag is cleared stays drained. -/
theorem step_draining {s s' : State} {a : Action} (hclose : Closing s)
    (hdrain : Draining numThreads s) (h : step numThreads doProcess s a = some s') :
    Draining numThreads s' := by
  obtain ⟨-, ⟨id, hid, pick, hproc⟩ | ⟨hq, hc⟩⟩ := step_closing hclose h
  · rcases processStep_cases hproc with
      ⟨c, -, -, -, hc, rfl⟩ | ⟨q, hc, hpick, rfl⟩ | ⟨q, hc, rfl⟩
    · rcases hc with ⟨hat, -⟩ | ⟨-, hempty, -⟩
      · -- The client at its test leaves; whoever was inside is another one.
        rcases hdrain with hempty | ⟨j, hj, hin⟩
        · exact Or.inl hempty
        · have hne : j ≠ id := by rintro rfl; simp [hat, Client.inside] at hin
          exact Or.inr ⟨j, hj, by simp [hne, hin]⟩
      · exact Or.inl hempty
    · exact Or.inr ⟨id, hid, by simp [Client.inside]⟩
    · exact Or.inr ⟨id, hid, by simp [Client.inside]⟩
  · rcases hdrain with hempty | ⟨j, hj, hin⟩
    · exact Or.inl (by rw [hq, hempty])
    · exact Or.inr ⟨j, hj, by rw [hc]; exact hin⟩

/-- A queue nobody drains when the flag is cleared is never touched again. -/
theorem step_stranded {s s' : State} {a : Action} (hclose : Closing s)
    (hstrand : ¬ Draining numThreads s) (h : step numThreads doProcess s a = some s') :
    ¬ Draining numThreads s' := by
  obtain ⟨hne, hout⟩ : s.queries ≠ [] ∧ ∀ j < numThreads, (s.clients j).inside = false := by
    simpa [Draining] using hstrand
  obtain ⟨-, ⟨id, hid, pick, hproc⟩ | ⟨hq, hc⟩⟩ := step_closing hclose h
  · have hidout := hout id hid
    rcases processStep_cases hproc with
      ⟨c, -, -, -, hc, rfl⟩ | ⟨q, hc, hpick, rfl⟩ | ⟨q, hc, rfl⟩
    · rcases hc with ⟨-, hcnew⟩ | ⟨hat, -⟩
      · rw [hclose.1] at hcnew
        rintro (hempty | ⟨j, hj, hin⟩)
        · exact hne hempty
        · by_cases hji : j = id
          · subst hji
            simp [hcnew, Client.inside] at hin
          · simp [hji, hout j hj] at hin
      · simp [hat, Client.inside] at hidout
    · simp [hc, Client.inside] at hidout
    · simp [hc, Client.inside] at hidout
  · simpa [Draining, hq, hc] using hstrand

/-- From the store of the flag on, being drained does not change. -/
theorem draining_iff_of_closing {s s' : State} (hclose : Closing s)
    (h : (system numThreads doProcess).Steps s s') :
    Closing s' ∧ (Draining numThreads s' ↔ Draining numThreads s) := by
  refine h.invariant
    (I := fun t => Closing t ∧ (Draining numThreads t ↔ Draining numThreads s)) ?_ ⟨hclose, Iff.rfl⟩
  rintro t a t' ⟨ht, hiff⟩ - hstep
  refine ⟨(step_closing ht hstep).1, ?_⟩
  by_cases hdrain : Draining numThreads t
  · exact iff_of_true (step_draining ht hdrain hstep) (hiff.mp hdrain)
  · exact iff_of_false (step_stranded ht hdrain hstep) (fun hc => hdrain (hiff.mpr hc))

/--
**When `Stop` has returned, every pushed index is stored exactly once if and only if
the flag was cleared with the queue empty or with a client in its dequeue loop.**
-/
theorem answered_iff_draining (numThreads : Nat) (doProcess : Nat → UInt64 → UInt64 → UInt64)
    {s₁ s₂ s₃ : State} (hreach : (system numThreads doProcess).Reachable s₁)
    (hstop : (system numThreads doProcess).step s₁ .stop = some s₂)
    (hafter : (system numThreads doProcess).Steps s₂ s₃) (hdone : s₃.pusher = .stopped) :
    AllAnsweredOnce numThreads s₃ ↔ Draining numThreads s₁ := by
  have hreach₃ : (system numThreads doProcess).Reachable s₃ :=
    (hreach.tail .stop trivial hstop).trans hafter
  have hstored : s₂ = { s₁ with working := false, pusher := .joining 0 } := by
    simp only [system, step] at hstop
    split at hstop
    · exact (Option.some.inj hstop).symm
    · cases hstop
  obtain ⟨-, hiff⟩ := draining_iff_of_closing
    (show Closing s₂ by rw [hstored]; exact ⟨rfl, Or.inr ⟨0, rfl⟩⟩) hafter
  have hsame : Draining numThreads s₂ ↔ Draining numThreads s₁ := by rw [hstored]; rfl
  have hleft : ∀ id < numThreads, s₃.clients id = .exited := by
    have hlife := (reachable_accounted hreach₃).1
    unfold Lifetimes at hlife
    rwa [hdone] at hlife
  rw [stopped_answered_iff hreach₃ hdone, ← hsame, ← hiff]
  refine ⟨Or.inl, ?_⟩
  rintro (hempty | ⟨id, hid, hin⟩)
  · exact hempty
  · simp [hleft id hid, Client.inside] at hin

/-- One client, inside its loop when the flag is cleared: the query pushed is answered. -/
theorem answered_iff_draining_inside :
    ∃ s, (system 1 fun _ _ _ => 0).Reachable s ∧ s.pusher = .stopped ∧ s.numQueries = 1 ∧
      AllAnsweredOnce 1 s := by
  obtain ⟨s₁, hrun₁, hdrain⟩ : ∃ s₁, (system 1 fun _ _ _ => 0).run
      [.start, .begin, .begin, .client 0 0, .push 0 3 5] init = some s₁ ∧ Draining 1 s₁ :=
    ⟨_, rfl, Or.inr ⟨0, by decide, rfl⟩⟩
  have hreach : (system 1 fun _ _ _ => 0).Reachable s₁ := System.reach_of_run hrun₁
  obtain ⟨s₂, hstop⟩ : ∃ s₂, (system 1 fun _ _ _ => 0).step s₁ .stop = some s₂ := by
    cases hrun₁
    exact ⟨_, rfl⟩
  obtain ⟨s₃, hrun₂, hdone, hnum⟩ : ∃ s₃, (system 1 fun _ _ _ => 0).run
      [.client 0 0, .client 0 0, .client 0 0, .client 0 0, .join, .join] s₂ = some s₃ ∧
        s₃.pusher = .stopped ∧ s₃.numQueries = 1 := by
    cases hrun₁
    cases hstop
    exact ⟨_, rfl, rfl, rfl⟩
  have hafter : (system 1 fun _ _ _ => 0).Steps s₂ s₃ := System.reach_of_run hrun₂
  exact ⟨s₃, (hreach.tail .stop trivial hstop).trans hafter, hdone, hnum,
    (answered_iff_draining 1 _ hreach hstop hafter hdone).mpr hdrain⟩

/--
`Start`, `Push`, `Stop` before the client first tests the flag: it leaves at once and
the query is never answered.
-/
theorem all_answered_fails :
    ¬ ∀ (numThreads : Nat) (doProcess : Nat → UInt64 → UInt64 → UInt64) (s : State),
      1 ≤ numThreads → (system numThreads doProcess).Reachable s → s.pusher = .stopped →
        AllAnsweredOnce numThreads s := by
  intro hall
  obtain ⟨s, hrun, hdone, hlost⟩ : ∃ s, (system 1 fun _ _ _ => 0).run
      [.start, .begin, .begin, .push 0 3 5, .stop, .client 0 0, .join, .join] init = some s ∧
        s.pusher = .stopped ∧ s.queries ≠ [] :=
    ⟨_, rfl, rfl, List.cons_ne_nil _ _⟩
  have hreach : (system 1 fun _ _ _ => 0).Reachable s := System.reach_of_run hrun
  exact hlost ((stopped_answered_iff hreach hdone).mp (hall 1 _ s (Nat.le_refl 1) hreach hdone))

end QueryProcessor
