/-
How tasks flow from the master to the workers.

Every task goes through the pipes in order, and the counters between them say how far
it has come.  A link is what joins a thread that pushes tasks, the master or a pipe, to
the pipe that takes them: the token is the number of tasks pushed less the number
claimed, a pipe is never more than one task ahead of what was pushed to it, and works
on pushed tasks only (`Link`).  A pipe that sleeps has been told of nothing yet, so
either there is no token for it or a notification is on its way.

`Flow` has all links, and the boarder at the end of the last pipe.  A thread of the
pipeline takes part in at most two links, as the one that takes and as the one that
pushes, and `Flow.thread` is the rule for its steps.
-/
import Contreap.Model.Scheduler

namespace Scheduler

/-! ### Updates of a state -/

section
variable (s : State) {i j : Nat}

@[simp] theorem setPipe_self (p : Pipe) : (s.setPipe i p).pipes i = p := by
  simp only [State.setPipe, Function.update_self]

theorem setPipe_of_ne (p : Pipe) (h : j ≠ i) : (s.setPipe i p).pipes j = s.pipes j := by
  simp only [State.setPipe, Function.update_of_ne h]

@[simp] theorem pushToken_self : (s.pushToken i).tokens i = s.tokens i + 1 := by
  simp only [State.pushToken, Function.update_self]

theorem pushToken_of_ne (h : j ≠ i) : (s.pushToken i).tokens j = s.tokens j := by
  simp only [State.pushToken, Function.update_of_ne h]

@[simp] theorem setTask_self (x : Treap.Store × Context) : (s.setTask i x).ctxs i = x.2 := by
  simp only [State.setTask, Function.update_self]

theorem setTask_of_ne (x : Treap.Store × Context) (h : j ≠ i) : (s.setTask i x).ctxs j = s.ctxs j := by
  simp only [State.setTask, Function.update_of_ne h]

end

/-! ### What has passed a thread

Three counters are read off the place of a pipe, and all that is said of tokens is said
in terms of them.
-/

/-- The number of tasks a pipe has handed on. -/
def Pipe.pushed (p : Pipe) : Nat := if p.at_ = .notify then p.pos else p.pos - 1

/-- The number of tasks it has executed. -/
def Pipe.moved (p : Pipe) : Nat := if p.at_ = .push ∨ p.at_ = .notify then p.pos else p.pos - 1

/-- The number of tokens it has taken. -/
def Pipe.claimed (p : Pipe) : Nat := if p.at_ = .claim then p.pos - 1 else p.pos

/-- The number of tasks handed on by pipe `i`, or the master. -/
def State.pushed (s : State) : Nat → Nat
  | 0 => if s.master = .push then s.numIssued - 1 else s.numIssued
  | i + 1 => (s.pipes (i + 1)).pushed

/-- Whether pipe `i`, or the master, is about to notify the next one. -/
def State.Ringing (s : State) : Nat → Prop
  | 0 => s.master = .notify
  | i + 1 => (s.pipes (i + 1)).at_ = .notify

theorem Pipe.pushed_le_moved (p : Pipe) : p.pushed ≤ p.moved := by
  unfold Pipe.pushed Pipe.moved
  by_cases hn : p.at_ = .notify
  · simp [hn]
  · simp only [if_neg hn]
    split <;> omega

theorem pushed_zero_le (s : State) : s.pushed 0 ≤ s.numIssued := by
  simp only [State.pushed]
  split <;> omega

/-! ### Links

Each lemma is one step of the two threads that share a token.  Falling asleep and being
told are among them.
-/

/-- A thread that has pushed `out` tasks, and the pipe that takes them.  The token is the
difference of the tasks pushed and those claimed, so that it is `-1` for a pipe that has
come too early; such a pipe may sleep, and then either there is still no token or
`ringing` says that it is going to be told. -/
structure Link (out : Nat) (ringing : Prop) (token : Int) (p : Pipe) : Prop where
  pos : 1 ≤ p.pos
  room : p.pos ≤ out + 1
  entered : p.at_ = .exec ∨ p.at_ = .push ∨ p.at_ = .notify → p.pos ≤ out
  balance : token = out - p.claimed
  asleep : p.at_ = .asleep → token = -1 ∨ ringing

namespace Link

variable {out : Nat} {ringing ringing' : Prop} {token : Int} {p : Pipe}

theorem moved_le (h : Link out ringing token p) : p.moved ≤ out := by
  have hroom := h.room
  unfold Pipe.moved
  by_cases hat : p.at_ = .push ∨ p.at_ = .notify
  · rw [if_pos hat]
    exact h.entered (Or.inr hat)
  · rw [if_neg hat]
    omega

theorem pushed_le (h : Link out ringing token p) : p.pushed ≤ out :=
  p.pushed_le_moved.trans h.moved_le

theorem claimed_of (hat : p.at_ ≠ .claim) : p.claimed = p.pos := if_neg hat

/-- A token that is not `-1` is for the task the pipe has claimed. -/
theorem pos_le (h : Link out ringing token p) (hat : p.at_ ≠ .claim) (htok : token ≠ -1) :
    p.pos ≤ out := by
  have := h.balance
  have := h.room
  rw [claimed_of hat] at *
  omega

theorem mono (h : Link out ringing token p) (hr : ringing → ringing') :
    Link out ringing' token p :=
  ⟨h.pos, h.room, h.entered, h.balance, fun hat => (h.asleep hat).imp_right hr⟩

/-- One more task is pushed; whoever was waiting for it is to be notified. -/
theorem push (h : Link out ringing token p) (hquiet : ¬ ringing)
    (hr : token + 1 = 0 → ringing') : Link (out + 1) ringing' (token + 1) p := by
  have htoken := h.balance
  have hroom := h.room
  refine ⟨h.pos, by omega, fun hat => (h.entered hat).step, by push_cast; omega, fun hat => ?_⟩
  have hone := (h.asleep hat).resolve_right hquiet
  exact Or.inr (hr (by omega))

/-- A pipe takes a token, and waits if there was none. -/
theorem claim (h : Link out ringing token p) (hat : p.at_ = .claim) :
    Link out ringing (token - 1) { p with at_ := if token = 0 then .wait else .exec } := by
  have htoken := h.balance
  have hroom := h.room
  have hpos := h.pos
  simp only [Pipe.claimed, if_pos hat] at htoken
  constructor
  · exact hpos
  · exact hroom
  · by_cases hzero : token = 0
    · simp [hzero]
    · intro _
      show p.pos ≤ out
      omega
  · rw [claimed_of (by split <;> simp)]
    show token - 1 = out - (p.pos : Int)
    omega
  · intro hcontra
    simp only at hcontra
    split at hcontra <;> cases hcontra

/-- A waiting pipe compares the counter, and sleeps while it is all ones. -/
theorem compare (h : Link out ringing token p) (hat : p.at_ = .wait) :
    Link out ringing token { p with at_ := if token = -1 then .asleep else .exec } := by
  have htoken := h.balance
  rw [claimed_of (by rw [hat]; decide)] at htoken
  refine ⟨h.pos, h.room, fun hnext => ?_, ?_, fun hnext => ?_⟩
  · by_cases hone : token = -1
    · simp [hone] at hnext
    · exact h.pos_le (by rw [hat]; decide) hone
  · rw [claimed_of (by split <;> simp)]
    exact htoken
  · by_cases hone : token = -1
    · exact Or.inl hone
    · simp [hone] at hnext

/-- A pipe that waited or slept waits. -/
theorem wake (h : Link out ringing token p) (hat : p.at_ = .asleep) :
    Link out ringing' token { p with at_ := .wait } := by
  have htoken := h.balance
  rw [claimed_of (by rw [hat]; decide)] at htoken
  exact ⟨h.pos, h.room, nofun, htoken, nofun⟩

/-- A pipe goes on with the task it has. -/
theorem advance (h : Link out ringing token p) (hat : p.at_ = .exec ∨ p.at_ = .push)
    {a : PipeAt} (ha : a = .push ∨ a = .notify) : Link out ringing token { p with at_ := a } := by
  have htoken := h.balance
  have hp : p.pos ≤ out := h.entered (hat.imp_right Or.inl)
  rw [claimed_of (by rcases hat with hat | hat <;> rw [hat] <;> decide)] at htoken
  refine ⟨h.pos, h.room, fun _ => hp, ?_, fun hnext => ?_⟩
  · rwa [claimed_of (by rcases ha with ha | ha <;> simp [ha])]
  · rcases ha with rfl | rfl <;> cases hnext

/-- A pipe goes on to the next task. -/
theorem next (h : Link out ringing token p) (hat : p.at_ = .push ∨ p.at_ = .notify) :
    Link out ringing token { pos := p.pos + 1 } := by
  have htoken := h.balance
  rw [claimed_of (by rcases hat with hat | hat <;> rw [hat] <;> decide)] at htoken
  refine ⟨Nat.succ_le_succ (Nat.zero_le _), Nat.succ_le_succ (h.entered (Or.inr hat)), nofun, ?_,
    nofun⟩
  simpa [Pipe.claimed] using htoken

end Link

/-! ### The whole pipeline

The counters fall along the pipeline, so a task that has passed its end was executed by
every pipe.
-/

/-- The pipeline as a whole: its links, from the master to the last pipe, and the boarder,
which has taken all tokens behind the last pipe but those that are still there. -/
structure Flow (c : Config) (s : State) : Prop where
  links : ∀ i < c.numPipes, Link (s.pushed i) (s.Ringing i) (s.tokens i) (s.pipes (i + 1))
  last : s.tokens c.numPipes = s.pushed c.numPipes - s.boarder.localSubmitted
  taken : s.boarder.localSubmitted ≤ s.pushed c.numPipes
  submitted : s.numSubmitted ≤ s.boarder.localSubmitted
  stored : s.boarder.storing = false → s.numSubmitted = s.boarder.localSubmitted
  issued : s.master = .push → 1 ≤ s.numIssued
  bounded : s.numIssued ≤ c.ops.length

namespace Flow

variable {c : Config} {s s' : State} {i j u : Nat}

theorem moved_le (h : Flow c s) (hi : i < c.numPipes) :
    (s.pipes (i + 1)).moved ≤ s.pushed i := (h.links i hi).moved_le

theorem pushed_anti (h : Flow c s) (hij : i ≤ j) (hj : j ≤ c.numPipes) :
    s.pushed j ≤ s.pushed i := by
  induction j with
  | zero => rw [Nat.le_zero.mp hij]
  | succ j ih =>
      rcases Nat.le_succ_iff.mp hij with hle | rfl
      · exact (h.links j hj).pushed_le.trans (ih hle (Nat.le_of_succ_le hj))
      · exact Nat.le_refl _

/-- What has passed the end of the pipeline was executed by every pipe. -/
theorem pushed_le_moved (h : Flow c s) (hij : i < j) (hj : j ≤ c.numPipes) :
    s.pushed j ≤ (s.pipes (i + 1)).moved :=
  (h.pushed_anti hij hj).trans (Pipe.pushed_le_moved _)

theorem submitted_le (h : Flow c s) : s.numSubmitted ≤ s.pushed c.numPipes :=
  h.submitted.trans h.taken

theorem pushed_le_issued (h : Flow c s) (hi : i ≤ c.numPipes) : s.pushed i ≤ s.numIssued :=
  (h.pushed_anti (Nat.zero_le i) hi).trans (pushed_zero_le s)

theorem submitted_le_issued (h : Flow c s) : s.numSubmitted ≤ s.numIssued :=
  h.submitted_le.trans (h.pushed_le_issued (Nat.le_refl _))

/-- Nothing of the pipeline has changed. -/
theorem congr (h : Flow c s) (hpipes : ∀ i < c.numPipes, s'.pipes (i + 1) = s.pipes (i + 1))
    (htokens : s'.tokens = s.tokens) (hmaster : s'.master = s.master)
    (hissued : s'.numIssued = s.numIssued) (hboarder : s'.boarder = s.boarder)
    (hsub : s'.numSubmitted = s.numSubmitted) : Flow c s' := by
  have hsame : ∀ i ≤ c.numPipes, s'.pushed i = s.pushed i ∧ s'.Ringing i = s.Ringing i := by
    intro i hi
    cases i with
    | zero => simp only [State.pushed, State.Ringing, hmaster, hissued, and_self]
    | succ i => simp only [State.pushed, State.Ringing, hpipes i hi, and_self]
  refine ⟨fun i hi => ?_, ?_, ?_, ?_, ?_, ?_, ?_⟩
  · rw [(hsame i (Nat.le_of_lt hi)).1, (hsame i (Nat.le_of_lt hi)).2, htokens, hpipes i hi]
    exact h.links i hi
  · rw [(hsame _ (Nat.le_refl _)).1, htokens, hboarder]
    exact h.last
  · rw [(hsame _ (Nat.le_refl _)).1, hboarder]
    exact h.taken
  · rw [hboarder, hsub]
    exact h.submitted
  · rw [hboarder, hsub]
    exact h.stored
  · rw [hmaster, hissued]
    exact h.issued
  · rw [hissued]
    exact h.bounded

/--
**The rule for a step of thread `i`**, the master or a pipe.  It keeps the link it
takes tasks from, and the one it pushes tasks to.
-/
theorem thread (h : Flow c s) (hi : i ≤ c.numPipes)
    (hothers : ∀ l, l ≠ i → s'.pushed l = s.pushed l ∧ s'.Ringing l = s.Ringing l)
    (htokens : ∀ l, l ≠ i → l + 1 ≠ i → s'.tokens l = s.tokens l)
    (hpipes : ∀ l, l ≠ i → s'.pipes l = s.pipes l)
    (hin : ∀ j, j + 1 = i → Link (s.pushed j) (s.Ringing j) (s.tokens j) (s.pipes i) →
      Link (s.pushed j) (s.Ringing j) (s'.tokens j) (s'.pipes i))
    (hout : Link (s.pushed i) (s.Ringing i) (s.tokens i) (s.pipes (i + 1)) →
      Link (s'.pushed i) (s'.Ringing i) (s'.tokens i) (s.pipes (i + 1)))
    (hlast : s'.tokens i - s'.pushed i = s.tokens i - s.pushed i)
    (hle : s.pushed i ≤ s'.pushed i) (hboarder : s'.boarder = s.boarder)
    (hsub : s'.numSubmitted = s.numSubmitted) (hissued : s'.master = .push → 1 ≤ s'.numIssued)
    (hbounded : s'.numIssued ≤ c.ops.length) : Flow c s' := by
  have hpushed : ∀ l, s.pushed l ≤ s'.pushed l := fun l => by
    by_cases hl : l = i
    · exact hl ▸ hle
    · rw [(hothers l hl).1]
  refine ⟨fun l hl => ?_, ?_, ?_, ?_, ?_, hissued, hbounded⟩
  · have hlink := h.links l hl
    by_cases hli : l = i
    · subst hli
      rw [hpipes (l + 1) (Nat.succ_ne_self l)]
      exact hout hlink
    · obtain ⟨hp, hr⟩ := hothers l hli
      rw [hp, hr]
      by_cases hl1 : l + 1 = i
      · subst hl1
        exact hin l rfl hlink
      · rw [htokens l hli hl1, hpipes (l + 1) hl1]
        exact hlink
  · have hend := h.last
    rw [hboarder]
    by_cases hP : c.numPipes = i
    · subst hP
      omega
    · rw [(hothers _ hP).1, htokens _ hP (by omega)]
      exact hend
  · rw [hboarder]
    exact h.taken.trans (hpushed _)
  · rw [hboarder, hsub]
    exact h.submitted
  · rw [hboarder, hsub]
    exact h.stored

/-- The rule for a pipe. -/
theorem pipe (h : Flow c s) (hi : i < c.numPipes) {p' : Pipe}
    (hpipes : s'.pipes = Function.update s.pipes (i + 1) p')
    (htokens : ∀ l, l ≠ i → l ≠ i + 1 → s'.tokens l = s.tokens l)
    (hin : Link (s.pushed i) (s.Ringing i) (s.tokens i) (s.pipes (i + 1)) →
      Link (s.pushed i) (s.Ringing i) (s'.tokens i) p')
    (hout : Link (s.pushed (i + 1)) (s.Ringing (i + 1)) (s.tokens (i + 1)) (s.pipes (i + 2)) →
      Link p'.pushed (p'.at_ = .notify) (s'.tokens (i + 1)) (s.pipes (i + 2)))
    (hlast : s'.tokens (i + 1) - p'.pushed = s.tokens (i + 1) - s.pushed (i + 1))
    (hle : s.pushed (i + 1) ≤ p'.pushed) (hmaster : s'.master = s.master)
    (hissued : s'.numIssued = s.numIssued) (hboarder : s'.boarder = s.boarder)
    (hsub : s'.numSubmitted = s.numSubmitted) : Flow c s' := by
  have hself : s'.pipes (i + 1) = p' := by rw [hpipes, Function.update_self]
  have hne : ∀ l, l ≠ i + 1 → s'.pipes l = s.pipes l := fun l hl => by
    rw [hpipes, Function.update_of_ne hl]
  have hpushed : s'.pushed (i + 1) = p'.pushed := by simp only [State.pushed, hself]
  have hring : s'.Ringing (i + 1) = (p'.at_ = .notify) := by simp only [State.Ringing, hself]
  refine h.thread hi (fun l hl => ?_) (fun l hl hl' => htokens l (by omega) hl) hne
    (fun j hj hlink => ?_) ?_ ?_ ?_ hboarder hsub (by rw [hmaster, hissued]; exact h.issued)
    (by rw [hissued]; exact h.bounded)
  · cases l with
    | zero => simp only [State.pushed, State.Ringing, hmaster, hissued, and_self]
    | succ l => simp only [State.pushed, State.Ringing, hne (l + 1) hl, and_self]
  · obtain rfl : j = i := Nat.succ.inj hj
    rw [hself]
    exact hin hlink
  · rw [hpushed, hring]
    exact hout
  · rw [hpushed]
    exact hlast
  · rw [hpushed]
    exact hle

/-- The rule for the master. -/
theorem of_master (h : Flow c s) (hpipes : s'.pipes = s.pipes)
    (htokens : ∀ l, l ≠ 0 → s'.tokens l = s.tokens l)
    (hout : Link (s.pushed 0) (s.Ringing 0) (s.tokens 0) (s.pipes 1) →
      Link (s'.pushed 0) (s'.Ringing 0) (s'.tokens 0) (s.pipes 1))
    (hlast : s'.tokens 0 - s'.pushed 0 = s.tokens 0 - s.pushed 0)
    (hle : s.pushed 0 ≤ s'.pushed 0) (hboarder : s'.boarder = s.boarder)
    (hsub : s'.numSubmitted = s.numSubmitted) (hissued : s'.master = .push → 1 ≤ s'.numIssued)
    (hbounded : s'.numIssued ≤ c.ops.length) : Flow c s' := by
  refine h.thread (Nat.zero_le _) (fun l hl => ?_) (fun l hl _ => htokens l hl)
    (fun l _ => by rw [hpipes]) (fun j hj => absurd hj (Nat.succ_ne_zero j)) hout hlast hle hboarder
    hsub hissued hbounded
  cases l with
  | zero => exact absurd rfl hl
  | succ l => simp only [State.pushed, State.Ringing, hpipes, and_self]

end Flow

end Scheduler
