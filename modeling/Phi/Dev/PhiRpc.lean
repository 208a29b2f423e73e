import Mathlib.Logic.Function.Basic
import Phi.Lib.Run

/-!
# Phi.Dev.PhiRpc

The card's /dev/phirpc between its opens and releases.

`knc_rpc_open` claims the device and then schedules the poll work;
`knc_rpc_release` gives the device up and then cancels the work.  No lock
spans the two halves of either, so a step here is one half: an atomic
operation, or the call into the workqueue.  The poll work itself has four, and
while a cancel is in progress the workqueue drops every request to queue it.
-/

namespace Phi.Dev.PhiRpc

/-! ## the device -/

/-- Where a task stands with the device. -/
inductive Phase where
  | closed
  | claimed
  | holding
  | leaving
  | cancelling
deriving DecidableEq

/-- `knc_rpc_poll_work` between its steps: it was entered, has woken the
waiters, has found the device open. -/
inductive Work where
  | idle
  | entered
  | woken
  | again
deriving DecidableEq

/-- `struct knc_rpc` as opens, releases and the poll work see it, and the
workqueue's own state of the work: `queued` is set on the timer and on a
worker's list, `disabled` counts the cancels in progress. -/
structure State (Task : Type) where
  opened : Bool
  phase : Task → Phase
  queued : Bool
  work : Work
  disabled : Nat
  readable : Nat
  writable : Nat
  asleep : Task → Bool

/-- The steps of the tasks, the host and the poll work. -/
inductive Op (Task : Type) where
  | claim (t : Task)
  | schedule (t : Task)
  | drop (t : Task)
  | cancel (t : Task)
  | cancelled (t : Task)
  | sleep (t : Task)
  | interrupt (t : Task)
  | read (t : Task) (n : Nat)
  | write (t : Task) (n : Nat)
  | host (n m : Nat)
  | enter
  | wake
  | check
  | requeue
deriving DecidableEq

variable {Task : Type}

/-- The steps of the poll work. -/
def Op.ofWork : Op Task → Bool
  | .enter | .wake | .check | .requeue => true
  | _ => false

/-- The device after `knc_rpc_init`. -/
def start (readable writable : Nat) : State Task where
  opened := false
  phase _ := .closed
  queued := false
  work := .idle
  disabled := 0
  readable := readable
  writable := writable
  asleep _ := false

/-- `schedule_delayed_work`: nothing where the work is queued, or is being
cancelled. -/
def State.scheduleDelayedWork (s : State Task) : State Task :=
  if s.queued = true ∨ s.disabled ≠ 0 then s else { s with queued := true }

/-- Scheduling changes nothing but `queued`, and drops the request only where
the work is queued or cancelled. -/
theorem schedule_cases (s : State Task) :
    (s.scheduleDelayedWork = { s with queued := true } ∧ s.disabled = 0) ∨
      (s.scheduleDelayedWork = s ∧ (s.queued = true ∨ s.disabled ≠ 0)) := by
  unfold State.scheduleDelayedWork
  by_cases h : s.queued = true ∨ s.disabled ≠ 0
  · exact .inr ⟨if_pos h, h⟩
  · rw [if_neg h]
    exact .inl ⟨rfl, by simpa using (not_or.mp h).2⟩

variable [DecidableEq Task]

def State.setPhase (s : State Task) (t : Task) (p : Phase) : State Task :=
  { s with phase := Function.update s.phase t p }

/-- One step, where it may be taken. -/
def step (s : State Task) : Op Task → Option (State Task)
  -- knc_rpc_open; a device that is open answers -EBUSY
  | .claim t =>
      if s.phase t = .closed then
        some (if s.opened = true then s else { s.setPhase t .claimed with opened := true })
      else none
  | .schedule t =>
      if s.phase t = .claimed then some (s.scheduleDelayedWork.setPhase t .holding) else none
  -- knc_rpc_release, once no call of the task is left inside the device
  | .drop t =>
      if s.phase t = .holding ∧ s.asleep t = false then
        some { s.setPhase t .leaving with opened := false }
      else none
  | .cancel t =>
      if s.phase t = .leaving then
        some { s.setPhase t .cancelling with queued := false, disabled := s.disabled + 1 }
      else none
  -- cancel_delayed_work_sync waits for a run of the work to end
  | .cancelled t =>
      if s.phase t = .cancelling ∧ s.work = .idle then
        some { s.setPhase t .closed with disabled := s.disabled - 1 }
      else none
  -- knc_rpc_read and knc_rpc_write
  | .sleep t =>
      if s.phase t = .holding ∧ s.readable = 0 then
        some { s with asleep := Function.update s.asleep t true }
      else none
  | .interrupt t => some { s with asleep := Function.update s.asleep t false }
  | .read t n =>
      if s.phase t = .holding ∧ s.asleep t = false ∧ n ≤ s.readable then
        some { s with readable := s.readable - n }
      else none
  | .write t n =>
      if s.phase t = .holding ∧ s.asleep t = false ∧ n ≤ s.writable then
        some { s with writable := s.writable - n }
      else none
  | .host n m => some { s with readable := s.readable + n, writable := s.writable + m }
  -- knc_rpc_poll_work
  | .enter =>
      if s.queued = true ∧ s.work = .idle then
        some { s with queued := false, work := .entered }
      else none
  | .wake =>
      if s.work = .entered then
        some { s with
          work := .woken
          asleep := if s.readable ≠ 0 ∨ s.writable ≠ 0 then fun _ => false else s.asleep }
      else none
  | .check =>
      if s.work = .woken then some { s with work := if s.opened = true then .again else .idle }
      else none
  | .requeue =>
      if s.work = .again then some { s.scheduleDelayedWork with work := .idle } else none

def Step (s : State Task) (i : Op Task) (t : State Task) : Prop := step s i = some t

variable {Task : Type} [DecidableEq Task]

/-! ## what any order of steps keeps -/

/-- A task that has claimed the device and not given it up. -/
def Phase.inside : Phase → Bool
  | .claimed | .holding => true
  | _ => false

theorem inside_update {f : Task → Phase} {t : Task} {p : Phase}
    (h : p.inside = (f t).inside) (u : Task) :
    (Function.update f t p u).inside = (f u).inside := by
  by_cases hu : u = t
  · subst hu
    rw [Function.update_self, h]
  · rw [Function.update_of_ne hu]

/-- What a step does to who is inside: one enters a closed device, one leaves,
or nothing changes. -/
theorem step_inside {s u : State Task} {i : Op Task} (h : Step s i u) :
    (∃ t, s.opened = false ∧ u.opened = true ∧ u.phase = Function.update s.phase t .claimed) ∨
      (∃ t, (s.phase t).inside = true ∧ u.phase = Function.update s.phase t .leaving) ∨
      (u.opened = s.opened ∧ ∀ t, (u.phase t).inside = (s.phase t).inside) := by
  cases i <;> simp only [Step, step, Option.ite_none_right_eq_some, Option.some.injEq] at h
  case claim t =>
    obtain ⟨hphase, rfl⟩ := h
    cases hopen : s.opened with
    | true => exact .inr (.inr ⟨by simp [hopen], fun _ => by simp⟩)
    | false => exact .inl ⟨t, rfl, by simp [State.setPhase]⟩
  case drop t =>
    obtain ⟨⟨hphase, -⟩, rfl⟩ := h
    exact .inr (.inl ⟨t, by rw [hphase]; rfl, rfl⟩)
  case schedule t =>
    obtain ⟨hphase, rfl⟩ := h
    obtain ⟨hsched, -⟩ | ⟨hsched, -⟩ := schedule_cases s <;> rw [hsched] <;>
      exact .inr (.inr ⟨rfl, inside_update (by rw [hphase]; rfl)⟩)
  case cancel t =>
    obtain ⟨hphase, rfl⟩ := h
    exact .inr (.inr ⟨rfl, inside_update (by rw [hphase]; rfl)⟩)
  case cancelled t =>
    obtain ⟨⟨hphase, -⟩, rfl⟩ := h
    exact .inr (.inr ⟨rfl, inside_update (by rw [hphase]; rfl)⟩)
  case requeue =>
    obtain ⟨-, rfl⟩ := h
    obtain ⟨hsched, -⟩ | ⟨hsched, -⟩ := schedule_cases s <;> rw [hsched] <;>
      exact .inr (.inr ⟨rfl, fun _ => rfl⟩)
  case interrupt | host =>
    subst h
    exact .inr (.inr ⟨rfl, fun _ => rfl⟩)
  all_goals
    obtain ⟨-, rfl⟩ := h
    exact .inr (.inr ⟨rfl, fun _ => rfl⟩)

/-- Nothing is queued while a cancel is in progress but what was before. -/
theorem step_queued {s u : State Task} {i : Op Task} (h : Step s i u) (hd : u.disabled ≠ 0)
    (hq : u.queued = true) : s.disabled ≠ 0 ∧ s.queued = true := by
  cases i <;> simp only [Step, step, Option.ite_none_right_eq_some, Option.some.injEq] at h
  case claim t =>
    obtain ⟨-, rfl⟩ := h
    split at hd <;> exact ⟨hd, by simpa [*, State.setPhase] using hq⟩
  case schedule t =>
    obtain ⟨-, rfl⟩ := h
    obtain ⟨hsched, hzero⟩ | ⟨hsched, -⟩ := schedule_cases s <;> rw [hsched] at hd hq
    · exact absurd hzero hd
    · exact ⟨hd, hq⟩
  case requeue =>
    obtain ⟨-, rfl⟩ := h
    obtain ⟨hsched, hzero⟩ | ⟨hsched, -⟩ := schedule_cases s <;> rw [hsched] at hd hq
    · exact absurd hzero hd
    · exact ⟨hd, hq⟩
  case cancel t =>
    obtain ⟨-, rfl⟩ := h
    exact nomatch hq
  case enter =>
    obtain ⟨-, rfl⟩ := h
    exact nomatch hq
  case cancelled t =>
    obtain ⟨-, rfl⟩ := h
    exact ⟨fun hzero => hd (by simp [hzero]), hq⟩
  case interrupt | host =>
    subst h
    exact ⟨hd, hq⟩
  all_goals
    obtain ⟨-, rfl⟩ := h
    exact ⟨hd, hq⟩

/-- One task at most is inside, the device is open while one is, and nothing is
queued while a cancel is in progress. -/
structure Valid (s : State Task) : Prop where
  opened : ∀ t, (s.phase t).inside = true → s.opened = true
  alone : ∀ t u, (s.phase t).inside = true → (s.phase u).inside = true → t = u
  quiet : s.disabled ≠ 0 → s.queued = false

omit [DecidableEq Task] in
theorem valid_start (r w : Nat) : Valid (start r w : State Task) where
  opened _ h := nomatch h
  alone _ _ h := nomatch h
  quiet _ := rfl

theorem valid_step {s u : State Task} {i : Op Task} (hv : Valid s) (h : Step s i u) : Valid u := by
  have hquiet : u.disabled ≠ 0 → u.queued = false := fun hd =>
    eq_false_of_ne_true fun hq =>
      have hbefore := step_queued h hd hq
      absurd (hv.quiet hbefore.1) (by simp [hbefore.2])
  obtain ⟨t, hshut, hopen, hphase⟩ | ⟨t, hin, hphase⟩ | ⟨hopen, hsame⟩ := step_inside h
  · have hout : ∀ v, (s.phase v).inside = false := fun v =>
      eq_false_of_ne_true fun hv' => by simp [hv.opened v hv'] at hshut
    have honly : ∀ v, (u.phase v).inside = true → v = t := fun v hv' => by
      by_cases hvt : v = t
      · exact hvt
      · rw [hphase, Function.update_of_ne hvt, hout v] at hv'
        exact nomatch hv'
    exact ⟨fun _ _ => hopen, fun v w hv' hw => (honly v hv').trans (honly w hw).symm, hquiet⟩
  · have hnone : ∀ v, (u.phase v).inside = false := fun v => by
      rw [hphase]
      by_cases hvt : v = t
      · rw [hvt, Function.update_self]
        rfl
      · rw [Function.update_of_ne hvt]
        exact eq_false_of_ne_true fun hv' => hvt (hv.alone v t hv' hin)
    exact ⟨fun v hv' => by simp [hnone v] at hv', fun v _ hv' => by simp [hnone v] at hv', hquiet⟩
  · exact ⟨fun v hv' => hopen ▸ hv.opened v (hsame v ▸ hv'),
      fun v w hv' hw => hv.alone v w (hsame v ▸ hv') (hsame w ▸ hw), hquiet⟩

theorem valid_run {r w : Nat} {is : List (Op Task)} {s : State Task}
    (h : Runs Step (start r w) is s) : Valid s :=
  h.inv (fun _ _ _ hv hstep => valid_step hv hstep) (valid_start r w)

variable {Task : Type} [DecidableEq Task]

/-! ## hearing -/

/-- The poll work is queued or running. -/
def State.Polls (s : State Task) : Prop := s.queued = true ∨ s.work ≠ .idle

/-- While a task holds the device open it polls. -/
def Hears (s : State Task) : Prop := ∀ t, s.phase t = .holding → s.Polls

/-- The halves of an open and a release in turn: a release cancels the work
while nobody holds the device open, and an open schedules it while no cancel is
in progress. -/
def InTurn (s : State Task) : Op Task → Prop
  | .cancel _ => ∀ u, s.phase u ≠ .holding
  | .schedule _ => s.disabled = 0
  | _ => True

def Orderly (s : State Task) (i : Op Task) (u : State Task) : Prop := Step s i u ∧ InTurn s i

/-- A task comes to hold the device open by its schedule only. -/
theorem step_holding {s u : State Task} {i : Op Task} {v : Task} (h : Step s i u)
    (hv : u.phase v = .holding) : s.phase v = .holding ∨ i = .schedule v := by
  have hupdate : ∀ {t : Task} {p : Phase}, p ≠ .holding →
      Function.update s.phase t p v = .holding → s.phase v = .holding := fun {t p} hp hu => by
    by_cases hvt : v = t
    · rw [hvt, Function.update_self] at hu
      exact absurd hu hp
    · rwa [Function.update_of_ne hvt] at hu
  cases i <;> simp only [Step, step, Option.ite_none_right_eq_some, Option.some.injEq] at h
  case claim t =>
    obtain ⟨-, rfl⟩ := h
    split at hv
    · exact .inl hv
    · exact .inl (hupdate (by decide) hv)
  case schedule t =>
    obtain ⟨-, rfl⟩ := h
    by_cases hvt : v = t
    · exact .inr (by rw [hvt])
    · obtain ⟨hsched, -⟩ | ⟨hsched, -⟩ := schedule_cases s <;>
        rw [hsched] at hv <;>
        exact .inl ((Function.update_of_ne hvt ..).symm.trans hv)
  case requeue =>
    obtain ⟨-, rfl⟩ := h
    obtain ⟨hsched, -⟩ | ⟨hsched, -⟩ := schedule_cases s <;> rw [hsched] at hv <;> exact .inl hv
  case drop t | cancel t | cancelled t =>
    obtain ⟨-, rfl⟩ := h
    exact .inl (hupdate (by decide) hv)
  case interrupt | host =>
    subst h
    exact .inl hv
  all_goals
    obtain ⟨-, rfl⟩ := h
    exact .inl hv

omit [DecidableEq Task] in
theorem schedule_polls (s : State Task) (h : s.disabled = 0) :
    s.scheduleDelayedWork.queued = true ∧ s.scheduleDelayedWork.disabled = 0 := by
  obtain ⟨hsched, -⟩ | ⟨hsched, hq⟩ := schedule_cases s
  · rw [hsched]
    exact ⟨rfl, h⟩
  · rw [hsched]
    exact ⟨hq.resolve_right (not_not_intro h), h⟩

/-- While the device is open and nothing is being cancelled, what is not a
cancel keeps the work alive. -/
theorem step_polls {s u : State Task} {i : Op Task} (h : Step s i u) (hopen : s.opened = true)
    (hfree : s.disabled = 0) (hpolls : s.Polls) (hi : ∀ t, i ≠ .cancel t) :
    u.disabled = 0 ∧ u.Polls := by
  unfold State.Polls at hpolls ⊢
  cases i <;> simp only [Step, step, Option.ite_none_right_eq_some, Option.some.injEq] at h
  case claim t =>
    obtain ⟨-, rfl⟩ := h
    rw [if_pos hopen]
    exact ⟨hfree, hpolls⟩
  case schedule t =>
    obtain ⟨-, rfl⟩ := h
    have hafter := schedule_polls s hfree
    exact ⟨hafter.2, .inl hafter.1⟩
  case cancel t => exact absurd rfl (hi t)
  case cancelled t =>
    obtain ⟨⟨-, hidle⟩, rfl⟩ := h
    exact ⟨by simp [hfree], hpolls⟩
  case enter =>
    obtain ⟨-, rfl⟩ := h
    exact ⟨hfree, .inr nofun⟩
  case wake =>
    obtain ⟨-, rfl⟩ := h
    exact ⟨hfree, .inr nofun⟩
  case check =>
    obtain ⟨-, rfl⟩ := h
    exact ⟨hfree, .inr (by rw [hopen]; exact nofun)⟩
  case requeue =>
    obtain ⟨-, rfl⟩ := h
    have hafter := schedule_polls s hfree
    exact ⟨hafter.2, .inl hafter.1⟩
  case interrupt | host =>
    subst h
    exact ⟨hfree, hpolls⟩
  all_goals
    obtain ⟨-, rfl⟩ := h
    exact ⟨hfree, hpolls⟩

/-- While the device is held open it polls, and no cancel is in progress that
would drop the next request. -/
structure Alive (s : State Task) : Prop where
  valid : Valid s
  polls : ∀ t, s.phase t = .holding → s.disabled = 0 ∧ s.Polls

omit [DecidableEq Task] in
theorem Alive.hears {s : State Task} (h : Alive s) : Hears s := fun t ht => (h.polls t ht).2

theorem alive_step {s u : State Task} {i : Op Task} (ha : Alive s) (h : Orderly s i u) :
    Alive u := by
  obtain ⟨hstep, hturn⟩ := h
  refine ⟨valid_step ha.valid hstep, fun v hv => ?_⟩
  rcases step_holding hstep hv with hbefore | rfl
  · have hnocancel : ∀ t, i ≠ .cancel t := fun t hi => by
      subst hi
      exact hturn v hbefore
    obtain ⟨hfree, hpolls⟩ := ha.polls v hbefore
    exact step_polls hstep (ha.valid.opened v (by rw [hbefore]; rfl)) hfree hpolls hnocancel
  · simp only [Step, step, Option.ite_none_right_eq_some, Option.some.injEq] at hstep
    obtain ⟨-, rfl⟩ := hstep
    have hafter := schedule_polls s hturn
    exact ⟨hafter.2, .inl hafter.1⟩

theorem alive_run {r w : Nat} {is : List (Op Task)} {s : State Task}
    (h : Runs Orderly (start r w) is s) : Alive s :=
  h.inv (fun _ _ _ ha hstep => alive_step ha hstep) ⟨valid_start r w, fun _ ht => nomatch ht⟩

variable {Task : Type} [DecidableEq Task]

/-! ## a reader that waits -/

/-- How many steps of its own the poll work is from having woken the waiters. -/
def State.toWake (s : State Task) : Nat :=
  match s.work with
  | .entered => 1
  | .idle => 2
  | .again => 3
  | .woken => 4

/-- A task asleep in a read of the device. -/
structure Waiting (t : Task) (s : State Task) : Prop where
  holding : s.phase t = .holding
  asleep : s.asleep t = true
  data : s.readable ≠ 0

/-- A step that leaves the reader asleep takes neither the device nor the bytes
from it, and brings the work nearer to its wake-up where it is one of the work. -/
theorem step_waiting {s u : State Task} {i : Op Task} {t : Task} (ha : Alive s)
    (hw : Waiting t s) (h : Step s i u) (hasleep : u.asleep t = true) :
    Waiting t u ∧ s.toWake = u.toWake + if i.ofWork = true then 1 else 0 := by
  obtain ⟨hhold, hsleep, hdata⟩ := hw
  have hopen : s.opened = true := ha.valid.opened t (by rw [hhold]; rfl)
  have hothers : ∀ {v : Task} {p : Phase}, s.phase v ≠ .holding →
      Function.update s.phase v p t = .holding := fun {v p} hv => by
    have hne : t ≠ v := fun htv => hv (htv ▸ hhold)
    rw [Function.update_of_ne hne, hhold]
  have howner : ∀ v, s.phase v = .holding → s.asleep v = true := fun v hv => by
    rw [ha.valid.alone v t (by rw [hv]; rfl) (by rw [hhold]; rfl), hsleep]
  cases i <;> simp only [Step, step, Option.ite_none_right_eq_some, Option.some.injEq] at h
  case claim v =>
    obtain ⟨-, rfl⟩ := h
    rw [if_pos hopen]
    exact ⟨⟨hhold, hsleep, hdata⟩, rfl⟩
  case schedule v =>
    obtain ⟨hphase, rfl⟩ := h
    obtain ⟨hsched, -⟩ | ⟨hsched, -⟩ := schedule_cases s <;> rw [hsched] <;>
      exact ⟨⟨hothers (by rw [hphase]; decide), hsleep, hdata⟩, rfl⟩
  case drop v =>
    obtain ⟨⟨hphase, hawake⟩, -⟩ := h
    exact absurd (howner v hphase) (by simp [hawake])
  case cancel v =>
    obtain ⟨hphase, rfl⟩ := h
    exact ⟨⟨hothers (by rw [hphase]; decide), hsleep, hdata⟩, rfl⟩
  case cancelled v =>
    obtain ⟨⟨hphase, -⟩, rfl⟩ := h
    exact ⟨⟨hothers (by rw [hphase]; decide), hsleep, hdata⟩, rfl⟩
  case sleep v =>
    obtain ⟨⟨-, hempty⟩, -⟩ := h
    exact absurd hempty hdata
  case interrupt v =>
    subst h
    exact ⟨⟨hhold, hasleep, hdata⟩, rfl⟩
  case read v n =>
    obtain ⟨⟨hphase, hawake, -⟩, -⟩ := h
    exact absurd (howner v hphase) (by simp [hawake])
  case write v n =>
    obtain ⟨⟨hphase, hawake, -⟩, -⟩ := h
    exact absurd (howner v hphase) (by simp [hawake])
  case host n m =>
    subst h
    exact ⟨⟨hhold, hsleep, fun hzero => hdata (Nat.add_eq_zero_iff.mp hzero).1⟩, rfl⟩
  case enter =>
    obtain ⟨⟨-, hidle⟩, rfl⟩ := h
    exact ⟨⟨hhold, hsleep, hdata⟩, by simp [State.toWake, hidle, Op.ofWork]⟩
  case wake =>
    obtain ⟨-, rfl⟩ := h
    simp [hdata] at hasleep
  case check =>
    obtain ⟨hwork, rfl⟩ := h
    exact ⟨⟨hhold, hsleep, hdata⟩, by simp [State.toWake, hwork, hopen, Op.ofWork]⟩
  case requeue =>
    obtain ⟨hwork, rfl⟩ := h
    obtain ⟨hsched, -⟩ | ⟨hsched, -⟩ := schedule_cases s <;> rw [hsched] <;>
      exact ⟨⟨hhold, hsleep, hdata⟩, by simp [State.toWake, hwork, Op.ofWork]⟩

/-- A run that leaves a reader asleep takes fewer steps of the work than there
are to its next wake-up. -/
theorem run_waiting {s u : State Task} {is : List (Op Task)} {t : Task} (ha : Alive s)
    (hw : Waiting t s) (h : Runs (fun a i b => Orderly a i b ∧ b.asleep t = true) s is u) :
    is.countP Op.ofWork < s.toWake := by
  induction h with
  | nil s =>
      unfold State.toWake
      split <;> simp
  | @cons s i v is u hstep _ ih =>
      obtain ⟨hwaiting, hcount⟩ := step_waiting ha hw hstep.1.1 hstep.2
      have hrest := ih (alive_step ha hstep.1) hwaiting
      rw [List.countP_cons, hcount]
      omega

omit [DecidableEq Task] in
theorem toWake_le (s : State Task) : s.toWake ≤ 4 := by
  unfold State.toWake
  split <;> decide

/-- A work that is queued or running has a step to take. -/
theorem work_enabled {s : State Task} (h : s.Polls) :
    ∃ i : Op Task, i.ofWork = true ∧ ∃ u, Step s i u := by
  cases hwork : s.work with
  | idle =>
      have hqueued : s.queued = true := h.resolve_right (not_not_intro hwork)
      exact ⟨.enter, rfl, _, if_pos ⟨hqueued, hwork⟩⟩
  | entered => exact ⟨.wake, rfl, _, if_pos hwork⟩
  | woken => exact ⟨.check, rfl, _, if_pos hwork⟩
  | again => exact ⟨.requeue, rfl, _, if_pos hwork⟩

/-! ## out of turn -/

/-- A device held open while a cancel is in progress goes deaf by the steps of
the work alone. -/
theorem deaf_of_cancelled {s : State Task} {t : Task} (hv : Valid s) (ht : s.phase t = .holding)
    (hd : s.disabled ≠ 0) :
    ∃ is u, Runs Step s is u ∧ (∀ i ∈ is, i.ofWork = true) ∧ ¬ Hears u := by
  have hopen : s.opened = true := hv.opened t (by rw [ht]; rfl)
  have hquiet : s.queued = false := hv.quiet hd
  -- the work's requests are dropped, and it ends where it would queue itself
  have hagain : ∀ v : State Task, v.phase = s.phase → v.disabled = s.disabled → v.queued = false →
      v.work = .again → ∃ u, Runs Step v [.requeue] u ∧ ¬ Hears u := by
    intro v hphase hdv hqv hwork
    refine ⟨{ v with work := .idle }, .cons ?_ (.nil _), fun hears => ?_⟩
    · have hdrop : v.scheduleDelayedWork = v := if_pos (.inr (hdv ▸ hd))
      show step v .requeue = _
      rw [step, if_pos hwork, hdrop]
    · obtain hq | hw := hears t (by rw [show State.phase _ = s.phase from hphase, ht])
      · exact absurd hq (by simp [hqv])
      · exact hw rfl
  have hcheck : ∀ v : State Task, v.phase = s.phase → v.disabled = s.disabled → v.queued = false →
      v.opened = true → v.work = .woken → ∃ u, Runs Step v [.check, .requeue] u ∧ ¬ Hears u :=
    fun v hphase hdv hqv hov hwork => by
      obtain ⟨u, hrun, hdeaf⟩ := hagain { v with work := .again } hphase hdv hqv rfl
      refine ⟨u, .cons ?_ hrun, hdeaf⟩
      show step v .check = _
      rw [step, if_pos hwork, if_pos hov]
  cases hwork : s.work with
  | idle =>
      refine ⟨[], s, .nil _, nofun, fun hears => ?_⟩
      obtain hq | hw := hears t ht
      · exact absurd hq (by simp [hquiet])
      · exact hw hwork
  | entered =>
      obtain ⟨u, hrun, hdeaf⟩ := hcheck
        { s with
          work := .woken
          asleep := if s.readable ≠ 0 ∨ s.writable ≠ 0 then fun _ => false else s.asleep }
        rfl rfl hquiet hopen rfl
      exact ⟨_, u, .cons (show step s .wake = _ from if_pos hwork) hrun, by simp [Op.ofWork], hdeaf⟩
  | woken =>
      obtain ⟨u, hrun, hdeaf⟩ := hcheck s rfl rfl hquiet hopen hwork
      exact ⟨_, u, hrun, by simp [Op.ofWork], hdeaf⟩
  | again =>
      obtain ⟨u, hrun, hdeaf⟩ := hagain s rfl rfl hquiet hwork
      exact ⟨_, u, hrun, by simp [Op.ofWork], hdeaf⟩

/-- A step out of turn leaves the device held open in a cancel. -/
theorem out_of_turn {s u : State Task} {i : Op Task} (h : Step s i u) (hi : ¬ InTurn s i) :
    ∃ t, u.phase t = .holding ∧ u.disabled ≠ 0 := by
  cases i <;> simp only [InTurn, not_true_eq_false] at hi
  case cancel t =>
    simp only [Step, step, Option.ite_none_right_eq_some, Option.some.injEq] at h
    obtain ⟨hphase, rfl⟩ := h
    simp only [ne_eq, not_forall, not_not] at hi
    obtain ⟨v, hv⟩ := hi
    refine ⟨v, (Function.update_of_ne (fun hvt => ?_) ..).trans hv, Nat.succ_ne_zero _⟩
    rw [hvt, hphase] at hv
    exact nomatch hv
  case schedule t =>
    simp only [Step, step, Option.ite_none_right_eq_some, Option.some.injEq] at h
    obtain ⟨-, rfl⟩ := h
    refine ⟨t, Function.update_self .., ?_⟩
    obtain ⟨hsched, -⟩ | ⟨hsched, -⟩ := schedule_cases s <;> rw [hsched] <;> exact hi

/-- **/dev/phirpc hears what the host sends while opens and releases keep their
turn**: over any run of such steps, whenever a task holds the device open its
poll work is queued or running, and a reader asleep with bytes to read is woken
by the fourth step that the work takes, which it can always take.  Any step out
of turn lets the work's own steps end with the device open and deaf. -/
theorem phirpc_hears :
    (∀ (r w : Nat) (is : List (Op Task)) (s : State Task), Runs Orderly (start r w) is s →
      Hears s ∧ ∀ t, Waiting t s →
        (∃ i : Op Task, i.ofWork = true ∧ ∃ u, Step s i u) ∧
          ∀ js u, Runs (fun a i b => Orderly a i b ∧ b.asleep t = true) s js u →
            js.countP Op.ofWork < 4) ∧
      ∀ (r w : Nat) (is : List (Op Task)) (s : State Task), Runs Step (start r w) is s →
        ∀ i u, Step s i u → ¬ InTurn s i →
          ∃ js v, Runs Step u js v ∧ (∀ j ∈ js, j.ofWork = true) ∧ ¬ Hears v := by
  constructor
  · intro r w is s hrun
    have halive := alive_run hrun
    refine ⟨halive.hears, fun t ht => ⟨work_enabled (halive.hears t ht.holding), ?_⟩⟩
    intro js u hasleep
    exact Nat.lt_of_lt_of_le (run_waiting halive ht hasleep) (toWake_le s)
  · intro r w is s hrun i u hstep hturn
    obtain ⟨t, hhold, hcancel⟩ := out_of_turn hstep hturn
    exact deaf_of_cancelled (valid_step (valid_run hrun) hstep) hhold hcancel

/-- One task opens the device, sleeps, and the host sends. -/
theorem phirpc_hears_sleep :
    ∃ s : State Nat, Runs Orderly (start 0 0) [.claim 0, .schedule 0, .sleep 0, .host 5 0] s ∧
      Waiting 0 s ∧ ∀ js u, Runs (fun a i b => Orderly a i b ∧ b.asleep 0 = true) s js u →
        js.countP Op.ofWork < 4 := by
  have hrun : ∃ s : State Nat,
      Runs Orderly (start 0 0) [.claim 0, .schedule 0, .sleep 0, .host 5 0] s ∧ Waiting 0 s :=
    ⟨_, .cons ⟨rfl, trivial⟩ (.cons ⟨rfl, rfl⟩ (.cons ⟨rfl, trivial⟩
      (.cons ⟨rfl, trivial⟩ (.nil _)))), rfl, rfl, by decide⟩
  obtain ⟨s, hruns, hwaiting⟩ := hrun
  exact ⟨s, hruns, hwaiting, ((phirpc_hears.1 0 0 _ s hruns).2 0 hwaiting).2⟩

/-- A second task opens the device between the two halves of the first one's
release: it sleeps with bytes to read and the work has no step left. -/
theorem phirpc_deaf :
    ∃ s : State Nat,
      Runs Step (start 0 0) [.claim 0, .schedule 0, .drop 0, .claim 1, .schedule 1, .cancel 0,
        .cancelled 0, .sleep 1, .host 5 0] s ∧
      Waiting 1 s ∧ ¬ Hears s ∧ ∀ i : Op Nat, i.ofWork = true → ∀ u, ¬ Step s i u := by
  refine ⟨_, .cons rfl (.cons rfl (.cons rfl (.cons rfl (.cons rfl (.cons rfl (.cons rfl (.cons rfl
    (.cons rfl (.nil _))))))))), ⟨rfl, rfl, by decide⟩, fun hears => ?_, fun i hi u hstep => ?_⟩
  · obtain hq | hw := hears 1 rfl
    · exact nomatch hq
    · exact hw rfl
  · have hnone : (none : Option (State Nat)) = some u := by
      cases i <;> first | exact hstep | exact nomatch hi
    exact Option.some_ne_none u hnone.symm

end Phi.Dev.PhiRpc
