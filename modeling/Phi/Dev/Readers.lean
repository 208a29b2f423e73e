import Mathlib.Logic.Function.Basic
import Phi.Ring.Link

/-!
# Phi.Dev.Readers

Tasks that read /dev/phirpc at the same time (`knc_rpc_read`).

A read looks at the ring and sleeps while nothing is there; only after that
does it take the lock, fix its byte count on what it finds now, copy, and move
the tail.  Between the look and the lock any number of other readers may have
been through, so the count may be fixed on an empty ring.  The host puts bytes
in at any time; a writer (`knc_rpc_write`) only holds the lock.
-/

namespace Phi.Dev.Readers

open Ring

/-! ## reads -/

/-- `MAX_RW_COUNT`: the kernel cuts every `read` to it. -/
def maxRwCount : Nat := 0x7ffff000

/-- What a task asked for. -/
structure Call where
  count : Nat
  nonblock : Bool
deriving DecidableEq

/-- How a read comes back. -/
inductive Outcome where
  | bytes (bs : List UInt8)
  | again
  | restart
  | fault
deriving DecidableEq

/-- Where a task stands in `knc_rpc_read`: before its first look at the ring, in
`wait_event_interruptible`, about to take the lock, with the lock, with its count
fixed, with the bounce buffer filled.  A writer is inside with the lock. -/
inductive Phase where
  | out
  | called (c : Call)
  | asleep (c : Call)
  | ready (c : Call)
  | locked (c : Call)
  | counted (c : Call)
  | copied (c : Call)
  | writing

/-- A read that came back. -/
structure Return (Task : Type) where
  task : Task
  call : Call
  outcome : Outcome
deriving DecidableEq

def Outcome.taken : Outcome → List UInt8
  | .bytes bs => bs
  | _ => []

/-- The device: its ring from the host, the lock, the tasks, and the reads that
came back, the oldest first. -/
structure State (Task : Type) where
  link : Link
  holder : Option Task
  phase : Task → Phase
  log : List (Return Task)

/-- The host's steps on the ring. -/
inductive Push where
  | load (bs : List UInt8)
  | copy
  | publish
deriving DecidableEq

def Push.action : Push → Action
  | .load bs => .pushLoad bs
  | .copy => .pushCopy
  | .publish => .pushPublish

inductive Op (Task : Type) where
  | call (t : Task) (count : Nat) (nonblock : Bool)
  | look (t : Task)
  | wake (t : Task)
  | interrupt (t : Task)
  | lock (t : Task)
  | count (t : Task)
  | copy (t : Task)
  | fault (t : Task)
  | finish (t : Task)
  | writeLock (t : Task)
  | writeUnlock (t : Task)
  | host (p : Push)
deriving DecidableEq

variable {Task : Type} [DecidableEq Task]

/-- `knc_rpc_readable`. -/
def State.readable (s : State Task) : W32 := s.link.head - s.link.rxTail

def State.goto (s : State Task) (t : Task) (p : Phase) : State Task :=
  { s with phase := Function.update s.phase t p }

def State.ret (s : State Task) (t : Task) (c : Call) (o : Outcome) : State Task :=
  { s.goto t .out with log := s.log ++ [⟨t, c, o⟩] }

/-- A step of the ring from the host to the card. -/
def State.move (g : Geometry) (s : State Task) (a : Action) : State Task :=
  { s with link := s.link.step g .host .card a }

/-- One step; a step that does not fit the phase does nothing. -/
def step (g : Geometry) (s : State Task) : Op Task → State Task
  | .call t count nonblock => match s.phase t with
    | .out =>
        let c : Call := ⟨min count maxRwCount, nonblock⟩
        if c.count = 0 then s.ret t c (.bytes []) else s.goto t (.called c)
    | _ => s
  | .look t => match s.phase t with
    | .called c =>
        if s.readable ≠ 0 then s.goto t (.ready c)
        else if c.nonblock = true then s.ret t c .again
        else s.goto t (.asleep c)
    | _ => s
  | .wake t => match s.phase t with
    | .asleep c => if s.readable ≠ 0 then s.goto t (.ready c) else s
    | _ => s
  | .interrupt t => match s.phase t with
    | .asleep c | .ready c => s.ret t c .restart
    | _ => s
  | .lock t => match s.phase t with
    | .ready c => if s.holder = none then { s.goto t (.locked c) with holder := some t } else s
    | _ => s
  | .count t => match s.phase t with
    | .locked c => (s.move g (.popLoad c.count)).goto t (.counted c)
    | _ => s
  | .copy t => match s.phase t with
    | .counted c => (s.move g .popCopy).goto t (.copied c)
    | _ => s
  -- copy_to_user of no bytes does not fail
  | .fault t => match s.phase t, s.link.consumer with
    | .copied c, .copied _ (_ :: _) =>
        { (s.move g .popFault).ret t c .fault with holder := none }
    | _, _ => s
  | .finish t => match s.phase t, s.link.consumer with
    | .copied c, .copied _ bs =>
        { (s.move g .popPublish).ret t c (.bytes bs) with holder := none }
    | _, _ => s
  | .writeLock t => match s.phase t with
    | .out => if s.holder = none then { s.goto t .writing with holder := some t } else s
    | _ => s
  | .writeUnlock t => match s.phase t with
    | .writing => { s.goto t .out with holder := none }
    | _ => s
  | .host p => s.move g p.action

/-- The device opened on a ring as the two ends find it. -/
def start {g : Geometry} (st : Start g) : State Task where
  link := st.link
  holder := none
  phase _ := .out
  log := []

/-- A read that was told to wait for data, wanted some, and came back with none. -/
def Return.FalseEof (r : Return Task) : Prop :=
  r.call.nonblock = false ∧ 0 < r.call.count ∧ r.outcome = .bytes []

instance (r : Return Task) : Decidable r.FalseEof := by
  unfold Return.FalseEof
  infer_instance

/-- The bytes handed to the readers, in the order they were handed out. -/
def State.handed (s : State Task) : List UInt8 := s.log.flatMap fun r => r.outcome.taken

/-- The read that has the lock and looks at the ring next. -/
def Phase.counting : Phase → Option Call
  | .locked c => some c
  | _ => none

/-- A blocking reader that has the lock finds a byte in the ring. -/
def Finds (s : State Task) : Op Task → Prop
  | .count t => ∀ c ∈ (s.phase t).counting, c.nonblock = false → s.readable ≠ 0
  | _ => True

instance (s : State Task) : (op : Op Task) → Decidable (Finds s op)
  | .count t => inferInstanceAs
      (Decidable (∀ c ∈ (s.phase t).counting, c.nonblock = false → s.readable ≠ 0))
  | .call .. | .look _ | .wake _ | .interrupt _ | .lock _ | .copy _ | .fault _ | .finish _
  | .writeLock _ | .writeUnlock _ | .host _ => isTrue trivial

/-! ## the ring under the readers -/

/-- Inside the lock. -/
def Phase.inside : Phase → Bool
  | .locked _ | .counted _ | .copied _ | .writing => true
  | _ => false

def Phase.call : Phase → Option Call
  | .called c | .asleep c | .ready c | .locked c | .counted c | .copied c => some c
  | _ => none

/-- The consumer of the ring is where the holder of the lock is. -/
def Fits : Phase → Consumer → Prop
  | .counted _, .loaded _ _ => True
  | .copied _, .copied _ _ => True
  | .counted _, _ | .copied _, _ => False
  | _, .idle => True
  | _, _ => False

/-- What holds between any two steps. -/
structure Inv (g : Geometry) (s : State Task) : Prop where
  link : s.link.Inv g
  held : ∀ t, (s.phase t).inside = true ↔ s.holder = some t
  free : s.holder = none → s.link.consumer = .idle
  fits : ∀ t, s.holder = some t → Fits (s.phase t) s.link.consumer
  calls : ∀ t c, (s.phase t).call = some c → 0 < c.count ∧ c.count ≤ maxRwCount
  handed : s.link.popped = s.handed

section kept

variable {g : Geometry} {s : State Task} {t : Task}

omit [DecidableEq Task] in
theorem Inv.outside (h : Inv g s) (ht : (s.phase t).inside = false) : s.holder ≠ some t :=
  fun hheld => by simp [(h.held t).mpr hheld] at ht

/-- A task that is outside the lock goes on outside it. -/
theorem Inv.goto (h : Inv g s) {p : Phase} (ht : (s.phase t).inside = false)
    (hp : p.inside = false) (hcall : ∀ c, p.call = some c → 0 < c.count ∧ c.count ≤ maxRwCount) :
    Inv g (s.goto t p) where
  link := h.link
  held u := by
    by_cases hu : u = t
    · subst hu
      simp [State.goto, hp, h.outside ht]
    · simpa [State.goto, hu] using h.held u
  free := h.free
  fits u hu := by
    have hne : u ≠ t := fun he => h.outside ht (he ▸ hu)
    simpa [State.goto, hne] using h.fits u hu
  calls u c hc := by
    by_cases hu : u = t
    · subst hu
      exact hcall c (by simpa [State.goto] using hc)
    · exact h.calls u c (by simpa [State.goto, hu] using hc)
  handed := h.handed

/-- A read comes back without bytes. -/
theorem Inv.ret (h : Inv g s) (ht : (s.phase t).inside = false) (c : Call) {o : Outcome}
    (ho : o.taken = []) : Inv g (s.ret t c o) :=
  { h.goto ht rfl (p := .out) fun _ hc => by simp [Phase.call] at hc with
    handed := by simp [State.ret, State.goto, State.handed, ho, h.handed] }

/-- A task takes the lock. -/
theorem Inv.take (h : Inv g s) (hfree : s.holder = none) {p : Phase} (hp : p.inside = true)
    (hfits : Fits p .idle) (hcall : ∀ c, p.call = some c → 0 < c.count ∧ c.count ≤ maxRwCount) :
    Inv g { s.goto t p with holder := some t } where
  link := h.link
  held u := by
    by_cases hu : u = t
    · subst hu
      simp [State.goto, hp]
    · have hout := h.held u
      simp only [hfree, reduceCtorEq, iff_false] at hout
      simp [State.goto, hu, hout, Ne.symm hu]
  free := nofun
  fits u hu := by
    cases hu
    simpa [State.goto, h.free hfree] using hfits
  calls u c hc := by
    by_cases hu : u = t
    · subst hu
      exact hcall c (by simpa [State.goto] using hc)
    · exact h.calls u c (by simpa [State.goto, hu] using hc)
  handed := h.handed

/-- The holder goes on inside the lock with a step of the ring that takes no byte. -/
theorem Inv.move (h : Inv g s) (ht : s.holder = some t) {a : Action} {p : Phase}
    (hp : p.inside = true) (hcall : p.call = (s.phase t).call)
    (hpopped : (s.link.step g .host .card a).popped = s.link.popped)
    (hfits : Fits p (s.link.step g .host .card a).consumer) : Inv g ((s.move g a).goto t p) where
  link := Link.step_inv g .host .card s.link a h.link
  held u := by
    by_cases hu : u = t
    · subst hu
      simp [State.goto, State.move, hp, ht]
    · simpa [State.goto, State.move, hu] using h.held u
  free hnone := by simp [State.goto, State.move, ht] at hnone
  fits u hu := by
    have hut : u = t := by simpa [State.goto, State.move, ht, eq_comm] using hu
    subst hut
    simpa [State.goto, State.move] using hfits
  calls u c hc := by
    by_cases hu : u = t
    · subst hu
      refine h.calls u c ?_
      rw [← hcall]
      simpa [State.goto, State.move] using hc
    · exact h.calls u c (by simpa [State.goto, State.move, hu] using hc)
  handed := hpopped.trans h.handed

/-- The holder gives the lock up. -/
theorem Inv.unlock (h : Inv g s) (ht : s.holder = some t) {l : Link} {log : List (Return Task)}
    (hlink : l.Inv g) (hidle : l.consumer = .idle)
    (hpopped : l.popped = log.flatMap fun r => r.outcome.taken) :
    Inv g { s.goto t .out with link := l, log := log, holder := none } where
  link := hlink
  held u := by
    by_cases hu : u = t
    · subst hu
      simp [State.goto, Phase.inside]
    · have hout := h.held u
      rw [ht] at hout
      simpa [State.goto, hu, Ne.symm hu] using hout
  free _ := hidle
  fits _ hu := by cases hu
  calls u c hc := by
    by_cases hu : u = t
    · subst hu
      simp [State.goto, Phase.call] at hc
    · exact h.calls u c (by simpa [State.goto, hu] using hc)
  handed := hpopped

/-- **One step keeps it.** -/
theorem step_inv (g : Geometry) (s : State Task) (op : Op Task) (h : Inv g s) :
    Inv g (step g s op) := by
  have hcount : ∀ t c, (s.phase t).call = some c → 0 < c.count ∧ c.count ≤ maxRwCount := h.calls
  cases op with
  | call t count nonblock =>
      cases hp : s.phase t <;> simp only [step, hp]
      case out =>
        have hout : (s.phase t).inside = false := by rw [hp]; rfl
        split
        · exact h.ret hout _ rfl
        · next hpos =>
            refine h.goto hout rfl fun c hc => ?_
            cases hc
            exact ⟨Nat.pos_of_ne_zero hpos, Nat.min_le_right _ _⟩
      all_goals exact h
  | look t =>
      cases hp : s.phase t <;> simp only [step, hp]
      case called c =>
        have hout : (s.phase t).inside = false := by rw [hp]; rfl
        have hc : ∀ c', some c = some c' → 0 < c'.count ∧ c'.count ≤ maxRwCount :=
          fun c' he => hcount t c' (by rw [hp]; exact he)
        split
        · exact h.goto hout rfl hc
        · split
          · exact h.ret hout _ rfl
          · exact h.goto hout rfl hc
      all_goals exact h
  | wake t =>
      cases hp : s.phase t <;> simp only [step, hp]
      case asleep c =>
        have hout : (s.phase t).inside = false := by rw [hp]; rfl
        split
        · exact h.goto hout rfl fun c' he => hcount t c' (by rw [hp]; exact he)
        · exact h
      all_goals exact h
  | interrupt t =>
      cases hp : s.phase t <;> simp only [step, hp]
      case asleep | ready => exact h.ret (by rw [hp]; rfl) _ rfl
      all_goals exact h
  | lock t =>
      cases hp : s.phase t <;> simp only [step, hp]
      case ready c =>
        split
        · next hfree =>
            exact h.take hfree rfl trivial fun c' he => hcount t c' (by rw [hp]; exact he)
        · exact h
      all_goals exact h
  | writeLock t =>
      cases hp : s.phase t <;> simp only [step, hp]
      case out =>
        split
        · next hfree => exact h.take hfree rfl trivial fun _ he => by simp [Phase.call] at he
        · exact h
      all_goals exact h
  | count t =>
      cases hp : s.phase t <;> simp only [step, hp]
      case locked c =>
        have hheld : s.holder = some t := (h.held t).mp (by rw [hp]; rfl)
        have hidle : s.link.consumer = .idle := by
          have hfits := h.fits t hheld
          rw [hp] at hfits
          cases hc : s.link.consumer <;> simp_all [Fits]
        exact h.move hheld rfl (by rw [hp]; rfl) (by simp [Link.step, hidle, Link.popLoad])
          (by simp [Link.step, hidle, Link.popLoad, Fits])
      all_goals exact h
  | copy t =>
      cases hp : s.phase t <;> simp only [step, hp]
      case counted c =>
        have hheld : s.holder = some t := (h.held t).mp (by rw [hp]; rfl)
        have hfits := h.fits t hheld
        rw [hp] at hfits
        cases hc : s.link.consumer <;> simp only [hc, Fits] at hfits
        exact h.move hheld rfl (by rw [hp]; rfl) (by simp [Link.step, hc])
          (by simp [Link.step, hc, Fits])
      all_goals exact h
  | fault t =>
      cases hp : s.phase t <;> simp only [step, hp] <;> try exact h
      case copied c =>
        have hheld : s.holder = some t := (h.held t).mp (by rw [hp]; rfl)
        cases hc : s.link.consumer <;> try exact h
        case copied tail bs =>
          cases bs with
          | nil => exact h
          | cons b bs =>
              refine h.unlock hheld (Link.step_inv g .host .card s.link .popFault h.link) ?_ ?_
              · simp [State.ret, State.goto, State.move, Link.step, hc]
              · simp [State.ret, State.goto, State.move, Link.step, hc, h.handed, State.handed,
                  Outcome.taken]
  | finish t =>
      cases hp : s.phase t <;> simp only [step, hp] <;> try exact h
      case copied c =>
        have hheld : s.holder = some t := (h.held t).mp (by rw [hp]; rfl)
        cases hc : s.link.consumer <;> try exact h
        case copied tail bs =>
          refine h.unlock hheld (Link.step_inv g .host .card s.link .popPublish h.link) ?_ ?_
          · simp [State.ret, State.goto, State.move, Link.step, hc]
          · simp [State.ret, State.goto, State.move, Link.step, hc, h.handed, State.handed,
              Outcome.taken]
  | writeUnlock t =>
      cases hp : s.phase t <;> simp only [step, hp]
      case writing =>
        have hheld : s.holder = some t := (h.held t).mp (by rw [hp]; rfl)
        have hidle : s.link.consumer = .idle := by
          have hfits := h.fits t hheld
          rw [hp] at hfits
          cases hc : s.link.consumer <;> simp_all [Fits]
        exact h.unlock hheld h.link hidle h.handed
      all_goals exact h
  | host p =>
      have hsame : (s.link.step g .host .card p.action).consumer = s.link.consumer ∧
          (s.link.step g .host .card p.action).popped = s.link.popped := by
        cases p <;> simp only [Push.action, Link.step] <;> split <;>
          simp [Link.pushLoad]
      exact { h with
        link := Link.step_inv g .host .card s.link p.action h.link
        free := fun hnone => hsame.1.trans (h.free hnone)
        fits := fun t ht => by
          show Fits _ (s.link.step g .host .card p.action).consumer
          rw [hsame.1]
          exact h.fits t ht
        handed := hsame.2.trans h.handed }

end kept

omit [DecidableEq Task] in
theorem inv_start {g : Geometry} (st : Start g) : Inv g (start st : State Task) where
  link := st.inv
  held t := by simp [start, Phase.inside]
  free _ := rfl
  fits t ht := by cases ht
  calls t c hc := by simp [start, Phase.call] at hc
  handed := rfl

/-! ## what the reads come back with -/

/-- The read that has the lock and its count fixed. -/
def State.moving (s : State Task) : Option (Call × Nat) :=
  match s.holder with
  | none => none
  | some t => match s.phase t, s.link.consumer with
    | .counted c, .loaded _ n => some (c, n)
    | .copied c, .copied _ bs => some (c, bs.length)
    | _, _ => none

/-- A count of nothing for a read that was told to wait. -/
def Starved (c : Call) (n : Nat) : Prop := c.nonblock = false ∧ n = 0

/-- No read came back, or is on its way back, with a false end of file. -/
structure Good (s : State Task) : Prop where
  log : ∀ r ∈ s.log, ¬ r.FalseEof
  moving : ∀ c n, s.moving = some (c, n) → ¬ Starved c n

section effect

variable {g : Geometry} {s : State Task} {t : Task}

/-- A count is nothing only where the ring is empty. -/
theorem kncReadCount_eq_zero_iff {head tail : W32} {count : Nat} (hpos : 0 < count)
    (hmax : count ≤ maxRwCount) : kncReadCount head tail count = 0 ↔ head - tail = 0 := by
  have hmod : count % 2 ^ 32 = count := Nat.mod_eq_of_lt (by unfold maxRwCount at hmax; omega)
  have hzero : head - tail = 0 ↔ (head - tail).toNat = 0 := by
    simp [← BitVec.toNat_inj]
  rw [kncReadCount, hmod, hzero]
  unfold kncRpcBounce
  omega

/-- The holder of the lock does not see what the others do. -/
theorem moving_goto (h : Inv g s) (ht : (s.phase t).inside = false) (p : Phase) :
    (s.goto t p).moving = s.moving := by
  have hne := h.outside ht
  unfold State.moving
  cases hh : s.holder with
  | none => simp [State.goto, hh]
  | some u =>
      have hu : u ≠ t := fun he => hne (by rw [hh, he])
      simp [State.goto, hh, hu]

/-- What a step does to the reads that came back and to the one under way. -/
inductive Effect (s u : State Task) (op : Op Task) : Prop where
  | same (hlog : u.log = s.log) (hmoving : u.moving = s.moving) (hfinds : Finds s op)
  | back (r : Return Task) (hr : ¬ r.FalseEof) (hlog : u.log = s.log ++ [r])
      (hmoving : u.moving = s.moving) (hfinds : Finds s op)
  | counted (c : Call) (n : Nat) (hnone : s.moving = none) (hlog : u.log = s.log)
      (hmoving : u.moving = some (c, n)) (hfinds : Finds s op ↔ ¬ Starved c n)
  | ended (c : Call) (n : Nat) (r : Return Task) (hsome : s.moving = some (c, n))
      (hlog : u.log = s.log ++ [r]) (hmoving : u.moving = none) (hr : r.FalseEof ↔ Starved c n)
      (hfinds : Finds s op)

omit [DecidableEq Task] in
theorem Effect.good {u : State Task} {op : Op Task} (h : Effect s u op) :
    Good u ↔ Good s ∧ Finds s op := by
  cases h with
  | same hlog hmoving hfinds =>
      refine ⟨fun hu => ⟨⟨hlog ▸ hu.log, hmoving ▸ hu.moving⟩, hfinds⟩, fun hs => ⟨?_, ?_⟩⟩
      · exact hlog ▸ hs.1.log
      · exact hmoving ▸ hs.1.moving
  | back r hr hlog hmoving hfinds =>
      constructor
      · intro hu
        have hall := hu.log
        rw [hlog] at hall
        exact ⟨⟨fun q hq => hall q (List.mem_append_left _ hq), hmoving ▸ hu.moving⟩, hfinds⟩
      · rintro ⟨hs, -⟩
        refine ⟨fun q hq => ?_, hmoving ▸ hs.moving⟩
        rw [hlog, List.mem_append, List.mem_singleton] at hq
        obtain hq | rfl := hq
        · exact hs.log q hq
        · exact hr
  | counted c n hnone hlog hmoving hfinds =>
      constructor
      · intro hu
        exact ⟨⟨hlog ▸ hu.log, fun c' n' he => by simp [hnone] at he⟩,
          hfinds.mpr (hu.moving c n hmoving)⟩
      · rintro ⟨hs, hf⟩
        refine ⟨hlog ▸ hs.log, fun c' n' he => ?_⟩
        rw [hmoving] at he
        cases he
        exact hfinds.mp hf
  | ended c n r hsome hlog hmoving hr hfinds =>
      constructor
      · intro hu
        have hall := hu.log
        rw [hlog] at hall
        refine ⟨⟨fun q hq => hall q (List.mem_append_left _ hq), fun c' n' he => ?_⟩, hfinds⟩
        rw [hsome] at he
        cases he
        exact fun hst => hall r (by simp) (hr.mpr hst)
      · rintro ⟨hs, -⟩
        refine ⟨fun q hq => ?_, fun c' n' he => by simp [hmoving] at he⟩
        rw [hlog, List.mem_append, List.mem_singleton] at hq
        obtain hq | rfl := hq
        · exact hs.log q hq
        · exact fun hf => hs.moving c n hsome (hr.mp hf)

omit [DecidableEq Task] in
theorem effect_same {op : Op Task} (hfinds : Finds s op) : Effect s s op := .same rfl rfl hfinds

theorem step_effect (h : Inv g s) (op : Op Task) : Effect s (step g s op) op := by
  cases op with
  | call t count nonblock =>
      cases hp : s.phase t <;> simp only [step, hp]
      case out =>
        have hmove := moving_goto h (t := t) (by rw [hp]; rfl)
        split
        · next hzero =>
            exact .back _ (fun hf => by simp [hzero, Return.FalseEof] at hf) rfl (hmove .out)
              trivial
        · exact .same rfl (hmove _) trivial
      all_goals exact effect_same trivial
  | look t =>
      cases hp : s.phase t <;> simp only [step, hp]
      case called c =>
        have hmove := moving_goto h (t := t) (by rw [hp]; rfl)
        split
        · exact .same rfl (hmove _) trivial
        · split
          · exact .back _ (fun hf => by simp [Return.FalseEof] at hf) rfl (hmove .out) trivial
          · exact .same rfl (hmove _) trivial
      all_goals exact effect_same trivial
  | wake t =>
      cases hp : s.phase t <;> simp only [step, hp]
      case asleep c =>
        split
        · exact .same rfl (moving_goto h (by rw [hp]; rfl) _) trivial
        · exact effect_same trivial
      all_goals exact effect_same trivial
  | interrupt t =>
      cases hp : s.phase t <;> simp only [step, hp]
      case asleep | ready =>
        exact .back _ (fun hf => by simp [Return.FalseEof] at hf) rfl
          (moving_goto h (by rw [hp]; rfl) .out) trivial
      all_goals exact effect_same trivial
  | lock t =>
      cases hp : s.phase t <;> simp only [step, hp]
      case ready c =>
        split
        · next hfree => exact .same rfl (by simp [State.moving, State.goto, hfree]) trivial
        · exact effect_same trivial
      all_goals exact effect_same trivial
  | writeLock t =>
      cases hp : s.phase t <;> simp only [step, hp]
      case out =>
        split
        · next hfree => exact .same rfl (by simp [State.moving, State.goto, hfree]) trivial
        · exact effect_same trivial
      all_goals exact effect_same trivial
  | count t =>
      cases hp : s.phase t <;> simp only [step, hp]
      case locked c =>
        have hheld : s.holder = some t := (h.held t).mp (by rw [hp]; rfl)
        have hidle : s.link.consumer = .idle := by
          have hfits := h.fits t hheld
          rw [hp] at hfits
          cases hc : s.link.consumer <;> simp_all [Fits]
        obtain ⟨hpos, hmax⟩ := h.calls t c (by rw [hp]; rfl)
        refine .counted c (kncReadCount s.link.head s.link.rxTail c.count) ?_ rfl ?_ ?_
        · simp [State.moving, hheld, hp]
        · simp [State.moving, State.goto, State.move, hheld, Link.step, hidle, Link.popLoad,
            Link.ownTail]
        · simp [Finds, hp, Phase.counting, Starved, kncReadCount_eq_zero_iff hpos hmax,
            State.readable]
      all_goals exact effect_same fun c hc => by simp [hp, Phase.counting] at hc
  | copy t =>
      cases hp : s.phase t <;> simp only [step, hp]
      case counted c =>
        have hheld : s.holder = some t := (h.held t).mp (by rw [hp]; rfl)
        have hfits := h.fits t hheld
        rw [hp] at hfits
        cases hc : s.link.consumer <;> simp only [hc, Fits] at hfits
        case loaded tail n =>
          have hlen : (copyOut g.size tail s.link.data n).length = n := by
            simpa using length_copyOut g tail.toNat s.link.data n
          refine .same rfl ?_ trivial
          simp [State.moving, State.goto, State.move, hheld, hp, hc, Link.step, hlen]
      all_goals exact effect_same trivial
  | fault t =>
      cases hp : s.phase t <;> simp only [step, hp] <;> try exact effect_same trivial
      case copied c =>
        have hheld : s.holder = some t := (h.held t).mp (by rw [hp]; rfl)
        cases hc : s.link.consumer <;> try exact effect_same trivial
        case copied tail bs =>
          cases bs with
          | nil => exact effect_same trivial
          | cons b bs =>
              refine .ended c (b :: bs).length _ ?_ rfl (by simp [State.moving]) ?_ trivial
              · simp [State.moving, hheld, hp, hc]
              · simp [Return.FalseEof, Starved]
  | finish t =>
      cases hp : s.phase t <;> simp only [step, hp] <;> try exact effect_same trivial
      case copied c =>
        have hheld : s.holder = some t := (h.held t).mp (by rw [hp]; rfl)
        have hpos := (h.calls t c (by rw [hp]; rfl)).1
        cases hc : s.link.consumer <;> try exact effect_same trivial
        case copied tail bs =>
          refine .ended c bs.length _ ?_ rfl (by simp [State.moving]) ?_ trivial
          · simp [State.moving, hheld, hp, hc]
          · simp [Return.FalseEof, Starved, hpos]
  | writeUnlock t =>
      cases hp : s.phase t <;> simp only [step, hp]
      case writing =>
        have hheld : s.holder = some t := (h.held t).mp (by rw [hp]; rfl)
        exact .same rfl (by simp [State.moving, hheld, hp]) trivial
      all_goals exact effect_same trivial
  | host p =>
      have hsame : (s.link.step g .host .card p.action).consumer = s.link.consumer := by
        cases p <;> simp only [Push.action, Link.step] <;> split <;> simp [Link.pushLoad]
      refine .same rfl ?_ trivial
      show State.moving { s with link := s.link.step g .host .card p.action } = s.moving
      simp only [State.moving, hsame]

end effect

/-! ## runs -/

/-- **A blocking read comes back without bytes exactly where a reader that has
the lock finds the ring emptied by the others**; the bytes handed out are always
the stream from its start. -/
theorem reads_right_iff {g : Geometry} (st : Start g) (ops : List (Op Task)) :
    let u := run (step g) (start st) ops
    (Along (step g) Finds (start st) ops → ∀ r ∈ u.log, ¬ r.FalseEof) ∧
      (u.holder = none →
        ((∀ r ∈ u.log, ¬ r.FalseEof) ↔ Along (step g) Finds (start st) ops)) ∧
      ∃ left, u.link.pushed = u.handed ++ left := by
  intro u
  have hinv : Inv g u := run_inv_all (step_inv g) (inv_start st) ops
  have hgood : Good u ↔ Good (start st : State Task) ∧ Along (step g) Finds (start st) ops :=
    run_iff_along (C := fun _ _ => True) (fun s op hs _ => step_inv g s op hs)
      (fun s op hs _ => (step_effect hs op).good) (inv_start st)
      (along_of_forall (fun _ _ => trivial) _ _)
  have hstart : Good (start st : State Task) := ⟨nofun, nofun⟩
  refine ⟨fun h => (hgood.mpr ⟨hstart, h⟩).log, fun hfree => ⟨fun h => ?_, fun h => ?_⟩, ?_⟩
  · have hnone : u.moving = none := by simp [State.moving, hfree]
    exact (hgood.mp ⟨h, fun c n he => by simp [hnone] at he⟩).2
  · exact (hgood.mpr ⟨hstart, h⟩).log
  · obtain ⟨T, live, ht⟩ := hinv.link
    exact ⟨live, by rw [ht.pushed_eq, hinv.handed]⟩

/-- An empty ring of 4 KiB. -/
def emptyRing : Start ⟨4096, 12, by decide⟩ where
  head := 0
  tail := 0
  data _ := 0
  law := by decide

/-- A byte arrives. -/
def arrives : List (Op Bool) := [.host (.load [7]), .host .copy, .host .publish]

/-- A task that was told of data reads it. -/
def takes (t : Bool) : List (Op Bool) := [.lock t, .count t, .copy t, .finish t]

/-- One reader. -/
def aloneOps : List (Op Bool) := arrives ++ [.call true 100 false, .look true] ++ takes true

theorem along_aloneOps : Along (step ⟨4096, 12, by decide⟩) Finds (start emptyRing) aloneOps := by
  decide +kernel

theorem reads_right_iff_one :
    aloneOps.length = 9 ∧
      ∀ r ∈ (run (step ⟨4096, 12, by decide⟩) (start emptyRing) aloneOps).log, ¬ r.FalseEof :=
  ⟨by decide, (reads_right_iff emptyRing aloneOps).1 along_aloneOps⟩

/-- Two readers are told of one byte, and one after the other take it. -/
def racingOps : List (Op Bool) :=
  arrives ++ [.call true 100 false, .look true, .call false 100 false, .look false] ++
    takes true ++ takes false

/-- The second reader comes back with nothing. -/
theorem reads_false_eof :
    ¬ ∀ r ∈ (run (step ⟨4096, 12, by decide⟩) (start emptyRing) racingOps).log, ¬ r.FalseEof := by
  decide +kernel

end Phi.Dev.Readers
