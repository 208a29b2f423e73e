import Phi.Card.Agent
import Phi.Lib.Run

/-!
# Phi.Card.Sessions

Every session the agent takes up ends once.

`Settled` says what a history of whole sessions looks like, and `Within` what
one looks like that is not over.  Each loop of the agent keeps its own of the
two, through every early exit, and a frame that ends a session is sent only
where the loop is left.
-/

namespace Phi.Card

open Rpc Serve

/-! ## histories -/

/-- What a frame taken outside a session asks for. -/
inductive Kind where
  | exec
  | put
  | get
  | ping
  | stray
deriving DecidableEq

/-- The frames that a session of this kind ends with. -/
def Kind.ends : Kind → Msg → Bool
  | .exec, .exit _ | .exec, .error _ => true
  | .put, .exit _ | .put, .error _ => true
  | .get, .getEnd _ | .get, .error _ => true
  | .ping, .pong _ => true
  | .stray, .error _ => true
  | _, _ => false

/-- The frames it sends before. -/
def Kind.own : Kind → Msg → Bool
  | .exec, .stdout _ | .exec, .stderr _ => true
  | .get, .getData _ => true
  | _, _ => false

/-- The session that a frame opens, if any: the frames of a session that is
over, and `Stat`, open none. -/
def opens : Msg → Option Kind
  | .exec .. => some .exec
  | .putOpen .. => some .put
  | .get _ => some .get
  | .ping => some .ping
  | .stdin _ | .stdinEof | .putData _ | .putClose | .stat => none
  | _ => some .stray

/-- What happens in a session that is not over: its own frames go out, frames
come in, and each `Stat` is answered before anything else. -/
inductive Body (k : Kind) : List Happening → Prop where
  | nil : Body k []
  | own {body m} : Body k body → k.own m = true → Body k (body ++ [.sent m])
  | other {body m} : Body k body → m ≠ .stat → Body k (body ++ [.took m])
  | stat {body s} : Body k body → Body k (body ++ [.took .stat, .sent (.statReply s)])

/-- Whole sessions, one after the other, each with the one frame that ends it,
and each `Stat` between them answered before anything else. -/
inductive Settled : List Happening → Prop where
  | nil : Settled []
  | ignored {h m} : Settled h → opens m = none → m ≠ .stat → Settled (h ++ [.took m])
  | stat {h s} : Settled h → Settled (h ++ [.took .stat, .sent (.statReply s)])
  | session {h m k body t} : Settled h → opens m = some k → Body k body → k.ends t = true →
      Settled (h ++ .took m :: body ++ [.sent t])

/-- Whole sessions, and one that is not over. -/
def Within (k : Kind) (h : List Happening) : Prop :=
  ∃ before m body, h = before ++ .took m :: body ∧ Settled before ∧ opens m = some k ∧ Body k body

/-- A history that stopped anywhere, a `Stat` perhaps not answered. -/
def Stopped (h : List Happening) : Prop :=
  ∃ l, (Settled l ∨ ∃ k, Within k l) ∧ (h = l ∨ h = l ++ [.took .stat])

theorem Within.own {k : Kind} {h : List Happening} {m : Msg} (hw : Within k h)
    (hm : k.own m = true) : Within k (h ++ [.sent m]) := by
  obtain ⟨before, x, body, rfl, hsettled, hx, hbody⟩ := hw
  exact ⟨before, x, body ++ [.sent m], by simp, hsettled, hx, hbody.own hm⟩

theorem Within.other {k : Kind} {h : List Happening} {m : Msg} (hw : Within k h) (hm : m ≠ .stat) :
    Within k (h ++ [.took m]) := by
  obtain ⟨before, x, body, rfl, hsettled, hx, hbody⟩ := hw
  exact ⟨before, x, body ++ [.took m], by simp, hsettled, hx, hbody.other hm⟩

theorem Within.stat {k : Kind} {h : List Happening} {s : Stat} (hw : Within k h) :
    Within k (h ++ [.took .stat] ++ [.sent (.statReply s)]) := by
  obtain ⟨before, x, body, rfl, hsettled, hx, hbody⟩ := hw
  exact ⟨before, x, body ++ [.took .stat, .sent (.statReply s)], by simp, hsettled, hx, hbody.stat⟩

theorem Within.ends {k : Kind} {h : List Happening} {t : Msg} (hw : Within k h)
    (ht : k.ends t = true) : Settled (h ++ [.sent t]) := by
  obtain ⟨before, x, body, rfl, hsettled, hx, hbody⟩ := hw
  exact hsettled.session hx hbody ht

theorem Settled.opened {k : Kind} {h : List Happening} {m : Msg} (hs : Settled h)
    (hm : opens m = some k) : Within k (h ++ [.took m]) :=
  ⟨h, m, [], rfl, hs, hm, .nil⟩

theorem Settled.answered {h : List Happening} {s : Stat} (hs : Settled h) :
    Settled (h ++ [.took .stat] ++ [.sent (.statReply s)]) := by
  rw [List.append_assoc]
  exact hs.stat

theorem Settled.stopped {h : List Happening} (hs : Settled h) : Stopped h :=
  ⟨h, .inl hs, .inl rfl⟩

theorem Within.stopped {k : Kind} {h : List Happening} (hw : Within k h) : Stopped h :=
  ⟨h, .inr ⟨k, hw⟩, .inl rfl⟩

/-! ## samples asked for and sent -/

/-- A `Stat` taken. -/
def asks : Happening → Bool
  | .took .stat => true
  | _ => false

/-- A `StatReply` sent. -/
def answers : Happening → Bool
  | .sent (.statReply _) => true
  | _ => false

@[simp] theorem asks_sent (m : Msg) : asks (.sent m) = false := rfl

@[simp] theorem answers_took (m : Msg) : answers (.took m) = false := rfl

theorem Kind.own_answers {k : Kind} {m : Msg} (h : k.own m = true) : answers (.sent m) = false := by
  cases k <;> cases m <;> first | rfl | cases h

theorem Kind.ends_answers {k : Kind} {m : Msg} (h : k.ends m = true) :
    answers (.sent m) = false := by
  cases k <;> cases m <;> first | rfl | cases h

theorem asks_took {m : Msg} (h : m ≠ .stat) : asks (.took m) = false := by
  cases m <;> first | rfl | exact absurd rfl h

theorem opens_ne_stat {m : Msg} {k : Kind} (h : opens m = some k) : m ≠ .stat := by
  rintro rfl
  cases h

/-- A `Stat` and its reply. -/
theorem balanced_stat (s : Stat) :
    [Happening.took .stat, .sent (.statReply s)].countP asks =
      [Happening.took .stat, .sent (.statReply s)].countP answers := rfl

theorem Body.balanced {k : Kind} {body : List Happening} (h : Body k body) :
    body.countP asks = body.countP answers := by
  induction h with
  | nil => rfl
  | own _ hm ih => simp [ih, Kind.own_answers hm]
  | other _ hm ih => simp [ih, asks_took hm]
  | stat _ ih => rw [List.countP_append, List.countP_append, ih, balanced_stat]

/-- Outside a session each `Stat` has its reply. -/
theorem Settled.balanced {h : List Happening} (hs : Settled h) :
    h.countP asks = h.countP answers := by
  induction hs with
  | nil => rfl
  | ignored _ _ hm ih => simp [ih, asks_took hm]
  | stat _ ih => rw [List.countP_append, List.countP_append, ih, balanced_stat]
  | session _ hm hbody ht ih =>
      simp [ih, asks_took (opens_ne_stat hm), hbody.balanced,
        Kind.ends_answers ht]

/-- Inside one too. -/
theorem Within.balanced {k : Kind} {h : List Happening} (hw : Within k h) :
    h.countP asks = h.countP answers := by
  obtain ⟨before, m, body, rfl, hsettled, hm, hbody⟩ := hw
  simp [asks_took (opens_ne_stat hm), hsettled.balanced, hbody.balanced]

/-! ## what each step of a turn does -/

namespace Agent

/-- The agent ended itself, or goes on with this in its loop and its history. -/
def Goes (p : Phase → Prop) (P : List Happening → Prop) (a : Agent) : Prop :=
  a.phase = .dead ∧ Stopped a.history ∨ a.phase ≠ .dead ∧ p a.phase ∧ P a.history

section

variable {env : Env} {p q : Phase → Prop} {P Q : List Happening → Prop} {a : Agent}

theorem Goes.mono (h : a.Goes p P) (hp : ∀ x, p x → q x) (hP : ∀ l, P l → Q l) : a.Goes q Q := by
  obtain hdead | ⟨halive, h1, h2⟩ := h
  · exact .inl hdead
  · exact .inr ⟨halive, hp _ h1, hP _ h2⟩

theorem Goes.die (h : a.Goes p P) (hstop : ∀ l, P l → Stopped l) : a.die.Goes q Q := by
  obtain ⟨-, hdead⟩ | ⟨-, -, h2⟩ := h
  · exact .inl ⟨rfl, hdead⟩
  · exact .inl ⟨rfl, hstop _ h2⟩

/-- A frame is sent where the history may stop, and may go on with it. -/
theorem Goes.send {m : Msg} (h : a.Goes p P) (hstop : ∀ l, P l → Stopped l)
    (hQ : ∀ l, P l → Q (l ++ [.sent m])) : (a.send env m).Goes p Q := by
  have hdie : a.die.Goes p Q := h.die hstop
  obtain ⟨hphase, hdead⟩ | ⟨halive, h1, h2⟩ := h
  · unfold Agent.send
    rw [hphase]
    exact .inl ⟨hphase, hdead⟩
  · unfold Agent.send
    split
    · next hphase => exact absurd hphase halive
    · split
      · exact .inr ⟨halive, h1, hQ _ h2⟩
      · exact hdie

theorem Goes.enter {x : Phase} (h : a.Goes p P) (hx : x ≠ .dead) (hqx : q x) :
    (a.enter x).Goes q P := by
  obtain ⟨hphase, hdead⟩ | ⟨halive, -, h2⟩ := h
  · unfold Agent.enter
    rw [hphase]
    exact .inl ⟨hphase, hdead⟩
  · unfold Agent.enter
    split
    · next hphase => exact absurd hphase halive
    · exact .inr ⟨hx, hqx, h2⟩

theorem Goes.fill {r : Read} (h : a.Goes p P) (hstop : ∀ l, P l → Stopped l) :
    (a.fill r).Goes p P := by
  have hdie : a.die.Goes p P := h.die hstop
  unfold Agent.fill
  split
  · exact h
  · exact h
  · exact hdie

/-- A frame taken is the last of the history. -/
def Took (P : List Happening → Prop) (m : Msg) (h : List Happening) : Prop :=
  ∃ l, h = l ++ [.took m] ∧ P l

/-- A frame was looked for: none found, or the frame is the last of the history. -/
def Takes (p : Phase → Prop) (P : List Happening → Prop) (x : Agent × Option Msg) : Prop :=
  (∃ b, x = (b, none) ∧ b.Goes p P) ∨ ∃ b m, x = (b, some m) ∧ b.Goes p (Took P m)

theorem Goes.nextFrame (h : a.Goes p P) : Takes p P a.nextFrame := by
  unfold Takes Agent.nextFrame
  obtain ⟨hphase, hdead⟩ | ⟨halive, h1, h2⟩ := h
  · rw [hphase]
    exact .inl ⟨a, rfl, .inl ⟨hphase, hdead⟩⟩
  · split
    · next hphase => exact absurd hphase halive
    · dsimp only
      split
      · next m _ => exact .inr ⟨_, m, rfl, .inr ⟨halive, h1, a.history, rfl, h2⟩⟩
      · exact .inl ⟨_, rfl, .inr ⟨halive, h1, h2⟩⟩

theorem Goes.nextBlocking {r : Read} (h : a.Goes p P) (hstop : ∀ l, P l → Stopped l) :
    Takes p P (a.nextBlocking r) := by
  unfold Agent.nextBlocking
  obtain ⟨b, heq, hb⟩ | ⟨b, m, heq, hb⟩ := h.nextFrame
  · rw [heq]
    exact (hb.fill hstop).nextFrame
  · rw [heq]
    exact .inr ⟨b, m, rfl, hb⟩

theorem Goes.nextReady {ready : Bool} {r : Read} (h : a.Goes p P)
    (hstop : ∀ l, P l → Stopped l) : Takes p P (a.nextReady ready r) := by
  unfold Agent.nextReady
  obtain ⟨b, heq, hb⟩ | ⟨b, m, heq, hb⟩ := h.nextFrame
  · rw [heq]
    dsimp only
    split
    · exact (hb.fill hstop).nextFrame
    · exact .inl ⟨b, rfl, hb⟩
  · rw [heq]
    exact .inr ⟨b, m, rfl, hb⟩

/-- The history may stop with the frame a session has just taken. -/
theorem Took.stopped_within {k : Kind} {m : Msg} (l : List Happening)
    (h : Took (Within k) m l) : Stopped l := by
  obtain ⟨before, rfl, hw⟩ := h
  by_cases hm : m = .stat
  · exact ⟨before, .inr ⟨k, hw⟩, .inr (by rw [hm])⟩
  · exact (hw.other hm).stopped

/-- A `Stat` in a session is answered. -/
theorem Goes.statReply_within {k : Kind} (h : a.Goes p (Took (Within k) .stat)) :
    (a.statReply env).Goes p (Within k) := by
  refine h.send Took.stopped_within ?_
  rintro _ ⟨before, rfl, hw⟩
  exact hw.stat

/-- Any other frame may be dropped. -/
theorem Goes.dropped {k : Kind} {m : Msg} (h : a.Goes p (Took (Within k) m)) (hm : m ≠ .stat) :
    a.Goes p (Within k) := by
  refine h.mono (fun _ hx => hx) ?_
  rintro _ ⟨before, rfl, hw⟩
  exact hw.other hm

/-- The frame that ends a session leaves its loop. -/
theorem Goes.finish {k : Kind} {t : Msg} (h : a.Goes p (Within k)) (ht : k.ends t = true) :
    ((a.send env t).enter .idle).Goes (· = .idle) Settled :=
  (h.send (Q := Settled) (fun _ => Within.stopped) fun _ hw => hw.ends ht).enter
    Phase.noConfusion rfl

/-! ## the loops -/

/-- The agent serves a command. -/
def IsExec (x : Phase) : Prop := ∃ c, x = .exec c

theorem Goes.onCommand {f : Command → Command} (h : a.Goes IsExec P) :
    (a.onCommand f).Goes IsExec P := by
  unfold Agent.onCommand
  obtain ⟨hphase, hdead⟩ | ⟨-, ⟨x, hx⟩, h2⟩ := h
  · rw [hphase]
    exact .inl ⟨hphase, hdead⟩
  · rw [hx]
    exact .inr ⟨Phase.noConfusion, ⟨f x, rfl⟩, h2⟩

theorem Goes.pumpRead {o : Output} {r : Read} (h : a.Goes IsExec (Within .exec)) :
    (a.pumpRead env o r).Goes IsExec (Within .exec) := by
  cases r with
  | data bytes =>
      exact h.send (fun _ => Within.stopped) fun _ hw => hw.own (by cases o <;> rfl)
  | eof => exact h.onCommand
  | failed errno =>
      show Goes _ _ (if _ then _ else _)
      split
      · exact h
      · exact h.onCommand

theorem Goes.pumpReady {o : Output} {ready : Bool} {r : Read} (h : a.Goes IsExec (Within .exec)) :
    (a.pumpReady env o ready r).Goes IsExec (Within .exec) := by
  unfold Agent.pumpReady
  split
  · split
    · exact h.pumpRead
    · exact h
  · exact h

theorem Goes.pumpPoll {c : Pump} (h : a.Goes IsExec (Within .exec)) :
    (a.pumpPoll env c).Goes IsExec (Within .exec) := h.pumpReady.pumpReady

theorem Goes.execFrame {m : Msg} (h : a.Goes IsExec (Took (Within .exec) m)) :
    (a.execFrame env m).Goes IsExec (Within .exec) := by
  cases m with
  | stat => exact h.statReply_within
  | stdin data => exact (h.dropped Msg.noConfusion).onCommand
  | stdinEof => exact (h.dropped Msg.noConfusion).onCommand
  | _ => exact h.dropped Msg.noConfusion

theorem Goes.drain {ps : List (Nat × Pump)} (h : a.Goes IsExec (Within .exec)) :
    (a.drain env ps).Goes IsExec (Within .exec) := by
  induction ps generalizing a with
  | nil => exact h
  | cons x ps ih =>
      unfold Agent.drain
      split
      · exact h
      · exact ih h.pumpPoll

theorem Goes.execDone {c : Calls} {status : Nat} (h : a.Goes IsExec (Within .exec)) :
    (a.execDone env c status).Goes (· = .idle) Settled := h.onCommand.drain.finish rfl

theorem Goes.execPoll {c : Calls} (h : a.Goes IsExec (Within .exec)) :
    (a.execPoll env c).Goes IsExec (Within .exec) := by
  have hread : ∀ {b : Agent} {ready : Bool}, b.Goes IsExec (Within .exec) →
      (if ready then b.fill c.device else b).Goes IsExec (Within .exec) := by
    intro b ready hb
    split
    · exact hb.fill fun _ => Within.stopped
    · exact hb
  unfold Agent.execPoll
  dsimp only
  obtain ⟨b, heq, hb⟩ | ⟨b, m, heq, hb⟩ := (hread h.pumpPoll).nextFrame
  · rw [heq]
    exact hb
  · rw [heq]
    exact hb.execFrame

/-- The agent serves a put. -/
def IsPut (x : Phase) : Prop := ∃ path, x = .put path

/-- The agent serves a get. -/
def IsGet (x : Phase) : Prop := ∃ path size, x = .get path size

/-- What the loop of each phase keeps. -/
def Kept (a : Agent) : Prop :=
  match a.phase with
  | .idle => Settled a.history
  | .exec _ => Within .exec a.history
  | .put _ => Within .put a.history
  | .get _ _ => Within .get a.history
  | .dead => Stopped a.history

theorem Kept.idle (h : a.Goes (· = .idle) Settled) : a.Kept := by
  unfold Kept
  obtain ⟨hphase, hh⟩ | ⟨-, hphase, hh⟩ := h
  · rwa [hphase]
  · rwa [hphase]

theorem Kept.exec (h : a.Goes IsExec (Within .exec)) : a.Kept := by
  unfold Kept
  obtain ⟨hphase, hh⟩ | ⟨-, ⟨x, hphase⟩, hh⟩ := h
  · rwa [hphase]
  · rwa [hphase]

theorem Kept.put (h : a.Goes IsPut (Within .put)) : a.Kept := by
  unfold Kept
  obtain ⟨hphase, hh⟩ | ⟨-, ⟨path, hphase⟩, hh⟩ := h
  · rwa [hphase]
  · rwa [hphase]

theorem Kept.get (h : a.Goes IsGet (Within .get)) : a.Kept := by
  unfold Kept
  obtain ⟨hphase, hh⟩ | ⟨-, ⟨path, size, hphase⟩, hh⟩ := h
  · rwa [hphase]
  · rwa [hphase]

theorem Goes.execTurn {c : Calls} (h : a.Goes IsExec (Within .exec)) : (a.execTurn env c).Kept := by
  unfold Agent.execTurn
  split
  · exact .exec (h.die fun _ => Within.stopped)
  · exact .idle h.execDone
  · refine .exec ?_
    obtain ⟨b, heq, hb⟩ | ⟨b, m, heq, hb⟩ := h.onCommand.nextFrame
    · rw [heq]
      exact hb.execPoll
    · rw [heq]
      exact hb.execFrame.pumpPoll

theorem Goes.putFrame {c : Calls} {path : String} {m : Msg}
    (h : a.Goes IsPut (Took (Within .put) m)) : (a.putFrame env c path m).Kept := by
  cases m with
  | stat => exact .put h.statReply_within
  | putData data =>
      have hdrop := h.dropped (m := .putData data) Msg.noConfusion
      unfold Agent.putFrame
      dsimp only
      split
      · exact .put hdrop
      · exact .idle (hdrop.finish rfl)
  | putClose =>
      have hdrop := h.dropped (m := .putClose) Msg.noConfusion
      unfold Agent.putFrame
      dsimp only
      split
      · exact .idle (hdrop.finish rfl)
      · exact .idle (hdrop.finish rfl)
  | _ => exact .put (h.dropped Msg.noConfusion)

theorem Goes.putTurn {c : Calls} {path : String}
    (h : a.Goes IsPut (Within .put)) : (a.putTurn env c path).Kept := by
  unfold Agent.putTurn
  obtain ⟨b, heq, hb⟩ | ⟨b, m, heq, hb⟩ := h.nextBlocking fun _ => Within.stopped
  · rw [heq]
    exact .put hb
  · rw [heq]
    exact hb.putFrame

theorem Goes.getFrame {m : Msg} (h : a.Goes p (Took (Within .get) m)) :
    (a.getFrame env m).Goes p (Within .get) := by
  cases m with
  | stat => exact h.statReply_within
  | _ => exact h.dropped Msg.noConfusion

theorem Goes.getChunk {r : Read} {path : String} {size : UInt64}
    (h : a.Goes IsGet (Within .get)) : (a.getChunk env r path size).Kept := by
  cases r with
  | data bytes =>
      have hsent : (a.send env (.getData bytes)).Goes _ (Within .get) :=
        h.send (fun _ => Within.stopped) fun _ hw => hw.own rfl
      exact .get (hsent.enter Phase.noConfusion ⟨_, _, rfl⟩)
  | eof => exact .idle (h.finish rfl)
  | failed errno =>
      show Kept (if _ then _ else _)
      split
      · exact .get (h)
      · exact .idle (h.finish rfl)

theorem Goes.getTurn {c : Calls} {path : String} {size : UInt64}
    (h : a.Goes IsGet (Within .get)) :
    (a.getTurn env c path size).Kept := by
  unfold Agent.getTurn
  obtain ⟨b, heq, hb⟩ | ⟨b, m, heq, hb⟩ := h.nextReady fun _ => Within.stopped
  · rw [heq]
    exact hb.getChunk
  · rw [heq]
    exact .get (hb.getFrame)

/-! ## outside a session -/

/-- What a frame taken outside a session leaves. -/
theorem Took.stopped_settled {m : Msg} (l : List Happening) (h : Took Settled m l) : Stopped l := by
  obtain ⟨before, rfl, hs⟩ := h
  by_cases hm : m = .stat
  · exact ⟨before, .inl hs, .inr (by rw [hm])⟩
  · cases hopens : opens m with
    | none => exact (hs.ignored hopens hm).stopped
    | some k => exact (hs.opened hopens).stopped

/-- A frame that opens a session puts the agent inside it. -/
theorem Goes.opened {k : Kind} {m : Msg} (h : a.Goes p (Took Settled m)) (hm : opens m = some k) :
    a.Goes p (Within k) := by
  refine h.mono (fun _ hx => hx) ?_
  rintro _ ⟨before, rfl, hs⟩
  exact hs.opened hm

/-- A session over at once. -/
theorem Goes.refuse {k : Kind} {t : Msg} (h : a.Goes p (Within k)) (ht : k.ends t = true) :
    (a.send env t).Goes p Settled :=
  h.send (fun _ => Within.stopped) fun _ hw => hw.ends ht

theorem Goes.runExec {c : Calls} {argv : List String} {vars : List (String × String)}
    {cwd : Option String} (h : a.Goes (· = .idle) (Within .exec)) :
    (a.runExec env c argv vars cwd).Kept := by
  unfold Agent.runExec
  split
  · exact .idle (h.refuse rfl)
  · split
    · exact .idle (h.refuse rfl)
    · split
      · exact .idle (h.refuse rfl)
      · exact .exec ((h.enter Phase.noConfusion ⟨_, rfl⟩))

theorem Goes.runPut {c : Calls} {path : String} (h : a.Goes (· = .idle) (Within .put)) :
    (a.runPut env c path).Kept := by
  unfold Agent.runPut
  split
  · exact .idle (h.refuse rfl)
  · split
    · exact .idle (h.refuse rfl)
    · exact .put ((h.enter Phase.noConfusion ⟨_, rfl⟩))

theorem Goes.runGet {c : Calls} {path : String} (h : a.Goes (· = .idle) (Within .get)) :
    (a.runGet env c path).Kept := by
  unfold Agent.runGet
  split
  · exact .idle (h.refuse rfl)
  · split
    · exact .idle (h.refuse rfl)
    · exact .get ((h.enter Phase.noConfusion ⟨_, _, rfl⟩))

/-- A frame of a session that is over is passed by. -/
theorem Goes.ignored {m : Msg} (h : a.Goes p (Took Settled m)) (hm : opens m = none)
    (hne : m ≠ .stat) : a.Goes p Settled := by
  refine h.mono (fun _ hx => hx) ?_
  rintro _ ⟨before, rfl, hs⟩
  exact hs.ignored hm hne

theorem Goes.mainFrame {c : Calls} {m : Msg} (h : a.Goes (· = .idle) (Took Settled m)) :
    (a.mainFrame env c m).Kept := by
  cases m with
  | exec argv vars cwd => exact (h.opened rfl).runExec
  | putOpen path mode => exact (h.opened rfl).runPut
  | get path => exact (h.opened rfl).runGet
  | ping => exact .idle ((h.opened rfl).refuse rfl)
  | stat =>
      refine .idle (h.send Took.stopped_settled ?_)
      rintro _ ⟨before, rfl, hs⟩
      exact hs.answered
  | stdin | stdinEof | putData | putClose =>
      exact .idle (h.ignored rfl Msg.noConfusion)
  | _ => exact .idle ((h.opened (k := .stray) rfl).refuse rfl)

theorem Goes.mainTurn {c : Calls} (h : a.Goes (· = .idle) Settled) : (a.mainTurn env c).Kept := by
  unfold Agent.mainTurn
  obtain ⟨b, heq, hb⟩ | ⟨b, m, heq, hb⟩ := h.nextBlocking fun _ => Settled.stopped
  · rw [heq]
    exact .idle hb
  · rw [heq]
    exact hb.mainFrame

/-! ## every turn, every run -/

/-- **Step lemma**: a turn keeps what the loop of its phase keeps. -/
theorem Kept.turn {c : Calls} (h : a.Kept) : (a.turn env c).Kept := by
  have hkept := h
  unfold Kept at h
  unfold Agent.turn
  split
  · next hphase =>
      rw [hphase] at h
      exact Goes.mainTurn (.inr ⟨by simp [hphase], hphase, h⟩)
  · next x hphase =>
      rw [hphase] at h
      exact Goes.execTurn (.inr ⟨by simp [hphase], ⟨x, hphase⟩, h⟩)
  · next path hphase =>
      rw [hphase] at h
      exact Goes.putTurn (.inr ⟨by simp [hphase], ⟨path, hphase⟩, h⟩)
  · next path size hphase =>
      rw [hphase] at h
      exact Goes.getTurn (.inr ⟨by simp [hphase], ⟨path, size, hphase⟩, h⟩)
  · exact hkept

theorem kept_run (cells : Nat → UInt8) (cs : List Calls) :
    (run (turn env) (start cells) cs).Kept :=
  run_inv_all (fun _ _ h => h.turn) .nil cs

/-! ## what ends a session -/

/-- The session the agent is in is over in this turn: its command has exited,
its last frame has come or a write has failed, its file is read or unreadable. -/
def EndsIn (a : Agent) (c : Calls) : Prop :=
  match a.phase with
  | .exec _ => ∃ status, c.waited = .exited status
  | .put _ => ∃ b m, a.nextBlocking c.device = (b, some m) ∧
      (m = .putClose ∨ (∃ data, m = .putData data) ∧ c.write ≠ none)
  | .get _ _ => ∃ b, a.nextReady c.deviceReady c.device = (b, none) ∧
      (c.chunk = .eof ∨ ∃ errno, errno ≠ eintr ∧ c.chunk = .failed errno)
  | _ => False

theorem phase_enter (a : Agent) (x : Phase) :
    (a.enter x).phase = x ∨ (a.enter x).phase = .dead := by
  unfold enter
  split
  · next h => exact .inr h
  · exact .inl rfl

theorem phase_turn_of_endsIn {c : Calls} (h : a.EndsIn c) :
    (a.turn env c).phase = .idle ∨ (a.turn env c).phase = .dead := by
  unfold EndsIn at h
  unfold turn
  split at h
  · next x hphase =>
      obtain ⟨status, hwaited⟩ := h
      rw [hphase]
      dsimp only
      unfold execTurn
      rw [hwaited]
      exact phase_enter _ _
  · next path hphase =>
      obtain ⟨b, m, hnext, hm⟩ := h
      rw [hphase]
      dsimp only
      unfold putTurn
      rw [hnext]
      obtain rfl | ⟨⟨data, rfl⟩, hwrite⟩ := hm
      · unfold putFrame
        dsimp only
        split <;> exact phase_enter _ _
      · obtain ⟨e, he⟩ := Option.ne_none_iff_exists'.mp hwrite
        unfold putFrame
        simp only [he]
        exact phase_enter _ _
  · next path size hphase =>
      obtain ⟨b, hnext, hchunk⟩ := h
      rw [hphase]
      dsimp only
      unfold getTurn
      rw [hnext]
      obtain heof | ⟨errno, hne, hfailed⟩ := hchunk
      · simp only [heof]
        exact phase_enter _ _
      · simp only [hfailed, getChunk, if_neg hne]
        exact phase_enter _ _
  · cases h

end

/-- **Main result**: whatever arrives and whatever the system calls return, the
history of the agent is one of whole sessions, each with the one frame that
ends it, and of one session at the end that is not over while the agent is in
its loop; each `Stat` is answered before anything else happens; and a session
is over in the turn that ends it.  Only an agent that ended itself may leave a
session without its end. -/
theorem sessions_end_once (env : Env) (cells : Nat → UInt8) (cs : List Calls) :
    let a := run (turn env) (start cells) cs
    a.Kept ∧ (a.phase ≠ .dead → a.history.countP asks = a.history.countP answers) ∧
      ∀ c, a.EndsIn c → (a.turn env c).phase = .idle ∨ (a.turn env c).phase = .dead := by
  intro a
  have hkept : a.Kept := kept_run cells cs
  refine ⟨hkept, ?_, fun c => phase_turn_of_endsIn⟩
  intro halive
  unfold Kept at hkept
  split at hkept
  · exact hkept.balanced
  · exact hkept.balanced
  · exact hkept.balanced
  · exact hkept.balanced
  · next hdead => exact absurd hdead halive

/-- Calls of a turn in which nothing fails and nothing arrives. -/
def quiet : Calls where
  device := .data []
  deviceReady := false
  pipes := none
  fork := none
  execve := none
  waited := .running
  writes := []
  pump := ⟨false, false, .eof, .eof⟩
  drain := []
  opened := none
  chmod := none
  write := none
  fsync := none
  chunk := .failed eintr

/-- A device that takes every frame, on a card that reads nothing. -/
def calm : Env where
  works _ := true
  strerror _ := ""
  sample _ := ⟨0, [], ⟨0, 0, 0, 0, 0, 0⟩, (0, 0, 0), 0, 0, [], 0, 0, 0, [], [], [], 0, 0⟩

/-- `Exec` of the program `a`. -/
def execA : List UInt8 := [10, 0, 0, 0, 1, 1, 0, 1, 0, 97, 0, 0, 0, 0]

example : execA = (Msg.exec ["a"] [] none).encode := by decide

/-- A command whose `wait4` fails is never ended: the agent ends itself. -/
theorem session_abandoned :
    let a := run (turn calm) (start fun _ => 0)
      [{ quiet with device := .data execA }, { quiet with waited := .failed 10 }]
    a.phase = .dead ∧ a.history = [.took (.exec ["a"] [] none)] := ⟨rfl, rfl⟩

end Agent

end Phi.Card
