import Phi.Card.Output
import Phi.Card.Taking

/-!
# Phi.Card.Failing

The output of a command whose agent may end itself.

A device that fails ends the agent in the middle of a turn, and the bytes it
had just read from a pipe are gone.  What it sent until then is still the start
of each stream (`Outputs`).
-/

namespace Phi.Card

open Rpc Serve

/-- A frame of the command, or a reply to `Stat`. -/
def OfCommand (m : Msg) : Prop :=
  Kind.exec.own m = true ∧ m.body.length ≤ maxFrame ∨ answers (.sent m) = true

def Frames (body : List Happening) : Prop := ∀ m, .sent m ∈ body → OfCommand m

/-- Since `h0` no stream was sent past what was written. -/
def Agent.Bounded (h0 : List Happening) (written : Pipes) (a : Agent) : Prop :=
  ∃ body, a.history = h0 ++ body ∧ Frames body ∧ ∀ o, streamOf o body <+: written o

structure Agent.Outputs (h0 : List Happening) (written left : Pipes) (a : Agent) : Prop where
  streams : a.Streams h0 written left
  bounded : a.Bounded h0 written

/-- What happened since; nothing when the agent ended itself over it. -/
def Agent.Grows (a b : Agent) : Prop :=
  ∃ hs, b.history = a.history ++ hs ∧ Frames hs ∧ (b.phase = .dead → hs = [])

section outputs

variable {env : Env} {h0 : List Happening} {written left left' : Pipes} {a b : Agent}

theorem frames_nil : Frames [] := by simp [Frames]

theorem Agent.Grows.same (h : b.history = a.history) : a.Grows b :=
  ⟨[], by rw [h, List.append_nil], frames_nil, fun _ => rfl⟩

/-- An agent that lives has sent what is no longer left; one that ended itself has
sent nothing since. -/
theorem Agent.Outputs.grows (h : a.Outputs h0 written left) (hb : b.Streams h0 written left')
    (hgrows : a.Grows b) : b.Outputs h0 written left' := by
  refine ⟨hb, ?_⟩
  obtain ⟨hs, hhist, hframes, hdead⟩ := hgrows
  obtain ⟨body, hold, hall, hpre⟩ := h.bounded
  refine ⟨body ++ hs, by rw [hhist, hold, List.append_assoc], fun m hm => ?_, ?_⟩
  · obtain hm | hm := List.mem_append.mp hm
    · exact hall m hm
    · exact hframes m hm
  · obtain hphase | ⟨x, body', -, hhist', hsent, -⟩ := hb
    · rw [hdead hphase, List.append_nil]
      exact hpre
    · rw [hhist, hold, List.append_assoc] at hhist'
      rw [List.append_cancel_left hhist']
      exact fun o => ⟨left' o, hsent o⟩

theorem Agent.grows_send {m : Msg} (h : OfCommand m) : a.Grows (a.send env m) := by
  obtain ⟨hhist, hphase, halive⟩ | ⟨hhist, -⟩ := Agent.send_cases env m a
  · refine ⟨[.sent m], hhist, fun m' hm' => ?_, fun hdead => ?_⟩
    · cases List.mem_singleton.mp hm'
      exact h
    · exact absurd (hphase.symm.trans hdead) halive
  · exact .same hhist

theorem Agent.grows_onCommand (f : Command → Command) : a.Grows (a.onCommand f) := by
  refine .same ?_
  unfold Agent.onCommand
  split <;> rfl

theorem length_readPipe {n : Nat} {left bytes : List UInt8} (h : readPipe n left = .data bytes) :
    bytes.length ≤ chunkBytes := by
  unfold readPipe at h
  split at h
  · cases h
  · split at h
    · cases h
    · cases h
      rw [List.length_take]
      exact Nat.le_trans (Nat.min_le_left _ _) (Nat.min_le_right _ _)

theorem ofCommand_message (o : Output) {bytes : List UInt8} (h : bytes.length ≤ chunkBytes) :
    OfCommand (o.message bytes) := by
  have hfit : 1 + bytes.length ≤ maxFrame :=
    Nat.le_trans (Nat.add_le_add_left h 1) (by decide)
  rw [Nat.add_comm] at hfit
  cases o with
  | out => exact .inl ⟨rfl, hfit⟩
  | err => exact .inl ⟨rfl, hfit⟩

theorem Agent.grows_pumpReady (o : Output) (ready : Bool) (n : Nat) (left : List UInt8) :
    a.Grows (a.pumpReady env o ready (readPipe n left)) := by
  unfold Agent.pumpReady
  split
  · split
    · unfold Agent.pumpRead
      split
      · next bytes hread => exact Agent.grows_send (ofCommand_message o (length_readPipe hread))
      · exact Agent.grows_onCommand _
      · split
        · exact .same rfl
        · exact Agent.grows_onCommand _
    · exact .same rfl
  · exact .same rfl

theorem Agent.grows_nextFrame : a.Grows a.nextFrame.1 := by
  obtain ⟨-, hhist, -⟩ | ⟨m, -, hhist, -, halive⟩ := Agent.looked_nextFrame a
  · exact .same hhist
  · exact ⟨[.took m], hhist, by simp [Frames], fun hdead => absurd hdead halive⟩

theorem Agent.Outputs.pumpPoll (h : a.Outputs h0 written left) (env : Env) (l : Look) :
    (a.pumpPoll env (Pipes.pump l left)).Outputs h0 written (Pipes.after l left) := by
  have hone : ∀ (o : Output) {b : Agent} {left : Pipes}, b.Outputs h0 written left →
      (b.pumpReady env o (l.ready o) (readPipe (l.size o) (left o))).Outputs h0 written
        (Function.update left o (if l.ready o then leftAfter (l.size o) (left o) else left o)) :=
    fun o b left hb => hb.grows (hb.streams.pumpReady env o (l.ready o) (l.size o))
      (Agent.grows_pumpReady o _ _ _)
  exact ⟨h.streams.pumpPoll env l, (hone .err (hone .out h)).bounded⟩

theorem Agent.Outputs.nextFrame (h : a.Outputs h0 written left) :
    (a.nextFrame.1).Outputs h0 written left :=
  h.grows h.streams.nextFrame Agent.grows_nextFrame

theorem Agent.Outputs.execFrame (h : a.Outputs h0 written left) (m : Msg) :
    (a.execFrame env m).Outputs h0 written left := by
  refine h.grows (h.streams.execFrame m) ?_
  unfold Agent.execFrame
  cases m with
  | stdin data => exact Agent.grows_onCommand _
  | stdinEof => exact Agent.grows_onCommand _
  | stat => exact Agent.grows_send (.inr rfl)
  | _ => exact .same rfl

theorem Agent.Outputs.fill (h : a.Outputs h0 written left) (r : Read) :
    (a.fill r).Outputs h0 written left :=
  h.grows (h.streams.fill r) (.same (Agent.fill_cases r a).1)

/-- A turn while the command runs. -/
theorem Agent.Outputs.execTurn (h : a.Outputs h0 written left) (c : Calls) (l : Look) :
    (a.execTurn env { c with waited := .running, pump := Pipes.pump l left }).Outputs h0 written
      (Pipes.after l left) := by
  have hflush : (a.onCommand (Command.flush c.writes)).Outputs h0 written left :=
    h.grows (h.streams.onCommand (Command.isOpen_flush c.writes)) (Agent.grows_onCommand _)
  have hfound := hflush.nextFrame
  unfold Agent.execTurn
  dsimp only
  generalize (a.onCommand (Command.flush c.writes)).nextFrame = x at hfound
  obtain ⟨b, _ | m⟩ := x
  · unfold Agent.execPoll
    dsimp only
    have hpump := hfound.pumpPoll env l
    have hread : (if (c.deviceReady && b.wantsInput) = true then
        (b.pumpPoll env (Pipes.pump l left)).fill c.device
        else b.pumpPoll env (Pipes.pump l left)).Outputs h0 written (Pipes.after l left) := by
      split
      · exact hpump.fill c.device
      · exact hpump
    have hnext := hread.nextFrame
    generalize Agent.nextFrame _ = y at hnext
    obtain ⟨b', _ | m⟩ := y
    · exact hnext
    · exact hnext.execFrame m
  · exact (hfound.execFrame m).pumpPoll env l

theorem Agent.Outputs.drain (h : a.Outputs h0 written left) (env : Env)
    (ls : List (Nat × Look)) : (a.drain env (Pipes.drain ls left)).Bounded h0 written := by
  induction ls generalizing a left with
  | nil => exact h.bounded
  | cons x ls ih =>
      obtain ⟨ms, l⟩ := x
      unfold Pipes.drain Agent.drain
      split
      · exact h.bounded
      · exact ih (h.pumpPoll env l)

end outputs

/-! ## under watch -/

section watched

variable {env : Env} {h0 : List Happening} {written : Pipes} {w : Watched}

theorem Agent.Outputs.turn (h : w.agent.Outputs h0 written w.pipes) (env : Env)
    (i : Calls × Look) :
    (w.turn env i).agent.Outputs h0 written (w.turn env i).pipes := by
  unfold Watched.turn Agent.turn
  have hcase := h.streams
  obtain hdead | ⟨x, body, hphase, -⟩ := hcase
  · rw [hdead]
    exact ⟨.inl hdead, h.bounded⟩
  · rw [hphase]
    exact h.execTurn i.1 i.2

/-- The turn that finds the command ended: the rest of its output, and Exit unless
the agent ends itself. -/
theorem Agent.Outputs.finish (h : w.agent.Outputs h0 written w.pipes) (env : Env) (c : Calls)
    (status : Nat) (ls : List (Nat × Look)) :
    ∃ body, Frames body ∧ (∀ o, streamOf o body <+: written o) ∧
      ((w.finish env c status ls).phase = .dead ∧
          (w.finish env c status ls).history = h0 ++ body ∨
        (w.finish env c status ls).phase = .idle ∧
          (w.finish env c status ls).history = h0 ++ body ++ [.sent (.exit (exitCode status))] ∧
          (w.ending env ls = .closed → ∀ o, streamOf o body = written o)) := by
  have hlive := @Watched.Streams.finish env h0 written w c status ls h.streams
  have hcase := h.streams
  obtain hgone | ⟨x, -, hphase, -⟩ := hcase
  · obtain ⟨body, hhist, hframes, hpre⟩ := h.bounded
    unfold Watched.finish Agent.turn
    rw [hgone]
    exact ⟨body, hframes, hpre, .inl ⟨hgone, hhist⟩⟩
  · have hshut : (w.agent.onCommand fun x => { x with inOpen := false }).Outputs h0 written
        w.pipes :=
      h.grows (h.streams.onCommand fun x o => by cases o <;> rfl) (Agent.grows_onCommand _)
    obtain ⟨body, hhist, hframes, hpre⟩ := hshut.drain env ls
    have hfinish : w.finish env c status ls =
        (((w.agent.onCommand fun x => { x with inOpen := false }).drain env
          (w.pipes.drain ls)).send env (.exit (exitCode status))).enter .idle := by
      unfold Watched.finish Agent.turn
      rw [hphase]
      rfl
    rw [hfinish] at hlive ⊢
    generalize (w.agent.onCommand fun x => { x with inOpen := false }).drain env
      (w.pipes.drain ls) = b at hhist hlive
    refine ⟨body, hframes, hpre, ?_⟩
    obtain ⟨hsent, hidle⟩ | ⟨hsame, hdead⟩ :=
      Agent.finish_cases env (.exit (exitCode status)) .idle b
    · obtain ⟨body', hhist', -, hall⟩ := hlive (by rw [hidle]; simp)
      rw [hsent, hhist] at hhist'
      obtain rfl := List.append_cancel_left (List.append_cancel_right hhist')
      exact .inr ⟨hidle, by rw [hsent, hhist], hall⟩
    · exact .inl ⟨hdead, hsame.trans hhist⟩

end watched

end Phi.Card
