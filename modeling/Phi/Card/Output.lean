import Phi.Card.Sessions
import Mathlib.Logic.Function.Basic

/-!
# Phi.Card.Output

The output of a command that closes its pipes when it ends.

What the command writes goes through two pipes; each read of one takes the next
bytes of what it wrote, and is sent as one frame.  After the command ended the
pipes are read until both are at their end or the grace is over, by the clock
that goes on while a frame waits for the device.
-/

namespace Phi.Card

open Rpc Serve

/-! ## constants -/

/-- `CHUNK`. -/
def chunkBytes : Nat := 32768

/-! ## the pipes -/

deriving instance DecidableEq for Output

/-- What the command wrote, or is still to write, and the agent has not read. -/
abbrev Pipes := Output → List UInt8

/-- A poll of the pipes and the reads after it: how much a read returns, nothing
when a signal interrupts it. -/
structure Look where
  ready : Output → Bool
  size : Output → Nat

/-- The read of a pipe that is ready: the next bytes, or its end. -/
def readPipe (n : Nat) (left : List UInt8) : Read :=
  if n = 0 then .failed eintr
  else if left = [] then .eof
  else .data (left.take (min n chunkBytes))

/-- What the read leaves. -/
def leftAfter (n : Nat) (left : List UInt8) : List UInt8 := left.drop (min n chunkBytes)

/-- What the poll and the reads return. -/
def Pipes.pump (l : Look) (p : Pipes) : Pump :=
  ⟨l.ready .out, l.ready .err, readPipe (l.size .out) (p .out), readPipe (l.size .err) (p .err)⟩

def Pipes.after (l : Look) (p : Pipes) : Pipes := fun o =>
  if l.ready o then leftAfter (l.size o) (p o) else p o

/-- The polls after the exit. -/
def Pipes.drain : List (Nat × Look) → Pipes → List (Nat × Pump)
  | [], _ => []
  | (ms, l) :: ls, p => (ms, p.pump l) :: drain ls (p.after l)

/-- The bytes of a stream among what was sent. -/
def streamOf (o : Output) : List Happening → List UInt8
  | [] => []
  | .sent (.stdout bytes) :: h => (if o = .out then bytes else []) ++ streamOf o h
  | .sent (.stderr bytes) :: h => (if o = .err then bytes else []) ++ streamOf o h
  | _ :: h => streamOf o h

/-- An agent with a command, and the command's pipes. -/
structure Watched where
  agent : Agent
  pipes : Pipes

/-- A turn while the command runs. -/
def Watched.turn (env : Env) (w : Watched) (i : Calls × Look) : Watched where
  agent := w.agent.turn env { i.1 with waited := .running, pump := w.pipes.pump i.2 }
  pipes := w.pipes.after i.2

/-- The turn that finds the command ended. -/
def Watched.finish (env : Env) (c : Calls) (status : Nat) (ls : List (Nat × Look)) (w : Watched) :
    Agent :=
  w.agent.turn env { c with waited := .exited status, drain := w.pipes.drain ls }

/-- How the loop of `ex_done` ends: with both pipes at their end, or the grace
over; else it goes on. -/
inductive Ending where
  | closed
  | late
  | goesOn
deriving DecidableEq, Repr

/-- Both pipes are closed. -/
def Agent.outputClosed (a : Agent) : Bool :=
  match a.phase with
  | .exec x => !x.outOpen && !x.errOpen
  | _ => false

def Agent.drainEnding (env : Env) : List (Nat × Pump) → Agent → Ending
  | [], a => if a.outputClosed then .closed else .goesOn
  | (ms, p) :: ps, a =>
      if a.outputClosed then .closed
      else if outputGraceMs ≤ ms then .late
      else drainEnding env ps (a.pumpPoll env p)

/-- How the drain after the command's end ends. -/
def Watched.ending (env : Env) (ls : List (Nat × Look)) (w : Watched) : Ending :=
  (w.agent.onCommand fun x => { x with inOpen := false }).drainEnding env (w.pipes.drain ls)

/-! ## what was sent and what is left -/

theorem streamOf_append (o : Output) (h h' : List Happening) :
    streamOf o (h ++ h') = streamOf o h ++ streamOf o h' := by
  induction h with
  | nil => rfl
  | cons x h ih =>
      cases x with
      | took m => exact ih
      | sent m =>
          cases m with
          | stdout bytes =>
              show (if o = .out then bytes else []) ++ streamOf o (h ++ h') = _
              rw [ih, ← List.append_assoc]
              rfl
          | stderr bytes =>
              show (if o = .err then bytes else []) ++ streamOf o (h ++ h') = _
              rw [ih, ← List.append_assoc]
              rfl
          | _ => exact ih

/-- A command is running, unless the agent ended itself; since `h0` each stream
was sent up to what is left, and only an empty pipe is closed. -/
def Agent.Streams (h0 : List Happening) (written left : Pipes) (a : Agent) : Prop :=
  a.phase = .dead ∨ ∃ x body, a.phase = .exec x ∧ a.history = h0 ++ body ∧
    (∀ o, streamOf o body ++ left o = written o) ∧ ∀ o, o.isOpen x = false → left o = []

section streams

variable {env : Env} {h0 : List Happening} {written left : Pipes} {a : Agent}

theorem streamOf_message (o o' : Output) (bytes : List UInt8) :
    streamOf o [.sent (o'.message bytes)] = if o = o' then bytes else [] := by
  cases o' with
  | out => exact List.append_nil _
  | err => exact List.append_nil _

/-- A frame of neither stream. -/
theorem Agent.Streams.send {m : Msg} (h : a.Streams h0 written left)
    (hm : ∀ o, streamOf o [.sent m] = []) : (a.send env m).Streams h0 written left := by
  obtain hdead | ⟨x, body, hphase, hhist, hsent, hopen⟩ := h
  · unfold Agent.send
    rw [hdead]
    exact .inl hdead
  · unfold Agent.send
    rw [hphase]
    dsimp only
    split
    · refine .inr ⟨x, body ++ [.sent m], rfl, ?_, fun o => ?_, hopen⟩
      · dsimp only
        rw [hhist, List.append_assoc]
      · rw [streamOf_append, hm, List.append_nil]
        exact hsent o
    · exact .inl rfl

theorem Agent.Streams.onCommand {f : Command → Command} (h : a.Streams h0 written left)
    (hf : ∀ (x : Command) (o : Output), o.isOpen (f x) = o.isOpen x) :
    (a.onCommand f).Streams h0 written left := by
  unfold Agent.onCommand
  obtain hdead | ⟨x, body, hphase, hhist, hsent, hopen⟩ := h
  · rw [hdead]
    exact .inl hdead
  · rw [hphase]
    exact .inr ⟨f x, body, rfl, hhist, hsent, fun o ho => hopen o (by rw [← hf x o]; exact ho)⟩

/-- What a frame of a stream brings is no longer left. -/
theorem Agent.Streams.output {o : Output} {bytes rest : List UInt8}
    (h : a.Streams h0 written left) (hleft : left o = bytes ++ rest) :
    (a.send env (o.message bytes)).Streams h0 written (Function.update left o rest) := by
  unfold Agent.send
  obtain hdead | ⟨x, body, hphase, hhist, hsent, hopen⟩ := h
  · rw [hdead]
    exact .inl hdead
  · rw [hphase]
    dsimp only
    split
    · refine .inr ⟨x, body ++ [.sent (o.message bytes)], rfl, ?_, fun o' => ?_, fun o' ho' => ?_⟩
      · dsimp only
        rw [hhist, List.append_assoc]
      · rw [streamOf_append, streamOf_message, ← hsent o']
        by_cases heq : o' = o
        · subst heq
          rw [if_pos rfl, Function.update_self, hleft, List.append_assoc]
        · rw [if_neg heq, Function.update_of_ne heq, List.append_nil]
      · have hnil := hopen o' ho'
        by_cases heq : o' = o
        · subst heq
          rw [hleft] at hnil
          rw [Function.update_self, (List.append_eq_nil_iff.mp hnil).2]
        · rw [Function.update_of_ne heq, hnil]
    · exact .inl rfl

/-- A pipe found at its end. -/
theorem Agent.Streams.close {o : Output} (h : a.Streams h0 written left) (hnil : left o = []) :
    (a.onCommand o.close).Streams h0 written left := by
  unfold Agent.onCommand
  obtain hdead | ⟨x, body, hphase, hhist, hsent, hopen⟩ := h
  · rw [hdead]
    exact .inl hdead
  · rw [hphase]
    refine .inr ⟨o.close x, body, rfl, hhist, hsent, fun o' ho' => ?_⟩
    cases o with
    | out =>
        cases o' with
        | out => exact hnil
        | err => exact hopen .err ho'
    | err =>
        cases o' with
        | out => exact hopen .out ho'
        | err => exact hnil

/-- A pipe read: its next bytes go out, or it is found at its end. -/
theorem Agent.Streams.pumpReady (h : a.Streams h0 written left) (env : Env) (o : Output)
    (ready : Bool) (n : Nat) : (a.pumpReady env o ready (readPipe n (left o))).Streams h0 written
      (Function.update left o (if ready then leftAfter n (left o) else left o)) := by
  have hstay : ∀ rest, rest = left o → a.Streams h0 written (Function.update left o rest) := by
    rintro rest rfl
    rw [Function.update_eq_self]
    exact h
  unfold Agent.pumpReady
  have hcase := h
  obtain hdead | ⟨x, body, hphase, hhist, hsent, hempty⟩ := hcase
  · rw [hdead]
    exact .inl hdead
  · rw [hphase]
    dsimp only
    by_cases hread : (ready && o.isOpen x) = true
    · rw [if_pos hread]
      rw [Bool.and_eq_true] at hread
      rw [if_pos hread.1]
      unfold readPipe Agent.pumpRead
      by_cases hn : n = 0
      · rw [if_pos hn, hn]
        exact hstay _ rfl
      · rw [if_neg hn]
        by_cases hnil : left o = []
        · rw [if_pos hnil]
          have hrest : leftAfter n (left o) = left o := by
            unfold leftAfter
            rw [hnil, List.drop_nil]
          rw [hrest, Function.update_eq_self]
          exact h.close hnil
        · rw [if_neg hnil]
          exact h.output (List.take_append_drop _ _).symm
    · rw [if_neg hread]
      refine hstay _ ?_
      cases ready with
      | false => rfl
      | true =>
          have hnil := hempty o (by simpa using hread)
          unfold leftAfter
          rw [hnil, List.drop_nil, ite_self]

/-- Both pipes polled. -/
theorem Agent.Streams.pumpPoll (h : a.Streams h0 written left) (env : Env) (l : Look) :
    (a.pumpPoll env (Pipes.pump l left)).Streams h0 written (Pipes.after l left) := by
  have hboth := (h.pumpReady env .out (l.ready .out) (l.size .out)).pumpReady
    env .err (l.ready .err) (l.size .err)
  have hafter : Pipes.after l left = Function.update (Function.update left .out
      (if l.ready .out then leftAfter (l.size .out) (left .out) else left .out)) .err
      (if l.ready .err then leftAfter (l.size .err) (left .err) else left .err) := by
    funext o
    cases o with
    | out => rfl
    | err => rfl
  rw [hafter]
  exact hboth

/-! ## the turns -/

theorem Command.flush_outputs (ws : List Write) (x : Command) :
    (x.flush ws).outOpen = x.outOpen ∧ (x.flush ws).errOpen = x.errOpen := by
  induction ws generalizing x with
  | nil =>
      unfold Command.flush
      split
      · exact ⟨rfl, rfl⟩
      · split
        · split <;> exact ⟨rfl, rfl⟩
        · exact ⟨rfl, rfl⟩
  | cons w ws ih =>
      unfold Command.flush
      split
      · exact ⟨rfl, rfl⟩
      · split
        · split <;> exact ⟨rfl, rfl⟩
        · match w with
          | .full => exact ⟨rfl, rfl⟩
          | .written 0 => exact ⟨rfl, rfl⟩
          | .interrupted => exact ih x
          | .broken => exact ⟨rfl, rfl⟩
          | .written (n + 1) => exact ih _

theorem Command.isOpen_flush (ws : List Write) (x : Command) (o : Output) :
    o.isOpen (x.flush ws) = o.isOpen x := by
  obtain ⟨hout, herr⟩ := Command.flush_outputs ws x
  cases o with
  | out => exact hout
  | err => exact herr

theorem Agent.Streams.nextFrame (h : a.Streams h0 written left) :
    (a.nextFrame.1).Streams h0 written left := by
  unfold Agent.nextFrame
  obtain hdead | ⟨x, body, hphase, hhist, hsent, hopen⟩ := h
  · rw [hdead]
    exact .inl hdead
  · rw [hphase]
    dsimp only
    split
    · next m hm =>
        refine .inr ⟨x, body ++ [.took m], rfl, ?_, fun o => ?_, hopen⟩
        · dsimp only
          rw [hhist, List.append_assoc]
        · rw [streamOf_append]
          show streamOf o body ++ [] ++ left o = written o
          rw [List.append_nil]
          exact hsent o
    · exact .inr ⟨x, body, rfl, hhist, hsent, hopen⟩

theorem Agent.Streams.execFrame (h : a.Streams h0 written left) (m : Msg) :
    (a.execFrame env m).Streams h0 written left := by
  unfold Agent.execFrame
  cases m with
  | stdin data =>
      refine h.onCommand fun x o => ?_
      unfold Command.push
      split
      · rfl
      · cases o <;> rfl
  | stdinEof => exact h.onCommand fun x o => by cases o <;> rfl
  | stat => exact h.send fun o => rfl
  | _ => exact h

theorem Agent.Streams.fill (h : a.Streams h0 written left) (r : Read) :
    (a.fill r).Streams h0 written left := by
  unfold Agent.fill
  obtain hdead | ⟨x, body, hphase, hhist, hsent, hopen⟩ := h
  · rw [hdead]
    exact .inl hdead
  · rw [hphase]
    cases r with
    | data bytes => exact .inr ⟨x, body, rfl, hhist, hsent, hopen⟩
    | eof => exact .inl rfl
    | failed errno => exact .inl rfl

/-- A turn while the command runs. -/
theorem Agent.Streams.execTurn (h : a.Streams h0 written left) (c : Calls) (l : Look) :
    (a.execTurn env { c with waited := .running, pump := Pipes.pump l left }).Streams h0 written
      (Pipes.after l left) := by
  have hflush :=
    (h.onCommand (f := Command.flush c.writes) (Command.isOpen_flush c.writes)).nextFrame
  unfold Agent.execTurn
  dsimp only
  generalize (a.onCommand (Command.flush c.writes)).nextFrame = x at hflush
  obtain ⟨b, _ | m⟩ := x
  · unfold Agent.execPoll
    dsimp only
    have hpump := hflush.pumpPoll env l
    have hfill := hpump.fill c.device
    have hread : (if (c.deviceReady && b.wantsInput) = true then
        (b.pumpPoll env (Pipes.pump l left)).fill c.device
        else b.pumpPoll env (Pipes.pump l left)).Streams h0 written (Pipes.after l left) := by
      split
      · exact hfill
      · exact hpump
    have hnext := hread.nextFrame
    generalize Agent.nextFrame _ = y at hnext
    obtain ⟨b', _ | m⟩ := y
    · exact hnext
    · exact hnext.execFrame m
  · exact (hflush.execFrame m).pumpPoll env l

/-! ## the end -/

theorem Agent.Streams.closed (h : a.Streams h0 written left) (hc : a.outputClosed = true) :
    ∀ o, left o = [] := by
  intro o
  unfold Agent.outputClosed at hc
  obtain hdead | ⟨x, body, hphase, -, -, hopen⟩ := h
  · rw [hdead] at hc
    cases hc
  · rw [hphase] at hc
    simp only [Bool.and_eq_true, Bool.not_eq_true'] at hc
    refine hopen o ?_
    cases o with
    | out => exact hc.1
    | err => exact hc.2

/-- A drain that ends with both pipes closed leaves nothing in them. -/
theorem Agent.Streams.drain (h : a.Streams h0 written left) (env : Env)
    (ls : List (Nat × Look)) :
    ∃ rest, (a.drain env (Pipes.drain ls left)).Streams h0 written rest ∧
      (∀ o, left o = [] → rest o = []) ∧
      (a.drainEnding env (Pipes.drain ls left) = .closed → ∀ o, rest o = []) := by
  induction ls generalizing a left with
  | nil =>
      refine ⟨left, h, fun _ hnil => hnil, fun hend => h.closed ?_⟩
      unfold Pipes.drain Agent.drainEnding at hend
      by_cases hc : a.outputClosed = true
      · exact hc
      · rw [if_neg hc] at hend
        cases hend
  | cons x ls ih =>
      obtain ⟨ms, l⟩ := x
      unfold Pipes.drain Agent.drain Agent.drainEnding
      by_cases hlate : outputGraceMs ≤ ms
      · rw [if_pos hlate, if_pos hlate]
        refine ⟨left, h, fun _ hnil => hnil, fun hend => h.closed ?_⟩
        by_cases hc : a.outputClosed = true
        · exact hc
        · rw [if_neg hc] at hend
          cases hend
      · rw [if_neg hlate, if_neg hlate]
        obtain ⟨rest, hrest, hempty, hend⟩ := ih (h.pumpPoll env l)
        have hkept : ∀ o, left o = [] → rest o = [] := by
          intro o hnil
          refine hempty o ?_
          unfold Pipes.after leftAfter
          rw [hnil, List.drop_nil, ite_self]
        refine ⟨rest, hrest, hkept, fun hclosed => ?_⟩
        by_cases hc : a.outputClosed = true
        · exact fun o => hkept o (h.closed hc o)
        · rw [if_neg hc] at hclosed
          exact hend hclosed

end streams

/-! ## whole runs -/

section runs

variable {env : Env} {h0 : List Happening} {written : Pipes} {w : Watched}

/-- A command is running under watch. -/
def Watched.Streams (h0 : List Happening) (written : Pipes) (w : Watched) : Prop :=
  w.agent.Streams h0 written w.pipes

theorem Watched.Streams.turn (h : w.Streams h0 written) (i : Calls × Look) :
    (w.turn env i).Streams h0 written := by
  unfold Watched.Streams Watched.turn Agent.turn
  have hcase := h
  obtain hdead | ⟨x, body, hphase, -⟩ := hcase
  · rw [hdead]
    exact .inl hdead
  · rw [hphase]
    exact Agent.Streams.execTurn h i.1 i.2

/-- The turn that finds the command ended: the rest of its output, and Exit. -/
theorem Watched.Streams.finish {c : Calls} {status : Nat} {ls : List (Nat × Look)}
    (h : w.Streams h0 written) (hlive : (w.finish env c status ls).phase ≠ .dead) :
    ∃ body, (w.finish env c status ls).history =
        h0 ++ body ++ [.sent (.exit (exitCode status))] ∧
      (∀ o, streamOf o body <+: written o) ∧
      (w.ending env ls = .closed → ∀ o, streamOf o body = written o) := by
  unfold Watched.finish Agent.turn at hlive ⊢
  unfold Watched.ending
  have hcase := h
  obtain hdead | ⟨x, body, hphase, -⟩ := hcase
  · rw [hdead] at hlive
    exact absurd hdead hlive
  · rw [hphase] at hlive ⊢
    unfold Agent.execTurn Agent.execDone at hlive ⊢
    dsimp only at hlive ⊢
    have hshut : (w.agent.onCommand fun x => { x with inOpen := false }).Streams h0 written
        w.pipes := Agent.Streams.onCommand h fun x o => by cases o <;> rfl
    obtain ⟨rest, hrest, -, hend⟩ := hshut.drain env ls
    generalize (w.agent.onCommand fun x => { x with inOpen := false }).drain env
      (w.pipes.drain ls) = b at hlive hrest
    obtain hdead | ⟨y, body', hphase', hhist, hsent, -⟩ := hrest
    · unfold Agent.send Agent.enter at hlive
      rw [hdead] at hlive
      dsimp only at hlive
      rw [hdead] at hlive
      exact absurd hdead hlive
    · unfold Agent.send at hlive ⊢
      rw [hphase'] at hlive ⊢
      dsimp only at hlive ⊢
      by_cases hworks : env.works b.history = true
      · rw [if_pos hworks]
        refine ⟨body', ?_, fun o => ⟨rest o, hsent o⟩, fun hclosed o => ?_⟩
        · unfold Agent.enter
          dsimp only
          rw [hhist]
        · have hall := hsent o
          rw [hend hclosed o, List.append_nil] at hall
          exact hall
      · rw [if_neg hworks] at hlive
        exact absurd rfl hlive

theorem Watched.Streams.run (h : w.Streams h0 written) (is : List (Calls × Look)) :
    (run (Watched.turn env) w is).Streams h0 written :=
  run_inv_all (fun _ i ht => ht.turn i) h is

end runs

/-- **Agent output is complete, or cut short by the grace.**  Of each stream of a
command what was sent before Exit is the start of what it wrote, in order; it is
all of it when the drain ends without a look at the clock that finds the grace
over. -/
theorem output_sent (env : Env) (a : Agent) (ha : a.phase = .exec .start) (written : Pipes)
    (is : List (Calls × Look)) (c : Calls) (status : Nat) (ls : List (Nat × Look)) :
    let w := run (Watched.turn env) ⟨a, written⟩ is
    w.ending env ls ≠ .goesOn → (w.finish env c status ls).phase ≠ .dead →
      ∃ body, (w.finish env c status ls).history =
          a.history ++ body ++ [.sent (.exit (exitCode status))] ∧
        (∀ o, streamOf o body <+: written o) ∧
        (w.ending env ls ≠ .late → ∀ o, streamOf o body = written o) := by
  intro w hgoes hlive
  have hstart : (⟨a, written⟩ : Watched).Streams a.history written :=
    .inr ⟨.start, [], ha, (List.append_nil _).symm, fun _ => rfl,
      fun o ho => by cases o <;> cases ho⟩
  obtain ⟨body, hhist, hprefix, hall⟩ := (hstart.run is).finish (c := c) hlive
  refine ⟨body, hhist, hprefix, fun hlate => hall ?_⟩
  cases hend : w.ending env ls with
  | closed => rfl
  | late => exact absurd hend hlate
  | goesOn => exact absurd hend hgoes

/-- Both pipes ready, and reads of at most `n` bytes. -/
def look (n : Nat) : Look := ⟨fun _ => true, fun _ => n⟩

/-- One byte on each stream. -/
def abStreams : Pipes
  | .out => [97]
  | .err => [98]

def running : Agent := ⟨⟨fun _ => 0, 0, 0⟩, .exec .start, [.took (.exec ["a"] [] none)]⟩

/-- Both bytes read in one poll, and both pipes at their end in the next. -/
theorem output_sent_ab :
    let ls := [(0, look 1), (1, look 1)]
    let w : Watched := ⟨running, abStreams⟩
    ∃ body, (w.finish Agent.calm Agent.quiet 0 ls).history =
        running.history ++ body ++ [.sent (.exit (exitCode 0))] ∧
      (∀ o, streamOf o body <+: abStreams o) ∧
      (w.ending Agent.calm ls ≠ .late → ∀ o, streamOf o body = abStreams o) :=
  output_sent Agent.calm running rfl abStreams [] Agent.quiet 0 _ (by decide) (fun h => by cases h)

/-- One byte more than a read takes. -/
def longStream (tail : List UInt8) : Pipes
  | .out => 97 :: tail
  | .err => []

/-- The device takes the first frame for 300 ms, and the grace is over. -/
theorem finish_slow (tail : List UInt8) :
    let w : Watched := ⟨running, longStream tail⟩
    let ls := [(0, look chunkBytes), (300, look 0)]
    w.ending Agent.calm ls = .late ∧
      (w.finish Agent.calm Agent.quiet 0 ls).phase = .idle ∧
      (w.finish Agent.calm Agent.quiet 0 ls).history =
        running.history ++ [.sent (.stdout ((97 :: tail).take chunkBytes))] ++ [.sent (.exit 0)] :=
  ⟨rfl, rfl, rfl⟩

/-- A device that takes the first frame for 300 ms costs the last byte. -/
theorem output_cut_short :
    let written := longStream (List.replicate chunkBytes 97)
    let ls := [(0, look chunkBytes), (300, look 0)]
    let w : Watched := ⟨running, written⟩
    let b := w.finish Agent.calm Agent.quiet 0 ls
    w.ending Agent.calm ls ≠ .goesOn ∧ b.phase ≠ .dead ∧
      ¬ ∃ body, b.history = running.history ++ body ++ [.sent (.exit (exitCode 0))] ∧
        ∀ o, streamOf o body = written o := by
  intro written ls w b
  obtain ⟨hlate, hidle, hslow⟩ := finish_slow (List.replicate chunkBytes 97)
  refine ⟨fun hgoes => ?_, fun hdead => ?_, ?_⟩
  · have hclash := hlate.symm.trans hgoes
    cases hclash
  · have hclash := hidle.symm.trans hdead
    cases hclash
  · rintro ⟨body, hhist, hall⟩
    have hbody := List.append_cancel_left (List.append_cancel_right (hslow.symm.trans hhist))
    have hout := congrArg List.length (hall .out)
    rw [← hbody] at hout
    simp [streamOf, written, longStream] at hout

end Phi.Card
