import Phi.Card.Failing
import Phi.Xfer.Serving

/-!
# Phi.Xfer.Remote

A command run on the card from the host: `cmd_exec` after its first frame.

The client sends its standard input as Stdin frames and writes what Stdout and
Stderr bring to its own descriptors, in one loop around a poll.  The daemon
between it and the card is that of `Phi.Xfer.System`, and on the card the agent
runs the command, whose output is in two pipes (`Pipes`) and whose input is
followed by a `Relay`.
-/

namespace Phi.Xfer

open Rpc Card Serve

/-! ## the client -/

/-- The most that is read of standard input at once. -/
def stdinChunk : Nat := 16384

/-- What `cmd_exec` exits for. -/
inductive Exit where
  | code (c : Int32)
  | error (text : String)
  | unexpected (t : Tag)
  | failed (what : String) (errno : Option Nat)
deriving DecidableEq

/-- The argument of `exit_group`. -/
def Exit.status : Exit → Int32
  | .code c => c
  | .error _ => 255
  | .unexpected _ | .failed .. => 1

/-- The line on standard error before it. -/
def Exit.line (strerror : Nat → String) : Exit → Option String
  | .code _ => none
  | .error text => some ("phictl exec: " ++ text)
  | .unexpected t => some ("phictl: " ++ "unexpected reply " ++ name t)
  | .failed what none => some ("phictl: " ++ what)
  | .failed what (some errno) =>
      some ("phictl: " ++ what ++ ": " ++ strerror errno ++
        " (os error " ++ toString errno ++ ")")

/-- What the system calls of one turn return: what a read of standard input does
when the poll found it ready, and one of the socket, which may find it closed. -/
structure ExecCalls where
  stdin : Option Got
  recv : Option (Option Got)
  send : Option IoError
  /-- how much of a frame's body is written before a write fails -/
  shows : Option Nat

/-- Before the poll, among the frames of one read, or over. -/
inductive ExecStage where
  | polling
  | acting
  | exited (e : Exit)

/-- The client: what is left of its standard input, and what it wrote to its
standard output and error, unless a write failed. -/
structure ExecClient where
  stage : ExecStage
  source : List UInt8
  stdinOpen : Bool
  dec : Dec
  shown : Output → List UInt8
  short : Output → Bool

def ExecClient.start (stdin : List UInt8) (cells : Nat → UInt8) : ExecClient :=
  ⟨.polling, stdin, true, .init cells, fun _ => [], fun _ => false⟩

namespace ExecClient

def exit (e : Exit) (x : ExecClient) : ExecClient := { x with stage := .exited e }

/-- `send_tx`. -/
def sendTx (c : ExecCalls) (m : Msg) (x : ExecClient) : ExecClient × List Msg :=
  match c.send with
  | none => (x, [m])
  | some _ => (x.exit (.failed "writing to the control socket" none), [])

/-- Standard input, when the poll found it ready: its end and any error but an
interrupt end it. -/
def readStdin (c : ExecCalls) (x : ExecClient) : ExecClient × List Msg :=
  if x.stdinOpen = false then (x, [])
  else match c.stdin with
    | none => (x, [])
    | some (.failed errno) =>
        if errno = eintr then (x, [])
        else ({ x with stdinOpen := false } : ExecClient).sendTx c .stdinEof
    | some (.upTo n) =>
        let data := x.source.take (min (n + 1) stdinChunk)
        if data = [] then ({ x with stdinOpen := false } : ExecClient).sendTx c .stdinEof
        else ({ x with source := x.source.drop data.length } : ExecClient).sendTx c (.stdin data)

/-- The socket, when the poll found it ready. -/
def readSocket (c : ExecCalls) (down : List UInt8) (x : ExecClient) :
    ExecClient × List UInt8 :=
  match c.recv with
  | none => (x, down)
  | some none => (x.exit (.failed "the daemon closed the connection" none), down)
  | some (some (.failed errno)) =>
      if errno = eintr then (x, down)
      else (x.exit (.failed "reading the control socket" (some errno)), down)
  | some (some (.upTo n)) =>
      let chunk := down.take (min (n + 1) (min readChunk x.dec.space))
      ({ x with dec := x.dec.push chunk, stage := .acting }, down.drop chunk.length)

/-- `write_all` to a descriptor, which is not looked at. -/
def writeAll (c : ExecCalls) (o : Output) (data : List UInt8) (x : ExecClient) : ExecClient :=
  { x with
    shown := Function.update x.shown o
      (x.shown o ++ match c.shows with
        | none => data
        | some n => data.take n)
    short := Function.update x.short o (x.short o || c.shows.isSome) }

def frame (c : ExecCalls) (m : Msg) (x : ExecClient) : ExecClient :=
  match m with
  | .stdout data => x.writeAll c .out data
  | .stderr data => x.writeAll c .err data
  | .exit code => x.exit (.code code)
  | .error text => x.exit (.error text)
  | m => x.exit (.unexpected m.tag)

/-- The next frame of what was read, if one is whole. -/
def act (c : ExecCalls) (x : ExecClient) : ExecClient :=
  match x.dec.next with
  | none => { x with stage := .polling }
  | some (.frame tag body, dec) => match decodeBody tag body with
      | .ok m => ({ x with dec } : ExecClient).frame c m
      | .error _ => x.exit (.failed "the daemon sent a frame phi-rpc rejects" none)
  | some _ => x.exit (.failed "the daemon sent a frame phi-rpc rejects" none)

/-- One turn: the client, the frames it sent, and the bytes still on their way
to it. -/
def turn (c : ExecCalls) (down : List UInt8) (x : ExecClient) :
    ExecClient × List Msg × List UInt8 :=
  match x.stage with
  | .polling => match x.readStdin c with
      | (x, sent) => match x.stage with
          | .exited _ => (x, sent, down)
          | _ => let (x, down) := x.readSocket c down; (x, sent, down)
  | .acting => (x.act c, [], down)
  | .exited _ => (x, [], down)

end ExecClient

/-! ## the system -/

/-- The client and the frames it sent that were not passed yet; the bytes on
their way to the card; the agent with the command's pipes and its input; the
wait status once the command was found ended, and how its drain ended; how much
of what happened on the card the daemon has seen; the bytes on their way to the
client; whether the last frame of the session has passed. -/
structure Remote where
  client : ExecClient
  up : List Msg
  toCard : List UInt8
  agent : Agent
  pipes : Pipes
  relay : Card.Relay
  waited : Option (Nat × Ending)
  seen : Nat
  down : List UInt8
  ended : Bool

/-- The client's command was let in and is on its way to the card. -/
def Remote.start (cmd : Msg) (client : ExecClient) (agent : Agent) (written : Pipes) : Remote :=
  ⟨client, [], cmd.encode, agent, written, .start agent.rx fun _ => 0, none,
    agent.history.length, [], false⟩

/-- Events. -/
inductive RemoteEvent where
  | client (c : ExecCalls)
  | pass
  | ask
  | card (n : Nat) (c : Card.Calls) (l : Look) (ls : List (Nat × Look))
  | relay

namespace Remote

/-- A frame on its way to the card. -/
def toAgent (m : Msg) (s : Remote) : Remote := { s with toCard := s.toCard ++ m.encode }

/-- The client's next frame, dropped when its session is over. -/
def pass (s : Remote) : Remote :=
  match s.up with
  | [] => s
  | m :: ms => if s.ended then { s with up := ms } else ({ s with up := ms } : Remote).toAgent m

/-- The system calls of a turn on the card: what is read of the device are the
next bytes on their way, and of the pipes what the command wrote. -/
def calls (n : Nat) (c : Card.Calls) (l : Look) (ls : List (Nat × Look)) (s : Remote) :
    Card.Calls :=
  { c with
    device := match c.device with
      | .data _ => .data (s.toCard.take (min n readChunk))
      | r => r
    pump := s.pipes.pump l
    drain := s.pipes.drain ls }

/-- A turn on the card. -/
def cardTurn (env : Env) (n : Nat) (c : Card.Calls) (l : Look) (ls : List (Nat × Look))
    (s : Remote) : Remote :=
  let c := s.calls n c l ls
  let t := { s with
    agent := s.agent.turn env c
    toCard := if s.agent.reads c then s.toCard.drop c.device.bytes.length else s.toCard }
  match s.agent.phase with
  | .exec _ => match c.waited with
      | .running => { t with pipes := s.pipes.after l, relay := s.relay.turn c }
      | .exited status =>
          { t with waited := some (status, Watched.ending env ls ⟨s.agent, s.pipes⟩) }
      | .failed _ => t
  | _ => match t.agent.phase with
      | .exec _ => { t with relay := .start t.agent.rx fun _ => 0 }
      | _ => t

/-- The next of what happened on the card; replies to `Stat` are for others. -/
def relayNext (s : Remote) : Remote :=
  match s.agent.history[s.seen]? with
  | none => s
  | some (.took _) => { s with seen := s.seen + 1 }
  | some (.sent m) =>
      if s.ended || answers (.sent m) then { s with seen := s.seen + 1 }
      else { s with
        seen := s.seen + 1
        down := s.down ++ m.encode
        ended := Kind.exec.ends m }

/-- The client after a turn, the frames it sent, and what is still on its way. -/
def went (x : ExecClient × List Msg × List UInt8) (s : Remote) : Remote :=
  { s with client := x.1, up := s.up ++ x.2.1, down := x.2.2 }

def step (env : Env) (s : Remote) : RemoteEvent → Remote
  | .client c => s.went (s.client.turn c s.down)
  | .pass => s.pass
  | .ask => s.toAgent .stat
  | .card n c l ls => s.cardTurn env n c l ls
  | .relay => s.relayNext

end Remote

end Phi.Xfer
