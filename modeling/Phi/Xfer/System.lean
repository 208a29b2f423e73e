import Phi.Xfer.Client

/-!
# Phi.Xfer.System

A client, a daemon and the card.

The daemon stands for any that passes each frame of a session once and in
order: it lets one session in at a time, passes a `Stat` of another client at
any moment, and gives the frames that come from the card to the session's
client.  Frames go to the card as bytes, and the card reads them as they come.
A session of a client is over for the daemon when its last frame has passed;
what its client still sends then is dropped, but what was passed before may
still be on its way to the card.
-/

namespace Phi.Xfer

open Rpc Card Serve

/-! ## the card -/

/-- The most `run_get` reads at once. -/
def chunkBytes : Nat := 65536

/-- The agent and the files it writes; the bytes read from the file of the get,
and whether a system call failed in the put or the get. -/
structure CardSide where
  agent : Agent
  files : String → List UInt8
  fetched : List UInt8
  failed : Bool

def CardSide.start (cells : Nat → UInt8) (files : String → List UInt8) : CardSide :=
  ⟨.start cells, files, [], false⟩

namespace CardSide

/-- The frame that opens a put or a get: the file is made empty when it can be
opened. -/
def opening (c : Card.Calls) (m : Msg) (s : CardSide) : CardSide :=
  match m with
  | .putOpen path _ => { s with
      files := if hasNul path ∨ c.opened.isSome then s.files else Function.update s.files path []
      failed := hasNul path || c.opened.isSome || c.chmod.isSome }
  | .get path => { s with
      fetched := []
      failed := hasNul path || c.opened.isSome }
  | _ => s

/-- A frame during a put; a write that fails may have written some of it. -/
def putting (c : Card.Calls) (kept : Nat) (path : String) (m : Msg) (s : CardSide) : CardSide :=
  match m with
  | .putData data => match c.write with
      | none => { s with files := Function.update s.files path (s.files path ++ data) }
      | some _ => { s with
          files := Function.update s.files path (s.files path ++ data.take kept)
          failed := true }
  | .putClose => { s with failed := s.failed || c.fsync.isSome }
  | _ => s

/-- A read during a get. -/
def getting (c : Card.Calls) (s : CardSide) : CardSide :=
  match c.chunk with
  | .data bytes => { s with fetched := s.fetched ++ bytes }
  | .eof => s
  | .failed errno => { s with failed := s.failed || decide (errno ≠ eintr) }

/-- One turn of the agent, and what becomes of the files. -/
def turn (env : Env) (kept : Nat) (c : Card.Calls) (s : CardSide) : CardSide :=
  let files := match s.agent.phase with
    | .idle => match (s.agent.nextBlocking c.device).2 with
        | some m => s.opening c m
        | none => s
    | .put path => match (s.agent.nextBlocking c.device).2 with
        | some m => s.putting c kept path m
        | none => s
    | .get _ _ => match (s.agent.nextReady c.deviceReady c.device).2 with
        | some _ => s
        | none => s.getting c
    | _ => s
  { files with agent := s.agent.turn env c }

end CardSide

/-! ## the system -/

/-- The client and the frames it sent that were not passed yet; the session the
daemon holds, the client's own or another's, and whether the client's was let
in; the bytes on their way to the card; the card, and how much of what happened
there the daemon has seen; the bytes on their way to the client; the last frame
of the client's session, and the card as it was when it passed. -/
structure System where
  client : Client
  up : List Msg
  holder : Option (Bool × Kind)
  admitted : Bool
  toCard : List UInt8
  card : CardSide
  seen : Nat
  down : List UInt8
  ended : Option (Msg × CardSide)

def System.start (client : Client) (card : CardSide) : System :=
  ⟨client, [], none, false, [], card, 0, [], none⟩

/-- Events. -/
inductive Event where
  | client (c : Calls)
  | pass
  | ask
  | other (m : Msg)
  | card (n kept : Nat) (c : Card.Calls)
  | relay

namespace System

/-- A frame on its way to the card. -/
def toAgent (m : Msg) (s : System) : System := { s with toCard := s.toCard ++ m.encode }

/-- The client's next frame: let in when it opens a session and none is held,
passed while the session is the client's, and dropped after it. -/
def pass (s : System) : System :=
  match s.up with
  | [] => s
  | m :: ms => match s.holder, s.admitted with
      | some (true, _), _ => ({ s with up := ms } : System).toAgent m
      | none, false => match opens m with
          | some k =>
              ({ s with up := ms, holder := some (true, k), admitted := true } : System).toAgent m
          | none => s
      | some (false, _), false => s
      | _, true => { s with up := ms }

/-- A frame of another client's session, or the one that opens it. -/
def other (m : Msg) (s : System) : System :=
  if Rpc.maxFrame < m.body.length ∨ m = .stat then s
  else match opens m, s.holder with
    | some k, none => ({ s with holder := some (false, k) } : System).toAgent m
    | none, some (false, _) => s.toAgent m
    | _, _ => s

/-- One more of what happened on the card was seen. -/
def look (s : System) : System := { s with seen := s.seen + 1 }

/-- A frame of the session for its client; the last one ends it. -/
def give (mine : Bool) (k : Kind) (m : Msg) (s : System) : System :=
  { s.look with
    down := if mine then s.down ++ m.encode else s.down
    holder := if k.ends m then none else some (mine, k)
    ended := if mine && k.ends m then some (m, s.card) else s.ended }

/-- The next of what happened on the card; replies to `Stat` are for others. -/
def relay (s : System) : System :=
  match s.card.agent.history[s.seen]? with
  | none => s
  | some (.took _) => s.look
  | some (.sent m) => match s.holder with
      | none => s.look
      | some (mine, k) => if answers (.sent m) then s.look else s.give mine k m

/-- The system calls of a turn on the card: what is read of the device are the
next bytes on their way, and what is read of a file is no more than asked for. -/
def calls (n : Nat) (c : Card.Calls) (s : System) : Card.Calls :=
  { c with
    device := match c.device with
      | .data _ => .data (s.toCard.take (min n readChunk))
      | r => r
    chunk := match c.chunk with
      | .data bytes => if bytes = [] then .eof else .data (bytes.take chunkBytes)
      | r => r }

/-- A turn on the card. -/
def cardTurn (env : Env) (n kept : Nat) (c : Card.Calls) (s : System) : System :=
  let c := s.calls n c
  { s with
    card := s.card.turn env kept c
    toCard := if s.card.agent.reads c then s.toCard.drop c.device.bytes.length else s.toCard }

/-- The client after a turn, the frames it sent, and what is still on its way. -/
def went (x : Client × List Msg × List UInt8) (s : System) : System :=
  { s with client := x.1, up := s.up ++ x.2.1, down := x.2.2 }

def step (env : Env) (s : System) : Event → System
  | .client c => s.went (s.client.turn c s.down)
  | .pass => s.pass
  | .ask => s.toAgent .stat
  | .other m => s.other m
  | .card n kept c => s.cardTurn env n kept c
  | .relay => s.relay

end System

end Phi.Xfer
