import Phi.Card.Taking

/-!
# Phi.Xfer.Client

The client's end of a file transfer: `cmd_put` and `cmd_get`.

A put sends the local file and then reads one reply; a get reads replies until
the one that ends it.  A turn here is one round of the loop the client is in:
one frame sent, one frame acted on, or one read of the socket.  What the system
calls return is given with the turn (`Calls`), the bytes a read of the socket
brings are the next of those on their way.
-/

namespace Phi.Xfer

open Rpc Card Serve

/-! ## what the client is asked and what it reports -/

/-- The verb with its arguments; a put without `--mode` takes the local file's
own. -/
inductive Verb where
  | put (src dst : String) (mode : Option UInt32)
  | get (src dst : String)

/-- What the client exits with. -/
inductive Report where
  | done (total : UInt64)
  | error (text : String)
  | status (code : Int32)
  | unexpected (t : Tag)
  | failed (what : String) (errno : Option Nat)
deriving DecidableEq

/-- The exit status. -/
def Report.code : Report → Nat
  | .done _ => 0
  | _ => 1

/-- `s_put_done` and `s_get_done`. -/
def Verb.doneText : Verb → String
  | .put .. => "phictl put: "
  | .get .. => "phictl get: "

/-- The line on standard error. -/
def Report.line (strerror : Nat → String) (v : Verb) : Report → String
  | .done total => v.doneText ++ toString total ++ " bytes"
  | .error text => "phictl: " ++ text
  | .status code => "phictl: " ++ "card reported status " ++ toString code.toUInt32
  | .unexpected t => "phictl: " ++ "unexpected reply " ++ name t
  | .failed what none => "phictl: " ++ what
  | .failed what (some errno) =>
      "phictl: " ++ what ++ ": " ++ strerror errno ++ " (os error " ++ toString errno ++ ")"

/-! ## the outside -/

/-- What a read returns: no more than so many and one of the bytes there are, or
an error. -/
inductive Got where
  | upTo (n : Nat)
  | failed (errno : Nat)

/-- What the system calls of one turn return; a socket that reads nothing was
closed by the daemon. -/
structure Calls where
  opened : Option Nat
  mode : UInt32
  socket : Option Nat
  connected : Option Nat
  file : Got
  recv : Option Got
  write : Option IoError

/-! ## state -/

inductive Stage where
  | opening
  | sending (total : UInt64)
  | waiting (total : UInt64)
  | receiving
  | exited (r : Report)

/-- The client: of a put, what is left of the local file; of a get, the local
file once it is opened. -/
structure Client where
  verb : Verb
  socketPath : String
  stage : Stage
  file : List UInt8
  dst : Option (List UInt8)
  dec : Dec

def Client.start (verb : Verb) (socketPath : String) (bytes : List UInt8) (cells : Nat → UInt8) :
    Client := ⟨verb, socketPath, .opening, bytes, none, .init cells⟩

namespace Client

/-- `fail`, `fail_neg` and the other exits. -/
def exit (r : Report) (x : Client) : Client := { x with stage := .exited r }

/-! ## sending -/

/-- `send_tx`, and where the client goes on. -/
def sendTx (c : Calls) (m : Msg) (next : Stage) (x : Client) : Client × List Msg :=
  match c.write with
  | none => ({ x with stage := next }, [m])
  | some _ => (x.exit (.failed "writing to the control socket" none), [])

/-- `connect_socket`, then the first frame. -/
def connect (c : Calls) (m : Msg) (next : Stage) (x : Client) : Client × List Msg :=
  match c.socket with
  | some errno => (x.exit (.failed "socket" (some errno)), [])
  | none => match c.connected with
      | some errno => (x.exit (.failed ("connecting to " ++ x.socketPath ++
          " (is `phictl boot --serve` running, and are you its --owner?)") (some errno)), [])
      | none => x.sendTx c m next

/-- `cmd_put` and `cmd_get` up to their loops. -/
def openTransfer (c : Calls) (x : Client) : Client × List Msg :=
  match x.verb with
  | .put src dst mode => match c.opened with
      | some errno => (x.exit (.failed src (some errno)), [])
      | none => x.connect c (.putOpen dst (mode.getD (c.mode &&& 0o7777))) (.sending 0)
  | .get src _ => x.connect c (.get src) .receiving

/-- The loop of `cmd_put`: the next of the file, or PutClose at its end. -/
def sendNext (c : Calls) (total : UInt64) (x : Client) : Client × List Msg :=
  match c.file with
  | .failed errno =>
      if errno = eintr then (x, [])
      else match x.verb with
        | .put src .. | .get src _ => (x.exit (.failed src (some errno)), [])
  | .upTo n =>
      let data := x.file.take (min (n + 1) readChunk)
      if data = [] then x.sendTx c .putClose (.waiting total)
      else ({ x with file := x.file.drop data.length } : Client).sendTx c (.putData data)
        (.sending (total + UInt64.ofNat data.length))

/-! ## receiving -/

/-- A round of `recv_frame`: a frame found, or a read of the socket. -/
def recvFrame (c : Calls) (down : List UInt8) (x : Client) :
    Client × Option Msg × List UInt8 :=
  match x.dec.next with
  | some (.frame tag body, dec) => match decodeBody tag body with
      | .ok m => ({ x with dec }, some m, down)
      | .error _ => (x.exit (.failed "the daemon sent a frame phi-rpc rejects" none), none, down)
  | some _ => (x.exit (.failed "the daemon sent a frame phi-rpc rejects" none), none, down)
  | none => match c.recv with
      | none => (x.exit (.failed "the daemon closed the connection" none), none, down)
      | some (.failed errno) =>
          if errno = eintr then (x, none, down)
          else (x.exit (.failed "reading the control socket" (some errno)), none, down)
      | some (.upTo n) =>
          let chunk := down.take (min (n + 1) (min readChunk x.dec.space))
          ({ x with dec := x.dec.push chunk }, none, down.drop chunk.length)

/-- The reply of a put. -/
def putReply (total : UInt64) (m : Msg) (x : Client) : Client :=
  match m with
  | .exit code => if code = 0 then x.exit (.done total) else x.exit (.status code)
  | .error text => x.exit (.error text)
  | m => x.exit (.unexpected m.tag)

/-- `open_dst`, unless the local file is open. -/
def withDst (c : Calls) (f : List UInt8 → Client) (x : Client) : Client :=
  match x.dst with
  | some bytes => f bytes
  | none => match c.opened with
      | none => f []
      | some errno => match x.verb with
          | .put _ dst _ | .get _ dst => x.exit (.failed dst (some errno))

/-- A reply of a get. -/
def getReply (c : Calls) (m : Msg) (x : Client) : Client :=
  match m with
  | .getData data => x.withDst c fun bytes => match c.write with
      | none => { x with dst := some (bytes ++ data) }
      | some _ =>
          ({ x with dst := some bytes } : Client).exit (.failed "writing the local file" none)
  | .getEnd size => x.withDst c fun bytes =>
      ({ x with dst := some bytes } : Client).exit (.done size)
  | .error text => x.exit (.error text)
  | m => x.exit (.unexpected m.tag)

/-- One turn: the client, the frames it sent, and the bytes still on their way
to it. -/
def turn (c : Calls) (down : List UInt8) (x : Client) : Client × List Msg × List UInt8 :=
  match x.stage with
  | .opening => let (x, sent) := x.openTransfer c; (x, sent, down)
  | .sending total => let (x, sent) := x.sendNext c total; (x, sent, down)
  | .waiting total => match x.recvFrame c down with
      | (x, some m, down) => (x.putReply total m, [], down)
      | (x, none, down) => (x, [], down)
  | .receiving => match x.recvFrame c down with
      | (x, some m, down) => (x.getReply c m, [], down)
      | (x, none, down) => (x, [], down)
  | .exited _ => (x, [], down)

end Client

end Phi.Xfer
