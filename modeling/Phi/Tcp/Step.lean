import Phi.Tcp.Input

/-!
# Phi.Tcp.Step

`conn_step`: one connection's turn in a pass of the forwarder.

The turn goes through six parts in order: received bytes to the host socket
(and the host's end of output once the card ended and all is delivered), the
host's bytes into the send ring, segments out within the window and the quota,
our FIN, the retransmission timer, and the end of a closed connection.
-/

namespace Phi.Tcp

open Circular

/-! ## what the host socket and the clock answer -/

/-- Outcome of the write to the host socket: bytes taken, try again, failed. -/
inductive WriteResult where
  | wrote (n : Nat)
  | again
  | failed
deriving DecidableEq, Repr

/-- Outcome of the read from the host socket: bytes (none at its end), try
again, failed. -/
inductive ReadResult where
  | data (bs : List UInt8)
  | again
  | failed
deriving DecidableEq, Repr

/-- What one turn meets outside: whether the card's MAC is known, the host
socket's answers, and the clock at each place that reads it. -/
structure StepIO where
  mac : Bool
  write : WriteResult
  read : ReadResult
  clkSend : Timespec
  clkFin : Timespec
  clkCheck : Timespec
  clkResend : Timespec

/-! ## 1. received bytes to the host -/

/-- A window update when the peer was throttled and half the buffer is free. -/
def windowUpdate (mac : Bool) (c : Conn) : Res :=
  if c.advWnd < rcvCap / 2 ∧ c.rbUsed ≤ rcvCap / 2 ∧
      (c.state = .established ∨ c.state = .finWait1 ∨ c.state = .finWait2) then
    sendAck mac c
  else .pure c

/-- The contiguous piece at the front of the receive ring. -/
def Conn.rbPiece (c : Conn) : Nat := min c.rbUsed (rcvCap - c.rbHead.toNat % rcvCap)

/-- `n` bytes of the piece written: the head moves on, an empty ring restarts
at 0. -/
def Conn.advanceRb (n : Nat) (c : Conn) : Conn :=
  let c := { c with rbHead := c.rbHead + BitVec.ofNat 64 n }
  if c.rbTail = c.rbHead then { c with rbHead := 0#64, rbTail := 0#64 } else c

/-- The write to the host socket.  A failed write aborts the connection. -/
def writeHost (io : StepIO) (c : Conn) : Res :=
  if c.rbUsed = 0 then .pure c
  else match io.write with
    | .wrote n =>
        let n := min n c.rbPiece
        let bs := read c.rcvBuf (c.rbHead.toNat % rcvCap) n
        Res.bind ⟨c.advanceRb n, [.hostWrite bs], true⟩ (windowUpdate io.mac)
    | .again => .pure c
    | .failed =>
        (sendSegment io.mac tcpRst [] c.sndNxt c).bind fun c =>
          ⟨{ c with state := .closed }, [.hostFailed], false⟩

/-- The host's end of output, once the card ended and all is delivered. -/
def shutHost (c : Conn) : Res :=
  if c.cardEof ∧ c.hostShut = false ∧ c.rbTail = c.rbHead then
    ⟨{ c with hostShut := true }, [.shutWr], false⟩
  else .pure c

/-! ## 2. the host's bytes into the send ring -/

/-- The connection still sends data. -/
def Conn.sends (c : Conn) : Bool := c.state = .established || c.state = .closeWait

/-- Room in the send ring, as a 64-bit word. -/
def Conn.sbFree (c : Conn) : Nat := (BitVec.ofNat 64 sndCap - (c.sbTail - c.sbHead)).toNat

/-- The contiguous room at the end of the send ring. -/
def Conn.sbPiece (c : Conn) : Nat := min c.sbFree (sndCap - c.sbTail.toNat % sndCap)

/-- The read from the host socket.  Its end and a failed read both end the
host's side. -/
def readHost (io : StepIO) (c : Conn) : Res :=
  if c.hostEof ∨ c.sends = false ∨ c.sbFree = 0 then .pure c
  else match io.read with
    | .data bs =>
        let bs := bs.take c.sbPiece
        if bs = [] then .pure { c with hostEof := true }
        else ⟨{ c with
            sndBuf := write c.sndBuf (c.sbTail.toNat % sndCap) bs
            sbTail := c.sbTail + BitVec.ofNat 64 bs.length }, [.hostRead bs], true⟩
    | .again => .pure c
    | .failed => .pure { c with hostEof := true }

/-! ## 3. segments out -/

/-- Index in the send ring of the next byte to send. -/
def Conn.nextIndex (c : Conn) : W64 := c.sbHead + c.inFlight.setWidth 64

/-- Bytes in the send ring not sent yet. -/
def Conn.unsent (c : Conn) : Nat := (c.sbTail - c.nextIndex).toNat

/-- Length of the next segment: unsent, inside the window, at most the MSS,
contiguous in the ring. -/
def Conn.nextLen (c : Conn) : Nat :=
  min (min (min c.unsent (c.sndWnd - c.inFlight.toNat)) mss)
    (sndCap - c.nextIndex.toNat % sndCap)

/-- One segment sent; the first byte in flight starts the timer. -/
def sendOne (io : StepIO) (c : Conn) : Res :=
  let n := c.nextLen
  (sendSegment io.mac (tcpAck ||| tcpPsh) (read c.sndBuf (c.nextIndex.toNat % sndCap) n)
      c.sndNxt c).bind fun c =>
    let c := { c with sndNxt := c.sndNxt + BitVec.ofNat 32 n }
    ⟨if c.sndNxt - BitVec.ofNat 32 n = c.sndUna then armRto io.clkSend c else c, [], true⟩

/-- Segments while there are unsent bytes, window and quota. -/
def sendLoop (io : StepIO) : Nat → Conn → Res
  | 0, c => .pure c
  | quota + 1, c =>
      if c.unsent = 0 ∨ c.sndWnd ≤ c.inFlight.toNat then .pure c
      else (sendOne io c).bind (sendLoop io quota)

def sendData (io : StepIO) (c : Conn) : Res :=
  if c.sends then sendLoop io sendQuota c else .pure c

/-! ## 4. our FIN -/

/-- The state once our FIN is out. -/
def finSentState : State → State
  | .closeWait => .lastAck
  | _ => .finWait1

/-- Our FIN once the host ended and everything is sent. -/
def sendFin (io : StepIO) (c : Conn) : Res :=
  if c.hostEof ∧ c.finSeq = 0#32 ∧ c.unsent = 0 ∧ c.sends then
    let c := { c with state := finSentState c.state, finSeq := c.sndNxt }
    (sendSegment io.mac (tcpFin ||| tcpAck) [] c.finSeq c).bind fun c =>
      ⟨armRto io.clkFin { c with sndNxt := c.sndNxt + 1#32 }, [.finSent], false⟩
  else .pure c

/-! ## 5. the retransmission timer -/

/-- Length of the resent segment. -/
def Conn.resendLen (c : Conn) : Nat :=
  min (min c.sbUsed mss) (sndCap - c.sbHead.toNat % sndCap)

/-- Resend from the first unacknowledged byte: the SYN, one segment of data,
or the FIN. -/
def resend (io : StepIO) (c : Conn) : Res :=
  if c.state = .synSent then sendSyn io.mac io.clkResend c
  else if c.sbUsed ≠ 0 then
    (sendSegment io.mac (tcpAck ||| tcpPsh)
        (read c.sndBuf (c.sbHead.toNat % sndCap) c.resendLen) c.sndUna c).bind fun c =>
      .pure (armRto io.clkResend c)
  else if c.finSeq = 0#32 then .pure c
  else
    (sendSegment io.mac (tcpFin ||| tcpAck) [] c.finSeq c).bind fun c =>
      .pure (armRto io.clkResend c)

/-- The timer: past the deadline with something in flight, resend with the
timeout doubled, or give up. -/
def retransmit (io : StepIO) (c : Conn) : Res :=
  if c.sndNxt = c.sndUna ∨ nowMs io.clkCheck < c.rtoAt then .pure c
  else
    let c := { c with retries := c.retries + 1 }
    if maxRetries < c.retries then ⟨{ c with state := .closed }, [.gaveUp], false⟩
    else resend io { c with rto := min (c.rto + c.rto) rtoMaxMs }

/-! ## 6. the end -/

/-- A closed connection ends the host socket and frees its slot. -/
def closeHost (c : Conn) : Res :=
  if c.state = .closed then
    ⟨{ c with state := .free, fd := -1 }, if c.fd < 0 then [.shutRdWr] else [.shutRdWr, .closeFd],
      true⟩
  else .pure c

/-- The parts between the write to the host and the end. -/
def middleParts (io : StepIO) (c : Conn) : Res :=
  ((((shutHost c).bind (readHost io)).bind (sendData io)).bind (sendFin io)).bind (retransmit io)

/-- `conn_step`: a connection already closed, or aborted by the write, goes
straight to the end. -/
def connStep (io : StepIO) (c : Conn) : Res :=
  if c.state = .closed then closeHost c
  else
    let r := writeHost io c
    if r.conn.state = .closed then r.bind closeHost
    else (r.bind (middleParts io)).bind closeHost

/-! ## runs of a connection -/

/-- What happens to a connection: a segment found to be its own, or its turn. -/
inductive Event where
  | segment (s : Segment) (mac : Bool) (t : Timespec)
  | turn (io : StepIO)

/-- A freed slot is neither found by `tcp_in` nor stepped. -/
def Event.apply (c : Conn) : Event → Res
  | .segment s mac t => if c.state = .free then .pure c else tcpIn mac t s c
  | .turn io => if c.state = .free then .pure c else connStep io c

/-- A connection with everything it did so far. -/
structure World where
  conn : Conn
  trace : List Effect

def World.step (w : World) (e : Event) : World :=
  let r := e.apply w.conn
  ⟨r.conn, w.trace ++ r.effects⟩

@[simp] theorem World.conn_step (w : World) (e : Event) :
    (w.step e).conn = (e.apply w.conn).conn := rfl

@[simp] theorem World.trace_step (w : World) (e : Event) :
    (w.step e).trace = w.trace ++ (e.apply w.conn).effects := rfl

end Phi.Tcp
