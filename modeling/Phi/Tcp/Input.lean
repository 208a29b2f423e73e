import Phi.Tcp.Conn

/-!
# Phi.Tcp.Input

`tcp_in`: a segment from the card applied to its connection.

The routine reads the acknowledgement first, then the payload, then the FIN.
Its acknowledgement part keeps the segment's number in `edx` across the call
that arms the retransmission timer, and `now_ms`, which that call reaches,
divides through `edx`; the comparison with the FIN that follows the call
therefore reads what the division left there.
-/

namespace Phi.Tcp

open Circular

/-! ## the header -/

/-- A big-endian 16-bit field. -/
def be16 (b : List UInt8) (i : Nat) : Nat :=
  (b.getD i 0).toNat * 256 + (b.getD (i + 1) 0).toNat

/-- A big-endian 32-bit field. -/
def be32 (b : List UInt8) (i : Nat) : W32 := BitVec.ofNat 32 (be16 b i * 65536 + be16 b (i + 2))

/-- `tcp_in`, parsing: `b` is the TCP header and what follows it in one IP
packet.  A header length past the end makes no sense and is dropped. -/
def parseSegment (b : List UInt8) : Option Segment :=
  let hdr := (b.getD 12 0).toNat / 16 * 4
  if h : hdr ≤ b.length ∧ b.length ≤ 65535 then
    some ⟨be16 b 0, be16 b 2, be32 b 4, be32 b 8, BitVec.ofNat 8 (b.getD 13 0).toNat, be16 b 14,
      b.drop hdr, by rw [List.length_drop]; omega⟩
  else none

/-! ## the acknowledgement -/

/-- The sequence numbers a segment newly acknowledges. -/
def Conn.acked (c : Conn) (s : Segment) : W32 := s.ackNo - c.sndUna

/-- The acknowledgement is taken: flagged, inside what is in flight, and new. -/
def Conn.takesAck (c : Conn) (s : Segment) : Bool :=
  s.has tcpAck && c.acked s ≤ c.inFlight && c.acked s ≠ 0#32

/-- The code's test that the acknowledgement covers the FIN: both words
compared as plain numbers, 0 standing for no FIN. -/
def Conn.countsFin (c : Conn) (s : Segment) : Bool :=
  c.finSeq ≠ 0#32 && !(s.ackNo ≤ c.finSeq)

/-- The state change on the FIN's acknowledgement. -/
def finAckedState : State → State
  | .finWait1 => .finWait2
  | .closing => .closed
  | .lastAck => .closed
  | st => st

/-- The comparison that decides the state change, on what `edx` holds after
the timer was armed. -/
def Conn.finAckSeen (c : Conn) (t : Timespec) : Bool :=
  c.finSeq ≠ 0#32 && nowMsEdx t = c.finSeq + 1#32

/-- The bytes a segment newly acknowledges: the FIN, when counted, is none. -/
def Conn.ackedBytes (c : Conn) (s : Segment) : W32 :=
  if c.countsFin s then c.acked s - 1#32 else c.acked s

/-- New data acknowledged: the send ring's head moves on. -/
def Conn.ackTo (s : Segment) (c : Conn) : Conn :=
  { c with
    sndUna := s.ackNo, sbHead := c.sbHead + (c.ackedBytes s).setWidth 64
    retries := 0, rto := rtoMs }

/-- The acknowledgement part of `tcp_in`. -/
def applyAck (s : Segment) (t : Timespec) (c : Conn) : Conn :=
  if s.has tcpAck then
    let c := { c with sndWnd := s.wnd }
    if c.takesAck s then
      let c := armRto t (c.ackTo s)
      if c.finAckSeen t then { c with state := finAckedState c.state } else c
    else c
  else c

/-! ## payload and FIN -/

/-- The state change on the peer's FIN. -/
def finTakenState : State → State
  | .established => .closeWait
  | .finWait1 => .closing
  | .finWait2 => .closed
  | st => st

/-- Payload in order: what fits is appended to the receive ring. -/
def storePayload (s : Segment) (c : Conn) : Res :=
  let n := min s.payload.length c.rbFree
  if n = 0 then .pure c
  else
    let bs := s.payload.take n
    ⟨{ c with
        rcvBuf := writeWrap c.rcvBuf rcvCap c.rbTail.toNat bs
        rbTail := c.rbTail + BitVec.ofNat 64 n
        rcvNxt := c.rcvNxt + BitVec.ofNat 32 n }, [.stored bs], false⟩

/-- A FIN in order, after every byte the segment carried. -/
def takeFin (s : Segment) (c : Conn) : Res :=
  if s.has tcpFin && s.seq + BitVec.ofNat 32 s.payload.length = c.rcvNxt then
    ⟨{ c with
        rcvNxt := c.rcvNxt + 1#32, cardEof := true, state := finTakenState c.state },
      [.finTaken], false⟩
  else .pure c

/-- The payload part of `tcp_in`: in order it is taken and acknowledged when
anything of it was; out of order an ACK restates what is expected. -/
def applyPayload (mac : Bool) (s : Segment) (c : Conn) : Res :=
  if s.seq = c.rcvNxt then
    let r := (storePayload s c).bind (takeFin s)
    if r.effects = [] then r else r.bind (sendAck mac)
  else sendAck mac c

/-! ## tcp_in -/

/-- The handshake: a SYN-ACK that acknowledges our SYN establishes. -/
def applySynAck (mac : Bool) (s : Segment) (c : Conn) : Res :=
  if s.has tcpSyn && s.has tcpAck && s.ackNo = c.sndNxt then
    sendAck mac { c with
      rcvNxt := s.seq + 1#32, sndUna := c.sndNxt, sndWnd := s.wnd
      state := .established, retries := 0, rto := rtoMs }
  else .pure c

/-- `tcp_in` on the connection found for the segment. -/
def tcpIn (mac : Bool) (t : Timespec) (s : Segment) (c : Conn) : Res :=
  if s.has tcpRst then ⟨{ c with state := .closed, cardEof := true }, [.reset], false⟩
  else if c.state = .synSent then applySynAck mac s c
  else applyPayload mac s (applyAck s t c)

end Phi.Tcp
