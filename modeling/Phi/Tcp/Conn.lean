import Phi.Lib.Circular
import Phi.Ring.Copy

/-!
# Phi.Tcp.Conn

The forwarder's TCP connection (`tcp.S`): the record a connection keeps, the
segments it receives and sends, and what its routines do to the outside.

Sequence numbers are 32-bit words, the buffer indices 64-bit words; both are
used modulo their width, as the code does.  The two buffers are rings of
64 KiB indexed modulo their size.

Besides the connection each routine returns its effects in order.  Some are
visible outside (segments, host socket calls); the others note, for the
statements about runs, what happened to the connection on the way: payload
taken into the receive ring, a FIN taken or sent, and the three ways a
connection may be broken off.
-/

namespace Phi.Tcp

/-! ## constants -/

def mss : Nat := 1460
def sndCap : Nat := 65536
def rcvCap : Nat := 65536
def rtoMs : Nat := 200
def rtoMaxMs : Nat := 3000
def maxRetries : Nat := 12
def sendQuota : Nat := 16

def tcpFin : BitVec 8 := 1#8
def tcpSyn : BitVec 8 := 2#8
def tcpRst : BitVec 8 := 4#8
def tcpPsh : BitVec 8 := 8#8
def tcpAck : BitVec 8 := 16#8

/-! ## the record -/

/-- The states of a table slot. -/
inductive State where
  | free
  | synSent
  | established
  | finWait1
  | finWait2
  | closeWait
  | lastAck
  | closing
  | closed
deriving DecidableEq, Repr

/-- One connection.  `finSeq` is 0 while no FIN was sent. -/
structure Conn where
  state : State
  fd : Int
  lport : Nat
  rport : Nat
  sndUna : W32
  sndNxt : W32
  rcvNxt : W32
  sndWnd : Nat
  sbHead : W64
  sbTail : W64
  rtoAt : Nat
  retries : Nat
  hostEof : Bool
  cardEof : Bool
  finSeq : W32
  rbHead : W64
  rbTail : W64
  rto : Nat
  hostShut : Bool
  advWnd : Nat
  sndBuf : Nat → UInt8
  rcvBuf : Nat → UInt8

namespace Conn

/-- Bytes in the send ring. -/
def sbUsed (c : Conn) : Nat := (c.sbTail - c.sbHead).toNat

/-- Bytes in the receive ring. -/
def rbUsed (c : Conn) : Nat := (c.rbTail - c.rbHead).toNat

/-- Room in the receive ring: `RCVCAP` less what is there, as a 64-bit word. -/
def rbFree (c : Conn) : Nat := (BitVec.ofNat 64 rcvCap - (c.rbTail - c.rbHead)).toNat

/-- Sequence numbers sent and not acknowledged. -/
def inFlight (c : Conn) : W32 := c.sndNxt - c.sndUna

end Conn

/-! ## segments and effects -/

/-- A segment received: the fields `tcp_in` reads.  The payload is what
follows the header, inside one IP packet. -/
structure Segment where
  srcPort : Nat
  dstPort : Nat
  seq : W32
  ackNo : W32
  flags : BitVec 8
  wnd : Nat
  payload : List UInt8
  payload_le : payload.length ≤ 65535

/-- The flag is set. -/
def Segment.has (s : Segment) (flag : BitVec 8) : Bool := s.flags &&& flag ≠ 0#8

/-- A segment sent. -/
structure OutSegment where
  seq : W32
  ackNo : W32
  flags : BitVec 8
  wnd : Nat
  payload : List UInt8
deriving DecidableEq, Repr

/-- What a routine does besides changing the connection. -/
inductive Effect where
  | emit (s : OutSegment)
  | hostWrite (bs : List UInt8)
  | hostRead (bs : List UInt8)
  | shutWr
  | shutRdWr
  | closeFd
  /-- payload taken into the receive ring, `rcvNxt` passing it -/
  | stored (bs : List UInt8)
  /-- the peer's FIN taken, `rcvNxt` passing it -/
  | finTaken
  /-- our FIN given its sequence number and sent -/
  | finSent
  /-- a reset from the card -/
  | reset
  /-- the host socket refused a write -/
  | hostFailed
  /-- the retransmission limit reached -/
  | gaveUp
deriving DecidableEq, Repr

/-- Outcome of a routine: the connection, the effects in order, and whether
it reports movement. -/
structure Res where
  conn : Conn
  effects : List Effect
  moved : Bool

namespace Res

/-- A routine that only changes the connection. -/
def pure (c : Conn) : Res := ⟨c, [], false⟩

/-- One routine after another. -/
def bind (r : Res) (f : Conn → Res) : Res :=
  let r' := f r.conn
  ⟨r'.conn, r.effects ++ r'.effects, r.moved || r'.moved⟩

@[simp] theorem conn_pure (c : Conn) : (pure c).conn = c := rfl
@[simp] theorem effects_pure (c : Conn) : (pure c).effects = [] := rfl
@[simp] theorem conn_bind (r : Res) (f : Conn → Res) : (r.bind f).conn = (f r.conn).conn := rfl
@[simp] theorem effects_bind (r : Res) (f : Conn → Res) :
    (r.bind f).effects = r.effects ++ (f r.conn).effects := rfl

end Res

/-! ## clock -/

/-- What `clock_gettime` fills in. -/
structure Timespec where
  sec : Nat
  nsec : Nat
deriving DecidableEq, Repr

/-- `now_ms`: the clock in milliseconds. -/
def nowMs (t : Timespec) : Nat := t.nsec / 1000000 + t.sec * 1000

/-- What `now_ms` leaves in `edx`: the remainder of its division of the
nanoseconds by a million. -/
def nowMsEdx (t : Timespec) : W32 := BitVec.ofNat 32 (t.nsec % 1000000)

/-! ## sending -/

/-- The window a segment advertises: the room in the receive ring. -/
def Conn.window (c : Conn) : Nat := min c.rbFree 65535

/-- `tcp_send_segment`: nothing before the card's MAC is known. -/
def sendSegment (mac : Bool) (flags : BitVec 8) (payload : List UInt8) (seq : W32) (c : Conn) :
    Res :=
  if mac then
    ⟨{ c with advWnd := c.window }, [.emit ⟨seq, c.rcvNxt, flags, c.window, payload⟩], false⟩
  else .pure c

/-- `arm_rto`: the deadline `rto` from now. -/
def armRto (t : Timespec) (c : Conn) : Conn := { c with rtoAt := nowMs t + c.rto }

/-- A bare ACK that restates what is expected. -/
def sendAck (mac : Bool) (c : Conn) : Res := sendSegment mac tcpAck [] c.sndNxt c

/-- `send_syn`: the SYN with the retransmission timer armed. -/
def sendSyn (mac : Bool) (t : Timespec) (c : Conn) : Res :=
  (sendSegment mac tcpSyn [] c.sndUna c).bind fun c => .pure (armRto t c)

/-! ## opening -/

/-- The initial sequence number `tcp_connect` takes from the clock. -/
def issOf (us : Nat) : W32 := (BitVec.ofNat 32 us <<< 7) ^^^ 0x5a5a1234#32

/-- `tcp_connect` in the slot `old`, with the initial sequence number `iss`.
The buffers and the last advertised window keep what the slot held. -/
def openConn (old : Conn) (fd : Int) (lport rport : Nat) (iss : W32) : Conn :=
  { old with
    state := .synSent, fd := fd, lport := lport, rport := rport
    sndUna := iss, sndNxt := iss + 1#32, rcvNxt := 0#32, sndWnd := mss
    sbHead := 0#64, sbTail := 0#64, rbHead := 0#64, rbTail := 0#64
    retries := 0, hostEof := false, cardEof := false, finSeq := 0#32
    hostShut := false, rto := rtoMs }

/-- A table slot never used. -/
def emptySlot : Conn where
  state := .free
  fd := -1
  lport := 0
  rport := 0
  sndUna := 0#32
  sndNxt := 0#32
  rcvNxt := 0#32
  sndWnd := 0
  sbHead := 0#64
  sbTail := 0#64
  rtoAt := 0
  retries := 0
  hostEof := false
  cardEof := false
  finSeq := 0#32
  rbHead := 0#64
  rbTail := 0#64
  rto := 0
  hostShut := false
  advWnd := 0
  sndBuf := fun _ => 0
  rcvBuf := fun _ => 0

/-- `tcp_connect`: the SYN goes out at once. -/
def tcpConnect (old : Conn) (fd : Int) (lport rport us : Nat) (mac : Bool) (t : Timespec) : Res :=
  sendSyn mac t (openConn old fd lport rport (issOf us))

end Phi.Tcp
