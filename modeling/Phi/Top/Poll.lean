import Phi.Lib.CString
import Phi.Rpc.Decoders
import Phi.Top.Lookup
import Phi.Top.Sample

/-!
# Phi.Top.Poll

A poll of one card (`request`, `slot_error_*` and `slot_poll` of `main.S`).

Two requests, each over a connection of its own, and the model updated where
both are answered.  A message for the user is written into the slot's record
where it is shown, and cut to its room once it is whole.  Memory is counted
from the start of the slot's record: the record up to the history, and from
`sockaddr` on what lies behind the slots.  A load or a store outside of what is
mapped ends the program (`none`).
-/

namespace Phi.Top

open Rpc Serve Utf8

/-! ## the layout -/

def maxSlots : Nat := 16

def slErrorLen : Nat := 40
def slSocket : Nat := 80
def slError : Nat := 592
def slDerived : Nat := 1024

/-- `DV_SIZE`: the loads, the cores, the two rate tables, the shares and the
worker's rates behind twelve words. -/
def dvSize : Nat :=
  96 + snCpuCap * 4 + 1024 * 24 + snDevCap * 80 + snDevCap * 80 + snProcCap * 4 + 88

def slSeen : Nat := slDerived + dvSize
/-- `SN_SIZE`: the worker's stats line and its mark behind the tables. -/
def snSize : Nat := snVpu + 64 + 8
def slSize : Nat := slSeen + seenCap * 24 + 2 * snSize

/-! ## the slot -/

/-- A slot of the `maxSlots`: its record and what lies behind the slots, the
history, and the snapshot before. -/
structure SlotMem where
  number : Nat
  mem : Nat → UInt8
  mapped : Nat
  seen : SeenTable
  prev : Option Snapshot
  inTable : number < maxSlots
  /-- `tx_buf` is as large as a frame. -/
  room : (maxSlots - number) * slSize + Rpc.maxFrame ≤ mapped

namespace SlotMem

variable (s : SlotMem)

/-- `sockaddr`, behind the slots. -/
def sockaddr : Nat := (maxSlots - s.number) * slSize

/-- The slot's entry of `vpu_maps`. -/
def vpuMap : UInt64 :=
  UInt64.ofNat (ofLe (Circular.read s.mem (s.sockaddr + 120 + 8 * s.number) 8))

def errorLen : Nat := ofLe (Circular.read s.mem slErrorLen 8)

/-- The error text, as the status line shows it. -/
def errorText : List UInt8 := Circular.read s.mem slError s.errorLen

/-- The derived record's bytes. -/
def derived : List UInt8 := Circular.read s.mem slDerived dvSize

end SlotMem

/-! ## messages -/

/-- The error numbers of the kernel. -/
abbrev Errno : Type := Fin 4096

/-- `errno_table`. -/
def errnoTable : List (Nat × String) :=
  [(1, "Operation not permitted"), (2, "No such file or directory"),
   (4, "Interrupted system call"), (5, "Input/output error"), (6, "No such device or address"),
   (9, "Bad file descriptor"), (11, "Resource temporarily unavailable"),
   (12, "Cannot allocate memory"), (13, "Permission denied"), (14, "Bad address"),
   (16, "Device or resource busy"), (17, "File exists"), (19, "No such device"),
   (20, "Not a directory"), (21, "Is a directory"), (22, "Invalid argument"),
   (24, "Too many open files"), (25, "Inappropriate ioctl for device"),
   (28, "No space left on device"), (32, "Broken pipe"), (36, "File name too long"),
   (95, "Operation not supported"), (98, "Address already in use"),
   (104, "Connection reset by peer"), (111, "Connection refused")]

def errnoText (errno : Errno) : String := (errnoTable.lookup errno.val).getD "Unknown error"

/-- `w_oserr`. -/
def oserr (errno : Errno) : List UInt8 :=
  bytes (errnoText errno) ++ bytes " (os error " ++ bytes (toString errno.val) ++ bytes ")"

/-- `msg_names`. -/
def msgName : Tag → String
  | .exec => "Exec"
  | .stdin => "Stdin"
  | .stdinEof => "StdinEof"
  | .stdout => "Stdout"
  | .stderr => "Stderr"
  | .exit => "Exit"
  | .putOpen => "PutOpen"
  | .putData => "PutData"
  | .putClose => "PutClose"
  | .get => "Get"
  | .getData => "GetData"
  | .getEnd => "GetEnd"
  | .error => "Error"
  | .ping => "Ping"
  | .pong => "Pong"
  | .sensors => "Sensors"
  | .sensorsReply => "SensorsReply"
  | .stat => "Stat"
  | .statReply => "StatReply"
  | .traffic => "Traffic"
  | .trafficReply => "TrafficReply"

/-- The write cursor. -/
structure Pen where
  mem : Nat → UInt8
  wp : Nat

/-- `w_bytes`, and `w_cstr` of a text of the program. -/
def Pen.put (p : Pen) (bs : List UInt8) : Pen := ⟨Circular.write p.mem p.wp bs, p.wp + bs.length⟩

/-- `w_cstr` of a string in the same memory. -/
def Pen.cstr (p : Pen) (mapped src : Nat) : Option Pen :=
  (CString.copyText (mapped - p.wp) p.mem src p.wp).map fun (mem, wp) => ⟨mem, wp⟩

/-- At most 400 bytes of a message are shown. -/
def errorCut (n : Nat) : Nat := if n ≤ 400 then n else 400

namespace SlotMem

variable (s : SlotMem)

/-- `slot_error_begin`. -/
def errorBegin : Pen := ⟨s.mem, slError⟩

/-- `slot_error_end`: the text's length cut, and a NUL behind it. -/
def errorEnd (p : Pen) : SlotMem :=
  let len := errorCut (p.wp - slError)
  { s with
    mem := Circular.write (Circular.write p.mem slErrorLen (leBytes 8 len)) (slError + len) [0] }

/-- `slot_error_text`. -/
def errorPut (bs : List UInt8) : SlotMem := s.errorEnd (s.errorBegin.put bs)

/-- `slot_error_os`. -/
def errorOs (what : String) (errno : Errno) : SlotMem :=
  s.errorEnd (((s.errorBegin.put (bytes what)).put (bytes ": ")).put (oserr errno))

end SlotMem

/-! ## a request -/

/-- How a request ends: at one of its exits, or with a reply. -/
inductive Ends where
  | socket (errno : Errno)
  | connect (errno : Errno)
  | write
  | timeout
  | badframe
  | closed
  | read (errno : Errno)
  | reply (tag : UInt8) (body : List UInt8)

/-- What the kernel and the daemon answer: an error number, or what is read in
turn until the time is up. -/
structure Answers where
  socket : Option Errno
  connect : Option Errno
  wrote : Bool
  reqBuf : Nat → UInt8
  reads : List (Except Errno (List UInt8))

/-- What `dec_next` finds. -/
def found (d : Dec) : Option Ends :=
  d.next.map fun x => match x.1 with
    | .frame tag body => .reply tag body
    | _ => .badframe

/-- The loop of `request`: a frame, or one more read. -/
def replied : Dec → List (Except Errno (List UInt8)) → Ends
  | d, [] => (found d).getD .timeout
  | d, .error errno :: _ => (found d).getD (.read errno)
  | d, .ok bs :: more => (found d).getD <|
      match bs.take (min d.space readChunk) with
      | [] => .closed
      | b :: chunk => replied (d.push (b :: chunk)) more

def Answers.ends (a : Answers) : Ends :=
  match a.socket, a.connect with
  | some errno, _ => .socket errno
  | none, some errno => .connect errno
  | none, none => if a.wrote then replied (Dec.init a.reqBuf) a.reads else .write

namespace SlotMem

variable (s : SlotMem)

/-- The path copied into `sockaddr`. -/
def addressed : Option SlotMem :=
  (CString.copyString (s.mapped - (s.sockaddr + 2)) s.mem slSocket (s.sockaddr + 2)).map
    fun mem => { s with mem }

/-- The exits of `request`. -/
def exit : Ends → Option SlotMem
  | .socket errno => some (s.errorOs "socket" errno)
  | .connect errno => do
      let p ← (s.errorBegin.put (bytes "connecting to ")).cstr s.mapped slSocket
      some (s.errorEnd ((p.put (bytes " (is phictl boot --serve running?): ")).put (oserr errno)))
  | .write => some (s.errorPut (bytes "writing the request"))
  | .timeout => some (s.errorPut (bytes "waiting for the daemon's reply: timed out"))
  | .badframe => some (s.errorPut (bytes "the daemon sent a frame phi-rpc rejects"))
  | .closed => some (s.errorPut (bytes "the daemon closed the connection"))
  | .read errno => some (s.errorOs "waiting for the daemon's reply" errno)
  | .reply _ _ => some s

def request (a : Answers) : Option SlotMem :=
  (if a.socket.isNone then s.addressed else some s).bind fun s => s.exit a.ends

/-! ## the poll -/

/-- `slot_vpu_sample`: the stats line of the window mapped for the slot. -/
def vpuSample (stats : UInt64 → Option VpuStats) : Option (Option VpuStats) :=
  if s.vpuMap = 0 then some none else (stats s.vpuMap).map some

/-- Label 5: the daemon's text. -/
def cardError (body : List UInt8) : SlotMem :=
  s.errorEnd ((s.errorBegin.put (bytes "card: ")).put
    ((body.drop 2).take (ofLe (body.take 2))))

/-- Label 6. -/
def unexpected (tag : UInt8) : Option SlotMem :=
  (Tag.ofByte tag).map fun t =>
    s.errorEnd ((s.errorBegin.put (bytes "unexpected reply ")).put (bytes (msgName t)))

/-- The error taken back. -/
def clearError : SlotMem :=
  { s with mem := Circular.write (Circular.write s.mem slErrorLen (leBytes 8 0)) slError [0] }

/-- `model_update` of the slot. -/
def update (lay : Derived → Nat → UInt8) (x : Snapshot) : Except Halt SlotMem := do
  let t ← modelUpdate ⟨s.seen, s.prev, none⟩ x
  let mem := match t.derived with
    | none => s.mem
    | some d => fun i => if slDerived ≤ i ∧ i < slSeen then lay d i else s.mem i
  return { s with mem, seen := t.seen, prev := t.prev }

end SlotMem

/-- What a poll reads besides the replies: the clock, the windows that are
mapped, and how a derived record lies in memory. -/
structure Around where
  atUs : UInt64
  stats : UInt64 → Option VpuStats
  lay : Derived → Nat → UInt8

/-- After a poll: the sample not taken, or the model's update. -/
inductive Polled where
  | kept (s : SlotMem)
  | taken (update : Except Halt SlotMem)

/-- The second half of `slot_poll`. -/
def pollTraffic (o : Around) (s : SlotMem) (stat : Stat) (vpu : Option VpuStats) (b : Answers) :
    Option Polled := do
  let s ← s.request b
  match b.ends with
  | .reply tag body =>
      if tag = Tag.toByte .trafficReply then
        let (traffic, _) ← Read.traffic body
        some (.taken (s.clearError.update o.lay (snapshotDecode o.atUs stat traffic vpu)))
      else (s.unexpected tag).map .kept
  | _ => some (.kept s)

/-- `slot_poll`. -/
def slotPoll (o : Around) (s : SlotMem) (a b : Answers) : Option Polled := do
  let s ← s.request a
  match a.ends with
  | .reply tag body =>
      if tag = Tag.toByte .statReply then
        let (stat, _) ← Read.stat body
        let vpu ← s.vpuSample o.stats
        pollTraffic o s stat vpu b
      else if tag = Tag.toByte .error then some (.kept (s.cardError body))
      else (s.unexpected tag).map .kept
  | _ => some (.kept s)

end Phi.Top
