import Phi.Lib.Reader
import Phi.Lib.Utf8
import Phi.Serve.Tag

/-!
# Phi.Rpc.Msg

Messages of the rpc channel, as `phi-rpc` encodes and decodes them.

A frame is a 32-bit length, a tag byte and a body.  Strings carry a 16-bit
length and lists a 16-bit count, and the encoder clips both to what these can
say.  Rust's strings are Lean's, both being UTF-8.
-/

namespace Phi.Rpc

open Phi.Serve Utf8

/-! ## limits -/

/-- Largest frame: tag and body. -/
def maxFrame : Nat := 1 <<< 20
def maxString : Nat := 65535
def maxList : Nat := 65535

/-! ## messages -/

structure CpuStat where
  core : UInt16
  busy : UInt32
  idle : UInt32
deriving DecidableEq

structure MemStat where
  totalKb : UInt64
  availKb : UInt64
  buffersKb : UInt64
  cachedKb : UInt64
  swapTotalKb : UInt64
  swapFreeKb : UInt64
deriving DecidableEq

/-- A device's two byte counters. -/
structure DevStat where
  name : String
  read : UInt64
  written : UInt64
deriving DecidableEq

structure ProcStat where
  pid : UInt32
  state : UInt8
  kthread : Bool
  ticks : UInt64
  rssKb : UInt64
  threads : UInt32
  comm : String
deriving DecidableEq

/-- One sample of the card's state. -/
structure Stat where
  uptimeMs : UInt64
  cpus : List CpuStat
  mem : MemStat
  load : UInt16 × UInt16 × UInt16
  running : UInt32
  tasks : UInt32
  temps : List Int16
  tempPeak : Int16
  vcoreMv : UInt32
  coreMhz : UInt32
  disks : List DevStat
  nets : List DevStat
  procs : List ProcStat
  nprocs : UInt32
  nkthreads : UInt32
deriving DecidableEq

structure Traffic where
  dmaToCard : UInt64
  dmaFromCard : UInt64
  apertureToCard : UInt64
  apertureFromCard : UInt64
  dmaCopiesToCard : UInt64
  dmaCopiesFromCard : UInt64
deriving DecidableEq

inductive Msg where
  | exec (argv : List String) (env : List (String × String)) (cwd : Option String)
  | stdin (data : List UInt8)
  | stdinEof
  | stdout (data : List UInt8)
  | stderr (data : List UInt8)
  | exit (code : Int32)
  | putOpen (path : String) (mode : UInt32)
  | putData (data : List UInt8)
  | putClose
  | get (path : String)
  | getData (data : List UInt8)
  | getEnd (size : UInt64)
  | error (text : String)
  | ping
  | pong (version : String)
  | sensors
  | sensorsReply (text : String)
  | stat
  | statReply (stat : Stat)
  | traffic
  | trafficReply (traffic : Traffic)
deriving DecidableEq

/-- Why a frame could not be decoded. -/
inductive DecodeError where
  | length (n : Nat)
  | tag (t : UInt8)
  | malformed
deriving DecidableEq

/-! ## encoding -/

def putU16 (v : UInt16) : List UInt8 := leBytes 2 v.toNat
def putU32 (v : UInt32) : List UInt8 := leBytes 4 v.toNat
def putU64 (v : UInt64) : List UInt8 := leBytes 8 v.toNat

/-- `put_count`: the clipped count, and how many items follow. -/
def putCount (n : Nat) : List UInt8 × Nat :=
  let n := min n maxList
  (putU16 (UInt16.ofNat n), n)

/-- A list: its count, then as many of its items. -/
def putList {α : Type} (put : α → List UInt8) (xs : List α) : List UInt8 :=
  let (count, n) := putCount xs.length
  count ++ (xs.take n).flatMap put

/-- `is_char_boundary`: the ends, and every byte that starts a character. -/
def isCharBoundary (bs : List UInt8) (i : Nat) : Bool :=
  match bs[i]? with
  | some b => i = 0 ∨ isTail b = false
  | none => i = bs.length

/-- The last boundary at or before `i`. -/
def boundaryFrom (bs : List UInt8) : Nat → Nat
  | 0 => 0
  | i + 1 => if isCharBoundary bs (i + 1) then i + 1 else boundaryFrom bs i

/-- `clip`, the bytes of the clipped string. -/
def clip (s : String) (max : Nat) : List UInt8 :=
  let bs := bytes s
  if bs.length ≤ max then bs else bs.take (boundaryFrom bs max)

def putStr (s : String) : List UInt8 :=
  let b := clip s maxString
  putU16 (UInt16.ofNat b.length) ++ b

def putDev (d : DevStat) : List UInt8 := putStr d.name ++ (putU64 d.read ++ putU64 d.written)

def putDevs (ds : List DevStat) : List UInt8 := putList putDev ds

def putCpu (c : CpuStat) : List UInt8 := putU16 c.core ++ (putU32 c.busy ++ putU32 c.idle)

def putMem (m : MemStat) : List UInt8 :=
  putU64 m.totalKb ++ (putU64 m.availKb ++ (putU64 m.buffersKb ++ (putU64 m.cachedKb ++
    (putU64 m.swapTotalKb ++ putU64 m.swapFreeKb))))

def putLoad (l : UInt16 × UInt16 × UInt16) : List UInt8 :=
  putU16 l.1 ++ (putU16 l.2.1 ++ putU16 l.2.2)

def putI16 (v : Int16) : List UInt8 := putU16 v.toUInt16

def putProc (p : ProcStat) : List UInt8 :=
  putU32 p.pid ++ ([p.state] ++ ([if p.kthread then 1 else 0] ++ (putU64 p.ticks ++
    (putU64 p.rssKb ++ (putU32 p.threads ++ putStr p.comm)))))

def putStat (s : Stat) : List UInt8 :=
  putU64 s.uptimeMs ++ (putList putCpu s.cpus ++ (putMem s.mem ++ (putLoad s.load ++
    (putU32 s.running ++ (putU32 s.tasks ++ (putList putI16 s.temps ++ (putI16 s.tempPeak ++
    (putU32 s.vcoreMv ++ (putU32 s.coreMhz ++ (putDevs s.disks ++ (putDevs s.nets ++
    (putList putProc s.procs ++ (putU32 s.nprocs ++ putU32 s.nkthreads)))))))))))))

def putPair (e : String × String) : List UInt8 := putStr e.1 ++ putStr e.2

def putTraffic (t : Traffic) : List UInt8 :=
  putU64 t.dmaToCard ++ (putU64 t.dmaFromCard ++ (putU64 t.apertureToCard ++
    (putU64 t.apertureFromCard ++ (putU64 t.dmaCopiesToCard ++ putU64 t.dmaCopiesFromCard))))

def Msg.tag : Msg → Tag
  | .exec .. => .exec
  | .stdin _ => .stdin
  | .stdinEof => .stdinEof
  | .stdout _ => .stdout
  | .stderr _ => .stderr
  | .exit _ => .exit
  | .putOpen .. => .putOpen
  | .putData _ => .putData
  | .putClose => .putClose
  | .get _ => .get
  | .getData _ => .getData
  | .getEnd _ => .getEnd
  | .error _ => .error
  | .ping => .ping
  | .pong _ => .pong
  | .sensors => .sensors
  | .sensorsReply _ => .sensorsReply
  | .stat => .stat
  | .statReply _ => .statReply
  | .traffic => .traffic
  | .trafficReply _ => .trafficReply

/-- The fields of the message, after the tag. -/
def Msg.fields : Msg → List UInt8
  | .exec argv env cwd => putList putStr argv ++ (putList putPair env ++ putStr (cwd.getD ""))
  | .exit code => putU32 code.toUInt32
  | .putOpen path mode => putStr path ++ putU32 mode
  | .get path => putStr path
  | .getEnd size => putU64 size
  | .error text => putStr text
  | .pong version => putStr version
  | .sensorsReply text => putStr text
  | .statReply s => putStat s
  | .trafficReply t => putTraffic t
  | .stdin data | .stdout data | .stderr data | .putData data | .getData data => data
  | .stdinEof | .putClose | .ping | .sensors | .stat | .traffic => []

/-- `Msg::encode`: the length of tag and fields in 32 bits, then both. -/
def Msg.encode (m : Msg) : List UInt8 :=
  putU32 (UInt32.ofNat (1 + m.fields.length)) ++ m.tag.toByte :: m.fields

/-! ## decoding -/

namespace Read

def u8 : Reader UInt8 := do
  let b ← Reader.take 1
  pure (UInt8.ofNat (ofLe b))

def u16 : Reader UInt16 := do
  let b ← Reader.take 2
  pure (UInt16.ofNat (ofLe b))

def u32 : Reader UInt32 := do
  let b ← Reader.take 4
  pure (UInt32.ofNat (ofLe b))

def u64 : Reader UInt64 := do
  let b ← Reader.take 8
  pure (UInt64.ofNat (ofLe b))

def i16 : Reader Int16 := do
  let v ← u16
  pure v.toInt16

/-- `Reader::str`. -/
def str : Reader String := do
  let n ← u16
  let b ← Reader.take n.toNat
  Reader.check (decode b)

/-- A count, then as many items. -/
def list {α : Type} (item : Reader α) : Reader (List α) := do
  let n ← u16
  Reader.many item n.toNat

def dev : Reader DevStat := do
  let name ← str
  let read ← u64
  let written ← u64
  pure { name, read, written }

def devs : Reader (List DevStat) := list dev

def cpu : Reader CpuStat := do
  let core ← u16
  let busy ← u32
  let idle ← u32
  pure { core, busy, idle }

def mem : Reader MemStat := do
  let totalKb ← u64
  let availKb ← u64
  let buffersKb ← u64
  let cachedKb ← u64
  let swapTotalKb ← u64
  let swapFreeKb ← u64
  pure { totalKb, availKb, buffersKb, cachedKb, swapTotalKb, swapFreeKb }

def load : Reader (UInt16 × UInt16 × UInt16) := do
  let one ← u16
  let five ← u16
  let fifteen ← u16
  pure (one, five, fifteen)

def proc : Reader ProcStat := do
  let pid ← u32
  let state ← u8
  let kthread ← u8
  let ticks ← u64
  let rssKb ← u64
  let threads ← u32
  let comm ← str
  pure { pid, state, kthread := kthread ≠ 0, ticks, rssKb, threads, comm }

/-- `Reader::stat`. -/
def stat : Reader Stat := do
  let uptimeMs ← u64
  let cpus ← list cpu
  let mem ← mem
  let load ← load
  let running ← u32
  let tasks ← u32
  let temps ← list i16
  let tempPeak ← i16
  let vcoreMv ← u32
  let coreMhz ← u32
  let disks ← devs
  let nets ← devs
  let procs ← list proc
  let nprocs ← u32
  let nkthreads ← u32
  pure { uptimeMs, cpus, mem, load, running, tasks, temps, tempPeak, vcoreMv, coreMhz, disks, nets,
         procs, nprocs, nkthreads }

def pair : Reader (String × String) := do
  let k ← str
  let v ← str
  pure (k, v)

def exec : Reader Msg := do
  let argv ← list str
  let env ← list pair
  let cwd ← str
  pure (.exec argv env (if cwd = "" then none else some cwd))

def exit : Reader Msg := do
  let code ← u32
  pure (.exit code.toInt32)

def putOpen : Reader Msg := do
  let path ← str
  let mode ← u32
  pure (.putOpen path mode)

def traffic : Reader Traffic := do
  let dmaToCard ← u64
  let dmaFromCard ← u64
  let apertureToCard ← u64
  let apertureFromCard ← u64
  let dmaCopiesToCard ← u64
  let dmaCopiesFromCard ← u64
  pure { dmaToCard, dmaFromCard, apertureToCard, apertureFromCard, dmaCopiesToCard,
         dmaCopiesFromCard }

/-- The fields of a message with this tag. -/
def fields : Tag → Reader Msg
  | .exec => exec
  | .stdin => do let d ← Reader.rest; pure (.stdin d)
  | .stdinEof => pure .stdinEof
  | .stdout => do let d ← Reader.rest; pure (.stdout d)
  | .stderr => do let d ← Reader.rest; pure (.stderr d)
  | .exit => exit
  | .putOpen => putOpen
  | .putData => do let d ← Reader.rest; pure (.putData d)
  | .putClose => pure .putClose
  | .get => do let path ← str; pure (.get path)
  | .getData => do let d ← Reader.rest; pure (.getData d)
  | .getEnd => do let size ← u64; pure (.getEnd size)
  | .error => do let text ← str; pure (.error text)
  | .ping => pure .ping
  | .pong => do let version ← str; pure (.pong version)
  | .sensors => pure .sensors
  | .sensorsReply => do let text ← str; pure (.sensorsReply text)
  | .stat => pure .stat
  | .statReply => do let s ← stat; pure (.statReply s)
  | .traffic => pure .traffic
  | .trafficReply => do let t ← traffic; pure (.trafficReply t)

end Read

/-- `Msg::decode_body`; bytes after the last field are ignored. -/
def decodeBody (tag : UInt8) (body : List UInt8) : Except DecodeError Msg :=
  match Tag.ofByte tag with
  | none => .error (.tag tag)
  | some t => match Read.fields t body with
      | none => .error .malformed
      | some (m, _) => .ok m

/-- `Decoder::next_frame` on the buffered bytes: what it returns and what is
left of them. -/
def nextFrame (buf : List UInt8) : Except DecodeError (Option Msg) × List UInt8 :=
  if buf.length < 4 then (.ok none, buf)
  else
    let len := ofLe (buf.take 4)
    if len = 0 ∨ maxFrame < len then (.error (.length len), [])
    else if buf.length < 4 + len then (.ok none, buf)
    else
      ((decodeBody (buf.getD 4 0) ((buf.take (4 + len)).drop 5)).map some, buf.drop (4 + len))

end Phi.Rpc
