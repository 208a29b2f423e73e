import Phi.Blk.Queue
import Phi.Disk.Dma
import Phi.Lib.Circular

/-!
# Phi.Disk.Service

The host's block service (`disk.S`): one pass of `blk_step`.

A pass answers the copies the engine finished, pops a record, and either
submits it (a read or write of host memory over the engine) or lets the
pipeline drain and serves it on the spot.  Records in flight lie in a circular
area of 64 entries, oldest at the tail index.  The two indices are 64-bit
counts, natural numbers here.
-/

namespace Phi.Disk

open Phi.Ring Blk Circular

/-! ## constants -/

def ifSize : Nat := 64
def opIdent : W32 := 3#32
def statusEio : W32 := 5#32
def statusEinval : W32 := 22#32
def statusEopnotsupp : W32 := 95#32

/-! ## the service -/

inductive Backend where
  | file
  | ram
deriving DecidableEq, Repr

inductive Path where
  | dma
  | aperture
deriving DecidableEq, Repr

/-- An entry of the in-flight area: tag and copy number, and which record of
the ring it is, which the program does not keep. -/
structure Entry where
  tag : W32
  seq : Nat
  num : Nat
deriving DecidableEq, Repr

/-- A completion pushed to the card, with the record it answers. -/
structure Answer where
  num : Nat
  tag : W32
  status : W32
deriving DecidableEq, Repr

/-- A service, the records it popped and the answers it gave so far. -/
structure Service where
  backend : Backend
  path : Path
  capacity : Nat
  ramCard : W64
  staging : W64
  bounce : Bool
  chan : Chan
  entries : Nat → Entry
  ifHead : Nat
  ifTail : Nat
  records : List Record
  answers : List Answer

/-- `blk_open`: nothing in flight, `copies` copies made by the self-test. -/
def blkOpen (backend : Backend) (path : Path) (capacity : Nat) (ramCard staging : W64)
    (bounce : Bool) (copies : Nat) (progress : W64) : Service where
  backend := backend
  path := path
  capacity := capacity
  ramCard := ramCard
  staging := staging
  bounce := bounce
  chan := ⟨copies, copies, 0, progress⟩
  entries := fun _ => ⟨0#32, 0, 0⟩
  ifHead := 0
  ifTail := 0
  records := []
  answers := []

/-- A read or write of host memory over the engine. -/
def Service.pipelined (s : Service) (r : Record) : Bool :=
  s.backend = .ram ∧ s.path = .dma ∧ r.op ≤ opWrite

/-- `complete`. -/
def Service.complete (num : Nat) (tag status : W32) (s : Service) : Service :=
  { s with answers := s.answers ++ [⟨num, tag, status⟩] }

/-- The loop of `complete_done` and `fail_all`: entries from the tail on are
answered while they are done. -/
def Service.answerFrom (isDone : Entry → Bool) (status : W32) : Nat → Service → Service
  | 0, s => s
  | n + 1, s =>
      let e := s.entries (s.ifTail % ifSize)
      if isDone e then
        answerFrom isDone status n
          (({ s with ifTail := s.ifTail + 1 } : Service).complete e.num e.tag status)
      else s

/-- `complete_done`: every record whose copy is done. -/
def Service.completeDone (seq : Nat) (s : Service) : Service :=
  s.answerFrom (fun e => e.seq ≤ seq) 0#32 (s.ifHead - s.ifTail)

/-- `fail_all`: every record in flight. -/
def Service.failAll (s : Service) : Service :=
  s.answerFrom (fun _ => true) statusEio (s.ifHead - s.ifTail)

/-! ## a pass -/

/-- What a pass meets outside: the engine at each place that looks at it, the
record popped (none when the ring holds no whole record), the clock, and
whether the store's own reads, writes and syncs succeed. -/
structure Pass where
  poll : Reading
  record : Option Record
  room : List Reading
  drain : List Reading
  copy : List Reading
  now : W64
  store : Bool

/-- The look at the engine at the top of the pass. -/
def Service.topPoll (r : Reading) (s : Service) : Service :=
  if s.ifTail = s.ifHead ∨ s.path ≠ .dma then s
  else match dmaPoll r s.chan with
    | (c, some done) => ({ s with chan := c } : Service).completeDone done
    | (c, none) => ({ s with chan := c } : Service).failAll

/-- `ring_pop` of one record: its number in the order of the ring. -/
def Service.pop (r : Record) (s : Service) : Service := { s with records := s.records ++ [r] }

/-- The card address of a record's place in the window. -/
def Service.window (r : Record) (s : Service) : W64 := (r.sector <<< 9) + s.ramCard

/-- `submit_ram`; `num` is the record's number. -/
def Service.submitRam (p : Pass) (num : Nat) (r : Record) (s : Service) : Option Service :=
  match checkRecord s.capacity r with
  | none => some (s.complete num r.tag statusEinval)
  | some len =>
      let (src, dst) := if r.op = opRead then (s.window r, r.phys) else (r.phys, s.window r)
      match dmaSubmit p.room p.now src dst len s.chan with
      | none => none
      | some (c, none) => some (({ s with chan := c } : Service).complete num r.tag statusEio)
      | some (c, some seq) =>
          some { s with
            chan := c
            entries := write s.entries (s.ifHead % ifSize) [⟨r.tag, seq, num⟩]
            ifHead := s.ifHead + 1 }

/-- The entry the drain waits for: the one before the tail. -/
def Service.drainSeq (s : Service) : Nat := (s.entries ((s.ifTail + 63) % ifSize)).seq

/-- The drain before any other record. -/
def Service.drain (p : Pass) (s : Service) : Option Service :=
  if s.ifTail = s.ifHead then some s
  else match dmaWait s.drainSeq p.drain s.chan with
    | none => none
    | some (c, true) => some (({ s with chan := c } : Service).completeDone s.drainSeq)
    | some (c, false) => some (({ s with chan := c } : Service).failAll)

/-- `do_read`: the file through the staging buffer and the engine, or anything
through the aperture. -/
def Service.doRead (p : Pass) (r : Record) (len : Nat) (s : Service) : Option (Service × Bool) :=
  if s.backend = .ram then some (s, true)
  else if p.store = false then some (s, false)
  else if s.path = .dma then
    (dmaCopy p.room p.copy p.now s.staging r.phys len s.chan).map fun (c, ok) =>
      ({ s with chan := c }, ok)
  else some (s, true)

/-- `do_write`. -/
def Service.doWrite (p : Pass) (r : Record) (len : Nat) (s : Service) :
    Option (Service × Bool) :=
  if s.backend = .ram then some (s, true)
  else if s.path = .dma then
    (dmaCopy p.room p.copy p.now r.phys s.staging len s.chan).map fun (c, ok) =>
      ({ s with chan := c }, ok && p.store)
  else some (s, p.store)

/-- `serve_one`: the completion status. -/
def Service.serveOne (p : Pass) (r : Record) (s : Service) : Option (Service × W32) :=
  if r.op = opIdent then some (s, BitVec.ofNat 32 (min s.capacity 0xffffffff))
  else if r.op = opFlush then
    some (s, if s.backend = .file ∧ p.store = false then statusEio else 0#32)
  else if opWrite < r.op then some (s, statusEopnotsupp)
  else match checkRecord s.capacity r with
    | none => some (s, statusEinval)
    | some len =>
        (if r.op = opRead then s.doRead p r len else s.doWrite p r len).map fun (s, ok) =>
          (s, if ok then 0#32 else statusEio)

/-- The tag a record is answered under. -/
def Service.answerTag (r : Record) (s : Service) : W32 :=
  if r.op = opIdent then if s.bounce then 0xffffffff#32 else 0xfffffffe#32 else r.tag

/-- The record served on the spot. -/
def Service.serve (p : Pass) (num : Nat) (r : Record) (s : Service) : Option Service :=
  (s.serveOne p r).map fun (s, status) => s.complete num (s.answerTag r) status

/-- One turn of the loop of `blk_step`; no result while a wait goes on. -/
def blkStep (p : Pass) (s : Service) : Option Service :=
  let s := s.topPoll p.poll
  match p.record with
  | none => some s
  | some r =>
      let num := s.records.length
      let s := s.pop r
      if s.pipelined r then s.submitRam p num r
      else match s.drain p with
        | none => none
        | some s => s.serve p num r

end Phi.Disk
