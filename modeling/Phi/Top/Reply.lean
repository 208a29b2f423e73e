import Phi.Rpc.Validate
import Phi.Rpc.Walked
import Phi.Top.Snapshot

/-!
# Phi.Top.Reply

A StatReply read into a snapshot (`snapshot_decode` and `decode_devs` of
`model.S`).

The body was checked by `validate`; here a bare cursor walks over it, keeps of
each list what the snapshot has room for and passes over the rest.  The
snapshot's memory is given by its parts: a field or an entry of a table is an
area of its own, with its place and its size from the layout, and each store is
noted.
-/

namespace Phi.Top

open Rpc Walk

/-! ## the snapshot's memory -/

def snTempCap : Nat := 64
def prCommCap : Nat := 64

/-- The fields of a snapshot, and the entries of its tables. -/
inductive Area where
  | uptime
  | ncpu
  | mem
  | load
  | running
  | tasks
  | ntemps
  | peak
  | vcore
  | mhz
  | ndisks
  | nnets
  | nlisted
  | nprocs
  | nkthreads
  | ncpuSent
  | temp (i : Nat)
  | cpu (i : Nat)
  | disk (i : Nat)
  | net (i : Nat)
  | proc (i : Nat)
deriving DecidableEq

namespace Area

/-- `SN_*`: where an area lies in the snapshot. -/
def base : Area → Nat
  | uptime => 8
  | ncpu => 16
  | mem => 24
  | load => 72
  | running => 80
  | tasks => 84
  | ntemps => 88
  | temp i => 96 + 2 * i
  | peak => 224
  | vcore => 232
  | mhz => 240
  | ndisks => 248
  | nnets => 256
  | nlisted => 264
  | nprocs => 272
  | nkthreads => 276
  | ncpuSent => 328
  | cpu i => 336 + 12 * i
  | disk i => 336 + snCpuCap * 12 + 80 * i
  | net i => 336 + snCpuCap * 12 + snDevCap * 80 + 80 * i
  | proc i => 336 + snCpuCap * 12 + snDevCap * 80 + snDevCap * 80 + 96 * i

def size : Area → Nat
  | mem => 48
  | load => 6
  | running | tasks | nprocs | nkthreads => 4
  | temp _ => 2
  | cpu _ => 12
  | disk _ | net _ => 80
  | proc _ => 96
  | _ => 8

/-- An entry is one of its table. -/
def Valid : Area → Prop
  | temp i => i < snTempCap
  | cpu i => i < snCpuCap
  | disk i | net i => i < snDevCap
  | proc i => i < snProcCap
  | _ => True

end Area

/-- A snapshot: its bytes, and what was stored where. -/
structure Snap where
  cells : Area → Nat → UInt8
  wrote : List (Area × Nat × Nat)

namespace Snap

def store (s : Snap) (a : Area) (o : Nat) (bs : List UInt8) : Snap where
  cells := Function.update s.cells a (Circular.write (s.cells a) o bs)
  wrote := s.wrote ++ [(a, o, bs.length)]

def load (s : Snap) (a : Area) (o n : Nat) : List UInt8 := Circular.read (s.cells a) o n

def u16 (s : Snap) (a : Area) (o : Nat) : UInt16 := UInt16.ofNat (ofLe (s.load a o 2))
def u8 (s : Snap) (a : Area) (o : Nat) : UInt8 := UInt8.ofNat (ofLe (s.load a o 1))
def u32 (s : Snap) (a : Area) (o : Nat) : UInt32 := UInt32.ofNat (ofLe (s.load a o 4))
def u64 (s : Snap) (a : Area) (o : Nat) : UInt64 := UInt64.ofNat (ofLe (s.load a o 8))

end Snap

/-! ## the walk -/

/-- A load of `n` bytes and their store. -/
def copy (d n : Nat) (a : Area) (o : Nat) : Walk Snap Unit := do
  let bs ← peek d n
  build fun s => s.store a o bs

def put (a : Area) (o : Nat) (bs : List UInt8) : Walk Snap Unit := build fun s => s.store a o bs

/-- A name clipped to its field: its length, its bytes and a NUL. -/
def copyName (d n cap : Nat) (a : Area) (lenAt nameAt : Nat) : Walk Snap Unit := do
  let edx := if n ≤ cap - 1 then n else cap - 1
  put a lenAt (leBytes 4 edx)
  copy d edx a nameAt
  put a (nameAt + edx) [0]

/-- The count that is kept. -/
def clipped (n cap : Nat) : Nat := if n ≤ cap then n else cap

/-- What is done for an entry that the table has room for. -/
def kept (i cap : Nat) (w : Walk Snap Unit) : Walk Snap Unit := if i < cap then w else pure ()

/-- The entries of a table, and their number. -/
def fill (entry : Nat → Walk Snap Unit) (n : Nat) (count : Area) (cap : Nat) : Walk Snap Unit := do
  loop entry 0 n
  put count 0 (leBytes 8 (clipped n cap))

def decodeCpu (i : Nat) : Walk Snap Unit := do
  kept i snCpuCap do
    copy 0 2 (.cpu i) 0
    copy 2 4 (.cpu i) 4
    copy 6 4 (.cpu i) 8
  move 10

def decodeCpus : Walk Snap Unit := do
  let n ← peekU16 0
  move 2
  put .ncpuSent 0 (leBytes 8 n)
  fill decodeCpu n .ncpu snCpuCap

/-- Memory, load and the two counts of tasks. -/
def decodeMem : Walk Snap Unit := do
  copy 0 8 .mem 0
  copy 8 8 .mem 8
  copy 16 8 .mem 16
  copy 24 8 .mem 24
  copy 32 8 .mem 32
  copy 40 8 .mem 40
  move 48
  copy 0 2 .load 0
  copy 2 2 .load 2
  copy 4 2 .load 4
  copy 6 4 .running 0
  copy 10 4 .tasks 0
  move 14

def decodeTemp (i : Nat) : Walk Snap Unit := do
  kept i snTempCap (copy 0 2 (.temp i) 0)
  move 2

/-- `movswq` and a store of the quadword. -/
def signExtend (bs : List UInt8) : List UInt8 :=
  leBytes 8 (UInt16.ofNat (ofLe bs)).toInt16.toInt64.toUInt64.toNat

def decodeTemps : Walk Snap Unit := do
  let n ← peekU16 0
  move 2
  fill decodeTemp n .ntemps snTempCap
  let peak ← peek 0 2
  put .peak 0 (signExtend peak)
  let vcore ← peek 2 4
  put .vcore 0 (leBytes 8 (ofLe vcore))
  let mhz ← peek 6 4
  put .mhz 0 (leBytes 8 (ofLe mhz))
  move 10

/-- An entry of `decode_devs`. -/
def decodeDevEntry (table : Nat → Area) (i : Nat) : Walk Snap Unit := do
  let ecx ← peekU16 0
  move 2
  kept i snDevCap do
    copyName 0 ecx devNameCap (table i) 0 4
    copy ecx 8 (table i) 64
    copy (ecx + 8) 8 (table i) 72
  move (16 + ecx)

/-- `decode_devs`, and the store of its result. -/
def decodeDevTable (table : Nat → Area) (count : Area) : Walk Snap Unit := do
  let n ← peekU16 0
  move 2
  fill (decodeDevEntry table) n count snDevCap

def decodeProcEntry (i : Nat) : Walk Snap Unit := do
  if i < snProcCap then
    copy 0 4 (.proc i) 0
    copy 4 1 (.proc i) 4
    copy 5 1 (.proc i) 5
    copy 6 8 (.proc i) 16
    copy 14 8 (.proc i) 24
    copy 22 4 (.proc i) 8
    let ecx ← peekU16 26
    copyName 28 ecx prCommCap (.proc i) 12 32
    move (28 + ecx)
  else
    let ecx ← peekU16 26
    move (28 + ecx)

def decodeProcs : Walk Snap Unit := do
  let n ← peekU16 0
  move 2
  fill decodeProcEntry n .nlisted snProcCap
  copy 0 4 .nprocs 0
  copy 4 4 .nkthreads 0

/-- `snapshot_decode`. -/
def snapshotWalk : Walk Snap Unit := do
  copy 0 8 .uptime 0
  move 8
  decodeCpus
  decodeMem
  decodeTemps
  decodeDevTable .disk .ndisks
  decodeDevTable .net .nnets
  decodeProcs

end Phi.Top
