import Phi.Disk.Once
import Phi.Disk.Transfer

/-!
# Phi.Disk.Memory

The block service with the bytes it moves.

The engine sees one address space of 40 bits, the card's memory at its bottom
and the host's pinned buffers above `smptBase`.  Host memory served as a disk is
a window of it; a disk image is a file beside it, and goes through the staging
buffer or the aperture.  The engine makes the copies submitted in their order,
any time after, and a status word shows at most how many it made.

The routines are those of `Phi.Disk.Service` with the bytes; what they do to the
service is what they do there.
-/

namespace Phi.Disk

open Phi.Ring Blk Circular

/-! ## what happens outside -/

/-- A copy submitted: addresses on the bus, and bytes. -/
structure Move where
  src : Nat
  dst : Nat
  len : Nat
deriving DecidableEq, Repr

/-- A look at the engine: the copies it makes before, what its status words
show, and the clock. -/
structure Peek where
  progress : Nat
  hostWord : Nat
  cardWord : Nat
  now : W64
deriving DecidableEq, Repr

/-- What a pass meets outside. -/
structure DiskPass where
  poll : Peek
  record : Option Record
  room : List Peek
  drain : List Peek
  copy : List Peek
  now : W64
  io : List IoResult
  sync : Bool

/-- The service, the memory on the bus, the file, the copies submitted and not
made, how many were made, whether a look at the engine or an access to the file
ever failed, and whether the program exited. -/
structure System where
  serv : Service
  aperLen : Nat
  bus : Nat → UInt8
  file : Nat → UInt8
  queue : List Move
  made : Nat
  failed : Bool
  exited : Bool

/-- Bytes copied on the bus. -/
def Move.apply (m : Nat → UInt8) (q : Move) : Nat → UInt8 := write m q.dst (read m q.src q.len)

namespace System

def withChan (c : Chan) (d : System) : System := { d with serv := { d.serv with chan := c } }

def complete (num : Nat) (tag status : W32) (d : System) : System :=
  { d with serv := d.serv.complete num tag status }

/-! ## the engine -/

/-- The engine makes its oldest copy. -/
def make (d : System) : System :=
  match d.queue with
  | [] => d
  | q :: qs => { d with bus := q.apply d.bus, queue := qs, made := d.made + 1 }

def makes : Nat → System → System
  | 0, d => d
  | n + 1, d => makes n d.make

/-- What the host reads of the engine. -/
def reading (l : Peek) (d : System) : Reading :=
  ⟨min l.hostWord d.made, min l.cardWord d.made, l.now⟩

/-- `dma_poll`. -/
def dmaPoll (l : Peek) (d : System) : System × Option Nat :=
  let d := d.makes l.progress
  match Phi.Disk.dmaPoll (d.reading l) d.serv.chan with
  | (c, none) => ({ d.withChan c with failed := true }, none)
  | (c, some done) => (d.withChan c, some done)

/-- The wait of `dma_submit` for room. -/
def waitRoom : List Peek → System → Option (System × Bool)
  | [], d => if d.serv.chan.inFlight < maxInFlight then some (d, true) else none
  | l :: ls, d =>
      if d.serv.chan.inFlight < maxInFlight then some (d, true)
      else match d.dmaPoll l with
        | (d, none) => some (d, false)
        | (d, some _) => waitRoom ls d

/-- The copy joins those the engine has to make. -/
def enqueue (now src dst : W64) (len : Nat) (d : System) : System :=
  let c := d.serv.chan
  let seq := c.submitted + 1
  { d.withChan { c with
      progress := if c.inFlight = 0 then now else c.progress
      submitted := seq
      pending := if dst.toNat < smptBase then seq else c.pending } with
    queue := d.queue ++ [⟨src.toNat % 2 ^ 40, dst.toNat % 2 ^ 40, len⟩] }

/-- `dma_submit`. -/
def dmaSubmit (ls : List Peek) (now src dst : W64) (len : Nat) (d : System) :
    Option (System × Option Nat) :=
  if granular src dst len = false then some (d, none)
  else match waitRoom ls d with
    | none => none
    | some (d, false) => some (d, none)
    | some (d, true) => some (d.enqueue now src dst len, some (d.serv.chan.submitted + 1))

/-- `dma_wait`. -/
def dmaWait (seq : Nat) : List Peek → System → Option (System × Bool)
  | [], _ => none
  | l :: ls, d => match d.dmaPoll l with
      | (d, none) => some (d, false)
      | (d, some done) => if seq ≤ done then some (d, true) else dmaWait seq ls d

/-- `dma_copy`. -/
def dmaCopy (room ls : List Peek) (now src dst : W64) (len : Nat) (d : System) :
    Option (System × Bool) :=
  match dmaSubmit room now src dst len d with
  | none => none
  | some (d, none) => some (d, false)
  | some (d, some seq) => dmaWait seq ls d

/-! ## a pass -/

/-- The look at the engine at the top of the pass. -/
def topPoll (l : Peek) (d : System) : System :=
  if d.serv.ifTail = d.serv.ifHead ∨ d.serv.path ≠ .dma then d
  else match d.dmaPoll l with
    | (d, some done) => { d with serv := d.serv.completeDone done }
    | (d, none) => { d with serv := d.serv.failAll }

def pop (r : Record) (d : System) : System := { d with serv := d.serv.pop r }

/-- `submit_ram`. -/
def submitRam (p : DiskPass) (num : Nat) (r : Record) (d : System) : Option System :=
  match checkRecord d.serv.capacity r with
  | none => some (d.complete num r.tag statusEinval)
  | some len =>
      let (src, dst) :=
        if r.op = opRead then (d.serv.window r, r.phys) else (r.phys, d.serv.window r)
      match d.dmaSubmit p.room p.now src dst len with
      | none => none
      | some (d, none) => some (d.complete num r.tag statusEio)
      | some (d, some seq) =>
          some { d with serv := { d.serv with
            entries := write d.serv.entries (d.serv.ifHead % ifSize) [⟨r.tag, seq, num⟩]
            ifHead := d.serv.ifHead + 1 } }

/-- The drain before any other record. -/
def drain (p : DiskPass) (d : System) : Option System :=
  if d.serv.ifTail = d.serv.ifHead then some d
  else match d.dmaWait d.serv.drainSeq p.drain with
    | none => none
    | some (d', true) => some { d' with serv := d'.serv.completeDone d.serv.drainSeq }
    | some (d', false) => some { d' with serv := d'.serv.failAll }

/-- The record's place in the store, in bytes. -/
def offset (r : Record) : Nat := (r.sector <<< 9).toNat

/-- Bytes through the aperture into the card; the program may exit. -/
def intoCard (r : Record) (bs : List UInt8) (d : System) : System × Bool :=
  match writeCardMemory d.aperLen d.bus r.phys.toNat bs with
  | none => ({ d with exited := true }, false)
  | some bus => ({ d with bus := bus }, true)

/-- `do_read`. -/
def doRead (p : DiskPass) (r : Record) (len : Nat) (d : System) : Option (System × Bool) :=
  if d.serv.backend = .ram then
    some (d.intoCard r (read d.bus (d.serv.ramCard.toNat + offset r) len))
  else match preadAll d.file p.io (offset r) len with
    | none => none
    | some (bs, false) =>
        some ({ d with
          bus := if d.serv.path = .dma then write d.bus d.serv.staging.toNat bs else d.bus
          failed := true }, false)
    | some (bs, true) =>
        if d.serv.path = .dma then
          ({ d with bus := write d.bus d.serv.staging.toNat bs } : System).dmaCopy p.room p.copy
            p.now d.serv.staging r.phys len
        else some (d.intoCard r bs)

/-- The bytes into the file. -/
def intoFile (p : DiskPass) (r : Record) (bs : List UInt8) (d : System) :
    Option (System × Bool) :=
  (pwriteAll d.file p.io (offset r) bs).map fun (file, ok) =>
    ({ d with file := file, failed := d.failed || !ok }, ok)

/-- `do_write`. -/
def doWrite (p : DiskPass) (r : Record) (len : Nat) (d : System) : Option (System × Bool) :=
  if d.serv.backend = .file ∧ d.serv.path = .dma then
    match d.dmaCopy p.room p.copy p.now r.phys d.serv.staging len with
    | none => none
    | some (d, false) => some (d, false)
    | some (d, true) => d.intoFile p r (read d.bus d.serv.staging.toNat len)
  else match readCardMemory d.aperLen d.bus r.phys.toNat len with
    | none => some ({ d with exited := true }, false)
    | some bs =>
        if d.serv.backend = .ram then
          some ({ d with bus := write d.bus (d.serv.ramCard.toNat + offset r) bs }, true)
        else d.intoFile p r bs

/-- `serve_one`: the completion status. -/
def serveOne (p : DiskPass) (r : Record) (d : System) : Option (System × W32) :=
  if r.op = opIdent then some (d, BitVec.ofNat 32 (min d.serv.capacity 0xffffffff))
  else if r.op = opFlush then
    if d.serv.backend = .file ∧ p.sync = false then some ({ d with failed := true }, statusEio)
    else some (d, 0#32)
  else if opWrite < r.op then some (d, statusEopnotsupp)
  else match checkRecord d.serv.capacity r with
    | none => some (d, statusEinval)
    | some len =>
        (if r.op = opRead then d.doRead p r len else d.doWrite p r len).map fun (d, ok) =>
          (d, if ok then 0#32 else statusEio)

/-- The record served on the spot; a program that exited answers nothing. -/
def serve (p : DiskPass) (num : Nat) (r : Record) (d : System) : Option System :=
  (d.serveOne p r).map fun (d, status) =>
    if d.exited then d else d.complete num (d.serv.answerTag r) status

/-- One turn of the loop of `blk_step`; no result while a wait or the loop
over the file goes on. -/
def blkStep (p : DiskPass) (d : System) : Option System :=
  if d.exited then some d
  else
    let d := d.topPoll p.poll
    match p.record with
    | none => some d
    | some r =>
        let num := d.serv.records.length
        let d := d.pop r
        if d.serv.pipelined r then d.submitRam p num r
        else match d.drain p with
          | none => none
          | some d => d.serve p num r

/-- A turn that does not end is not part of a run. -/
def step (d : System) (p : DiskPass) : System := (d.blkStep p).getD d

end System

/-! ## a failure stays -/

section failed

variable {d d' : System}

theorem System.failed_makes (n : Nat) (d : System) : (d.makes n).failed = d.failed := by
  induction n generalizing d with
  | zero => rfl
  | succ n ih =>
      unfold System.makes
      rw [ih]
      unfold System.make
      split <;> rfl

theorem System.failed_dmaPoll {l : Peek} {res : Option Nat} (h : d.dmaPoll l = (d', res))
    (hf : d.failed = true) : d'.failed = true := by
  unfold System.dmaPoll at h
  dsimp only at h
  split at h
  · cases h
    rfl
  · cases h
    exact (System.failed_makes l.progress d).trans hf

theorem System.failed_waitRoom {ls : List Peek} {ok : Bool} (h : d.waitRoom ls = some (d', ok))
    (hf : d.failed = true) : d'.failed = true := by
  induction ls generalizing d with
  | nil =>
      unfold System.waitRoom at h
      split at h
      · cases h
        exact hf
      · cases h
  | cons l ls ih =>
      unfold System.waitRoom at h
      split at h
      · cases h
        exact hf
      · split at h
        · next hp =>
            cases h
            exact System.failed_dmaPoll hp hf
        · next hp => exact ih h (System.failed_dmaPoll hp hf)

theorem System.failed_dmaSubmit {ls : List Peek} {now src dst : W64} {len : Nat}
    {res : Option Nat} (h : d.dmaSubmit ls now src dst len = some (d', res))
    (hf : d.failed = true) : d'.failed = true := by
  unfold System.dmaSubmit at h
  split at h
  · cases h
    exact hf
  · split at h
    · cases h
    · next hw =>
        have hkept := System.failed_waitRoom hw hf
        cases h
        exact hkept
    · next hw =>
        have hkept := System.failed_waitRoom hw hf
        cases h
        exact hkept

theorem System.failed_dmaWait {seq : Nat} {ls : List Peek} {ok : Bool}
    (h : d.dmaWait seq ls = some (d', ok)) (hf : d.failed = true) : d'.failed = true := by
  induction ls generalizing d with
  | nil => cases h
  | cons l ls ih =>
      unfold System.dmaWait at h
      split at h
      · next hp =>
          have hkept := System.failed_dmaPoll hp hf
          cases h
          exact hkept
      · next hp =>
          split at h
          · have hkept := System.failed_dmaPoll hp hf
            cases h
            exact hkept
          · exact ih h (System.failed_dmaPoll hp hf)

theorem System.failed_dmaCopy {room ls : List Peek} {now src dst : W64} {len : Nat} {ok : Bool}
    (h : d.dmaCopy room ls now src dst len = some (d', ok)) (hf : d.failed = true) :
    d'.failed = true := by
  unfold System.dmaCopy at h
  split at h
  · cases h
  · next hs =>
      have hkept := System.failed_dmaSubmit hs hf
      cases h
      exact hkept
  · next hs => exact System.failed_dmaWait h (System.failed_dmaSubmit hs hf)

theorem System.failed_topPoll (l : Peek) (hf : d.failed = true) :
    (d.topPoll l).failed = true := by
  unfold System.topPoll
  split
  · exact hf
  · split
    · next hp =>
        have hkept := System.failed_dmaPoll hp hf
        exact hkept
    · next hp =>
        have hkept := System.failed_dmaPoll hp hf
        exact hkept

theorem System.failed_submitRam {p : DiskPass} {num : Nat} {r : Record}
    (h : d.submitRam p num r = some d') (hf : d.failed = true) : d'.failed = true := by
  unfold System.submitRam at h
  split at h
  · cases h
    exact hf
  · dsimp only at h
    split at h
    · cases h
    · next hs =>
        have hkept := System.failed_dmaSubmit hs hf
        cases h
        exact hkept
    · next hs =>
        have hkept := System.failed_dmaSubmit hs hf
        cases h
        exact hkept

theorem System.failed_drain {p : DiskPass} (h : d.drain p = some d') (hf : d.failed = true) :
    d'.failed = true := by
  unfold System.drain at h
  split at h
  · cases h
    exact hf
  · split at h
    · cases h
    · next hw =>
        have hkept := System.failed_dmaWait hw hf
        cases h
        exact hkept
    · next hw =>
        have hkept := System.failed_dmaWait hw hf
        cases h
        exact hkept

theorem System.failed_intoCard (r : Record) (bs : List UInt8) :
    (d.intoCard r bs).1.failed = d.failed := by
  unfold System.intoCard
  split <;> rfl

theorem System.failed_intoFile {p : DiskPass} {r : Record} {bs : List UInt8} {ok : Bool}
    (h : d.intoFile p r bs = some (d', ok)) (hf : d.failed = true) : d'.failed = true := by
  obtain ⟨⟨file, ok⟩, -, heq⟩ := Option.map_eq_some_iff.mp h
  cases heq
  simp [hf]

theorem System.failed_doRead {p : DiskPass} {r : Record} {len : Nat} {ok : Bool}
    (h : d.doRead p r len = some (d', ok)) (hf : d.failed = true) : d'.failed = true := by
  have hcard : ∀ bs, some (d.intoCard r bs) = some (d', ok) → d'.failed = true := by
    intro bs heq
    have hkept := System.failed_intoCard (d := d) r bs
    rw [Option.some.inj heq] at hkept
    exact hkept.trans hf
  unfold System.doRead at h
  split at h
  · exact hcard _ h
  · split at h
    · cases h
    · cases h
      rfl
    · split at h
      · exact System.failed_dmaCopy h hf
      · exact hcard _ h

theorem System.failed_doWrite {p : DiskPass} {r : Record} {len : Nat} {ok : Bool}
    (h : d.doWrite p r len = some (d', ok)) (hf : d.failed = true) : d'.failed = true := by
  unfold System.doWrite at h
  split at h
  · split at h
    · cases h
    · next hc =>
        cases h
        exact System.failed_dmaCopy hc hf
    · next hc => exact System.failed_intoFile h (System.failed_dmaCopy hc hf)
  · split at h
    · cases h
      exact hf
    · split at h
      · cases h
        exact hf
      · exact System.failed_intoFile h hf

theorem System.failed_serveOne {p : DiskPass} {r : Record} {status : W32}
    (h : d.serveOne p r = some (d', status)) (hf : d.failed = true) : d'.failed = true := by
  unfold System.serveOne at h
  split at h
  · cases h
    exact hf
  · split at h
    · split at h
      · cases h
        rfl
      · cases h
        exact hf
    · split at h
      · cases h
        exact hf
      · split at h
        · cases h
          exact hf
        · obtain ⟨⟨e, ok⟩, he, heq⟩ := Option.map_eq_some_iff.mp h
          cases heq
          split at he
          · exact System.failed_doRead he hf
          · exact System.failed_doWrite he hf

theorem System.failed_serve {p : DiskPass} {num : Nat} {r : Record}
    (h : d.serve p num r = some d') (hf : d.failed = true) : d'.failed = true := by
  obtain ⟨⟨e, status⟩, he, heq⟩ := Option.map_eq_some_iff.mp h
  have hkept := System.failed_serveOne he hf
  dsimp only at heq
  split at heq
  · cases heq
    exact hkept
  · cases heq
    exact hkept

end failed

end Phi.Disk
