import Mathlib.Data.List.Basic
import Phi.Ring.Copy

/-!
# Phi.Blk.Queue

A block request on its way from the card to the host.

The card's driver (`knc_blk.c`) turns a request of the block layer into
records on the ring.  In direct mode there is one record per physical segment,
with the segment's address and the sector it starts at; in bounce mode one
record names a slot of the channel's data area, and the data is copied between
the slot and the request's pages.  The host (`check_record` in `disk.S`)
accepts a record only if its length is whole sectors.  A segment need not be:
the queue limits ask for a granule of 64 bytes.
-/

namespace Phi.Blk

open Phi.Ring

/-! ## constants -/

def reqSize : Nat := 32
def opRead : W32 := 0#32
def opWrite : W32 := 1#32
def opFlush : W32 := 2#32
def slotSize : Nat := 524288
def maxSlots : Nat := 32
def maxSegs : Nat := 64
def sectorSize : Nat := 512
def maxLen : Nat := 524288

/-! ## requests -/

/-- A physical segment: where it lies in the card's memory, and its bytes. -/
structure BlkSeg where
  addr : Nat
  length : Nat
deriving DecidableEq, Repr

/-- Operations of the block layer; the driver knows the first three. -/
inductive ReqOp where
  | read
  | write
  | flush
  | other
deriving DecidableEq, Repr

/-- A request as the block layer issues it: `segs` is what `blk_rq_map_sg`
makes of its pages. -/
structure Request where
  tag : Nat
  op : ReqOp
  pos : Nat
  segs : List BlkSeg
deriving DecidableEq, Repr

/-- `blk_rq_bytes`. -/
def Request.bytes (rq : Request) : Nat := (rq.segs.map BlkSeg.length).sum

/-- A record of the ring. -/
structure Record where
  tag : W32
  op : W32
  len : W32
  sector : W64
  phys : W64
deriving DecidableEq, Repr

/-- What one instance of the driver knows: whether it hands out pages, how
many requests it takes, and where its slots are. -/
structure KncBlk where
  direct : Bool
  depth : Nat
  dataPhys : Nat
  depth_le : depth ≤ maxSlots
  slots_le : dataPhys + depth * slotSize ≤ 2 ^ 64

/-- Outcome of `knc_blk_queue_rq`. -/
inductive BlkStatus where
  | ok
  | ioerr
  | notsupp
  | devResource
deriving DecidableEq, Repr

/-! ## queueing -/

/-- The address of a tag's slot. -/
def KncBlk.slot (b : KncBlk) (tag : Nat) : Nat := b.dataPhys + tag * slotSize

/-- One record per segment, the sector moved on by the whole sectors of each. -/
def postSegs (tag : Nat) (op : W32) : Nat → Nat → List BlkSeg → List Record
  | _, _, [] => []
  | i, sector, s :: segs =>
      ⟨BitVec.ofNat 32 (tag <<< 8 ||| i), op, BitVec.ofNat 32 s.length, BitVec.ofNat 64 sector,
        BitVec.ofNat 64 s.addr⟩ :: postSegs tag op (i + 1) (sector + s.length / 512) segs

/-- The record's operation, and whether the request has data. -/
def opOf : ReqOp → Option (W32 × Bool)
  | .read => some (opRead, true)
  | .write => some (opWrite, true)
  | .flush => some (opFlush, false)
  | .other => none

/-- `knc_blk_queue_rq`: the records posted, `txFree` bytes of the ring being
free. -/
def kncBlkQueueRq (b : KncBlk) (txFree : Nat) (rq : Request) : BlkStatus × List Record :=
  match opOf rq.op with
  | none => (.notsupp, [])
  | some (op, data) =>
      let len := if data then rq.bytes else 0
      if b.depth ≤ rq.tag ∨ slotSize < len then (.ioerr, [])
      else if b.direct ∧ len ≠ 0 then
        if rq.segs.length = 0 then (.ioerr, [])
        else if txFree < rq.segs.length * reqSize then (.devResource, [])
        else (.ok, postSegs rq.tag op 0 rq.pos rq.segs)
      else if txFree < reqSize then (.devResource, [])
      else (.ok, [⟨BitVec.ofNat 32 (rq.tag <<< 8), op, BitVec.ofNat 32 len, BitVec.ofNat 64 rq.pos,
        BitVec.ofNat 64 (b.slot rq.tag)⟩])

/-- `check_record`: the length of a record the host serves. -/
def checkRecord (capacity : Nat) (r : Record) : Option Nat :=
  let len := r.len.toNat
  if len = 0 then none
  else if maxLen < len then none
  else if len &&& (sectorSize - 1) ≠ 0 then none
  else
    let last := len / 512 + r.sector.toNat
    if 2 ^ 64 ≤ last then none
    else if capacity < last then none
    else some len

/-! ## which byte goes where -/

/-- Consecutive numbers from `d` on, each with its element. -/
def pairs (d : Nat) (xs : List Nat) : List (Nat × Nat) := (List.range' d xs.length).zip xs

/-- The memory of a request, byte by byte. -/
def addrs (segs : List BlkSeg) : List Nat := segs.flatMap fun s => List.range' s.addr s.length

/-- What the block layer asks for: bytes of the disk, each with its place in
the card's memory. -/
def Request.moves (rq : Request) : List (Nat × Nat) := pairs (rq.pos * 512) (addrs rq.segs)

/-- What the host moves for a record. -/
def Record.moves (r : Record) : List (Nat × Nat) :=
  pairs (r.sector.toNat * 512) (List.range' r.phys.toNat r.len.toNat)

/-- `knc_blk_copy`: bytes of the slot, each with its place in the request. -/
def kncBlkCopy (slot : Nat) : Nat → List BlkSeg → List (Nat × Nat)
  | _, [] => []
  | off, s :: segs =>
      pairs (slot + off) (List.range' s.addr s.length) ++ kncBlkCopy slot (off + s.length) segs

/-- Moves to and from the slot, carried on by the copy. -/
def throughSlot (copies moves : List (Nat × Nat)) : List (Nat × Nat) :=
  moves.filterMap fun m => (copies.lookup m.2).map fun place => (m.1, place)

/-- What the posted records come to: the pages themselves in direct mode, the
copied slot otherwise. -/
def transferred (b : KncBlk) (rq : Request) (rs : List Record) : List (Nat × Nat) :=
  if b.direct then rs.flatMap Record.moves
  else throughSlot (kncBlkCopy (b.slot rq.tag) 0 rq.segs) (rs.flatMap Record.moves)

/-- The host accepts every record posted for the request, and together they
move each byte of the request between its sectors and its place. -/
def Served (b : KncBlk) (capacity txFree : Nat) (rq : Request) : Prop :=
  (∀ r ∈ (kncBlkQueueRq b txFree rq).2, (checkRecord capacity r).isSome = true) ∧
    transferred b rq (kncBlkQueueRq b txFree rq).2 = rq.moves

/-! ## what the block layer may issue -/

/-- `struct queue_limits`, the fields that bound a request. -/
structure QueueLimits where
  logicalBlockSize : Nat
  maxHwSectors : Nat
  maxSegments : Nat
  maxSegmentSize : Nat
  dmaAlignment : Nat

/-- The limits `knc_blk_register` sets. -/
def kncBlkLimits : QueueLimits where
  logicalBlockSize := 512
  maxHwSectors := slotSize / 512
  maxSegments := maxSegs
  maxSegmentSize := slotSize
  dmaAlignment := 63

/-- A read or write the block layer may issue under the limits. -/
structure Issued (lim : QueueLimits) (b : KncBlk) (capacity : Nat) (rq : Request) : Prop where
  data : rq.op = .read ∨ rq.op = .write
  tag_lt : rq.tag < b.depth
  segments_le : rq.segs.length ≤ lim.maxSegments
  segment : ∀ s ∈ rq.segs, s.addr % (lim.dmaAlignment + 1) = 0 ∧
    s.length % (lim.dmaAlignment + 1) = 0 ∧ 0 < s.length ∧ s.length ≤ lim.maxSegmentSize ∧
    s.addr + s.length ≤ 2 ^ 64
  whole : rq.bytes % lim.logicalBlockSize = 0
  pos_bytes : 0 < rq.bytes
  bytes_le : rq.bytes ≤ lim.maxHwSectors * 512
  inside : rq.pos + rq.bytes / 512 ≤ capacity

/-! ## lists of places -/

@[simp] theorem pairs_nil (d : Nat) : pairs d [] = [] := rfl

theorem pairs_cons (d x : Nat) (xs : List Nat) :
    pairs d (x :: xs) = (d, x) :: pairs (d + 1) xs := by
  simp [pairs, List.range'_succ]

theorem pairs_append (d : Nat) (xs ys : List Nat) :
    pairs d (xs ++ ys) = pairs d xs ++ pairs (d + xs.length) ys := by
  induction xs generalizing d with
  | nil => simp
  | cons x xs ih =>
      rw [List.cons_append, pairs_cons, pairs_cons, ih, List.cons_append, List.length_cons]
      congr 3
      omega

@[simp] theorem addrs_cons (s : BlkSeg) (segs : List BlkSeg) :
    addrs (s :: segs) = List.range' s.addr s.length ++ addrs segs := List.flatMap_cons

theorem length_addrs (segs : List BlkSeg) :
    (addrs segs).length = (segs.map BlkSeg.length).sum := by
  induction segs with
  | nil => rfl
  | cons s segs ih => simp [ih]

/-- The copy visits the slot in order. -/
theorem kncBlkCopy_eq (slot off : Nat) (segs : List BlkSeg) :
    kncBlkCopy slot off segs = pairs (slot + off) (addrs segs) := by
  induction segs generalizing off with
  | nil => rfl
  | cons s segs ih =>
      rw [kncBlkCopy, ih, addrs_cons, pairs_append, List.length_range', Nat.add_assoc]

theorem le_of_mem_pairs {d a n : Nat} {p : Nat × Nat} (h : p ∈ pairs d (List.range' a n)) :
    a ≤ p.2 := by
  have hmem := (List.of_mem_zip h).2
  exact (List.mem_range'_1.mp hmem).1

/-- A move to the slot and the copy out of it make the move to the place. -/
theorem throughSlot_pairs (d a : Nat) (xs : List Nat) :
    throughSlot (pairs a xs) (pairs d (List.range' a xs.length)) = pairs d xs := by
  induction xs generalizing d a with
  | nil => rfl
  | cons x xs ih =>
      rw [List.length_cons, List.range'_succ, pairs_cons, pairs_cons, pairs_cons]
      -- the places after the first lie above it, so its pair is never looked up again
      have htail : throughSlot ((a, x) :: pairs (a + 1) xs)
          (pairs (d + 1) (List.range' (a + 1) xs.length)) = pairs (d + 1) xs := by
        rw [← ih (d + 1) (a + 1)]
        unfold throughSlot
        refine List.filterMap_congr fun p hp => ?_
        have hne : (p.2 == a) = false := by
          have := le_of_mem_pairs hp
          simp only [beq_eq_false_iff_ne]
          omega
        rw [List.lookup_cons, hne]
      rw [← htail]
      unfold throughSlot
      rw [List.filterMap_cons]
      simp only [List.lookup_cons_self, Option.map_some]

/-! ## records -/

theorem checkRecord_isSome_iff (capacity : Nat) (r : Record) :
    (checkRecord capacity r).isSome = true ↔
      r.len.toNat ≠ 0 ∧ r.len.toNat ≤ maxLen ∧ r.len.toNat % 512 = 0 ∧
        r.len.toNat / 512 + r.sector.toNat < 2 ^ 64 ∧
        r.len.toNat / 512 + r.sector.toNat ≤ capacity := by
  have hmask : r.len.toNat &&& (sectorSize - 1) = r.len.toNat % 512 :=
    Nat.and_two_pow_sub_one_eq_mod _ 9
  unfold checkRecord
  dsimp only
  rw [hmask]
  split
  · simp [*]
  · split
    · simp only [Option.isSome_none, Bool.false_eq_true, false_iff]
      omega
    · split
      · simp [*]
      · split
        · simp only [Option.isSome_none, Bool.false_eq_true, false_iff]
          omega
        · split
          · simp only [Option.isSome_none, Bool.false_eq_true, false_iff]
            omega
          · simp only [Option.isSome_some, true_iff]
            omega

/-! ## a request is served -/

theorem KncBlk.slot_lt (b : KncBlk) {tag : Nat} (h : tag < b.depth) : b.slot tag < 2 ^ 64 := by
  have hslots := b.slots_le
  have htag : (tag + 1) * slotSize ≤ b.depth * slotSize := Nat.mul_le_mul_right _ h
  have hpos : 0 < slotSize := by decide
  rw [Nat.succ_mul] at htag
  unfold KncBlk.slot
  omega

section served

variable {b : KncBlk} {capacity : Nat} {rq : Request}

/-- A queued data request posts one record per segment in direct mode, and one
for its slot otherwise. -/
theorem kncBlkQueueRq_of_ok {txFree : Nat} (h : Issued kncBlkLimits b capacity rq)
    (hok : (kncBlkQueueRq b txFree rq).1 = .ok) : ∃ op,
      (kncBlkQueueRq b txFree rq).2 = if b.direct then postSegs rq.tag op 0 rq.pos rq.segs else
        [⟨BitVec.ofNat 32 (rq.tag <<< 8), op, BitVec.ofNat 32 rq.bytes, BitVec.ofNat 64 rq.pos,
          BitVec.ofNat 64 (b.slot rq.tag)⟩] := by
  obtain ⟨op, hop⟩ : ∃ op, opOf rq.op = some (op, true) := by
    obtain h0 | h0 := h.data
    · exact ⟨_, by rw [h0]; rfl⟩
    · exact ⟨_, by rw [h0]; rfl⟩
  have hne : rq.bytes ≠ 0 := by
    have := h.pos_bytes
    omega
  refine ⟨op, ?_⟩
  unfold kncBlkQueueRq at hok ⊢
  rw [hop] at hok ⊢
  simp only [if_true] at hok ⊢
  cases hd : b.direct with
  | false =>
      simp only [hd, Bool.false_eq_true, false_and, if_false] at hok ⊢
      split at hok
      · cases hok
      · next h1 =>
          split at hok
          · cases hok
          · next h2 => rw [if_neg h1, if_neg h2]
  | true =>
      simp only [hd, hne, ne_eq, not_false_eq_true, and_self, if_true] at hok ⊢
      split at hok
      · cases hok
      · next h1 =>
          split at hok
          · cases hok
          · next h2 =>
              split at hok
              · cases hok
              · next h3 => rw [if_neg h1, if_neg h2, if_neg h3]

/-- Every segment's length is in some record. -/
theorem exists_record_of_mem (tag : Nat) (op : W32) (i sector : Nat) {segs : List BlkSeg}
    {s : BlkSeg} (hs : s ∈ segs) :
    ∃ r ∈ postSegs tag op i sector segs, r.len = BitVec.ofNat 32 s.length := by
  induction segs generalizing i sector with
  | nil => simp at hs
  | cons x segs ih =>
      cases List.mem_cons.mp hs with
      | inl heq => exact ⟨_, List.mem_cons_self, by rw [heq]⟩
      | inr hmem =>
          obtain ⟨r, hr, hlen⟩ := ih (i + 1) (sector + x.length / 512) hmem
          exact ⟨r, List.mem_cons_of_mem _ hr, hlen⟩

/-- Segments of whole sectors are accepted one by one and move the request. -/
theorem postSegs_served (tag : Nat) (op : W32) (i sector : Nat) {segs : List BlkSeg}
    (hwhole : ∀ s ∈ segs, s.length % 512 = 0)
    (hseg : ∀ s ∈ segs, 0 < s.length ∧ s.length ≤ maxLen ∧ s.addr + s.length ≤ 2 ^ 64)
    (hcap : sector + (segs.map BlkSeg.length).sum / 512 ≤ capacity) (hlt : capacity < 2 ^ 64) :
    (∀ r ∈ postSegs tag op i sector segs, (checkRecord capacity r).isSome = true) ∧
      (postSegs tag op i sector segs).flatMap Record.moves =
        pairs (sector * 512) (addrs segs) := by
  induction segs generalizing i sector with
  | nil => simp [postSegs, addrs]
  | cons s segs ih =>
      obtain ⟨hpos, hmax, haddr⟩ := hseg s List.mem_cons_self
      have hw := hwhole s List.mem_cons_self
      rw [List.map_cons, List.sum_cons] at hcap
      obtain ⟨hrest, hmoves⟩ := ih (i + 1) (sector + s.length / 512)
        (fun x hx => hwhole x (List.mem_cons_of_mem _ hx))
        (fun x hx => hseg x (List.mem_cons_of_mem _ hx)) (by omega)
      unfold maxLen at hmax
      have hlen : (BitVec.ofNat 32 s.length).toNat = s.length := by
        rw [BitVec.toNat_ofNat, Nat.mod_eq_of_lt (by omega)]
      have hsec : (BitVec.ofNat 64 sector).toNat = sector := by
        rw [BitVec.toNat_ofNat, Nat.mod_eq_of_lt (by omega)]
      have hphys : (BitVec.ofNat 64 s.addr).toNat = s.addr := by
        rw [BitVec.toNat_ofNat, Nat.mod_eq_of_lt (by omega)]
      constructor
      · intro r hr
        cases List.mem_cons.mp hr with
        | inl heq =>
            rw [heq, checkRecord_isSome_iff, hlen, hsec]
            unfold maxLen
            omega
        | inr hmem => exact hrest r hmem
      · rw [postSegs, List.flatMap_cons, hmoves, addrs_cons, pairs_append, List.length_range']
        have hnext : (sector + s.length / 512) * 512 = sector * 512 + s.length := by omega
        unfold Record.moves
        rw [hlen, hsec, hphys, hnext]

/-- The one record of a bounced request is accepted and moves the request. -/
theorem bounced_served (h : Issued kncBlkLimits b capacity rq) (hlt : capacity < 2 ^ 64)
    (op tag : W32) :
    let r : Record := ⟨tag, op, BitVec.ofNat 32 rq.bytes, BitVec.ofNat 64 rq.pos,
      BitVec.ofNat 64 (b.slot rq.tag)⟩
    (checkRecord capacity r).isSome = true ∧
      throughSlot (kncBlkCopy (b.slot rq.tag) 0 rq.segs) r.moves = rq.moves := by
  have hpos := h.pos_bytes
  have hle := h.bytes_le
  have hin := h.inside
  have hw := h.whole
  simp only [kncBlkLimits, slotSize] at hle hw
  have hlen : (BitVec.ofNat 32 rq.bytes).toNat = rq.bytes := by
    rw [BitVec.toNat_ofNat, Nat.mod_eq_of_lt (by omega)]
  have hsec : (BitVec.ofNat 64 rq.pos).toNat = rq.pos := by
    rw [BitVec.toNat_ofNat, Nat.mod_eq_of_lt (by omega)]
  have hphys : (BitVec.ofNat 64 (b.slot rq.tag)).toNat = b.slot rq.tag := by
    rw [BitVec.toNat_ofNat, Nat.mod_eq_of_lt (b.slot_lt h.tag_lt)]
  constructor
  · rw [checkRecord_isSome_iff, hlen, hsec]
    unfold maxLen
    omega
  · unfold Record.moves Request.moves
    rw [hlen, hsec, hphys, kncBlkCopy_eq, Nat.add_zero]
    have hbytes : rq.bytes = (addrs rq.segs).length := (length_addrs rq.segs).symm
    rw [hbytes]
    exact throughSlot_pairs _ _ _

/-- **What is posted is what is served** exactly when the data is bounced or
every segment is whole sectors. -/
theorem served_iff (b : KncBlk) (capacity txFree : Nat) (rq : Request) (hlt : capacity < 2 ^ 64)
    (h : Issued kncBlkLimits b capacity rq) (hok : (kncBlkQueueRq b txFree rq).1 = .ok) :
    Served b capacity txFree rq ↔
      b.direct = false ∨ ∀ s ∈ rq.segs, s.length % 512 = 0 := by
  obtain ⟨op, hrs⟩ := kncBlkQueueRq_of_ok h hok
  unfold Served transferred
  rw [hrs]
  cases hd : b.direct with
  | false =>
      obtain ⟨hacc, hmoves⟩ := bounced_served h hlt op (BitVec.ofNat 32 (rq.tag <<< 8))
      simp only [Bool.false_eq_true, if_false, true_or, iff_true]
      refine ⟨fun r hr => ?_, ?_⟩
      · rw [List.mem_singleton.mp hr]
        exact hacc
      · rw [List.flatMap_singleton]
        exact hmoves
  | true =>
      simp only [if_true, Bool.true_eq_false, false_or]
      constructor
      · intro ⟨hacc, _⟩ s hs
        obtain ⟨r, hr, hlen⟩ := exists_record_of_mem rq.tag op 0 rq.pos hs
        have hchk := (checkRecord_isSome_iff capacity r).mp (hacc r hr)
        have hle := (h.segment s hs).2.2.2.1
        simp only [kncBlkLimits, slotSize] at hle
        rw [hlen, BitVec.toNat_ofNat, Nat.mod_eq_of_lt (by omega)] at hchk
        exact hchk.2.2.1
      · intro hwhole
        exact postSegs_served rq.tag op 0 rq.pos hwhole (fun s hs => (h.segment s hs).2.2)
          h.inside hlt

end served

/-! ## examples of requests -/

/-- An instance whose host moves the data itself. -/
def handsPages : KncBlk where
  direct := true
  depth := maxSlots
  dataPhys := 0x100000
  depth_le := Nat.le_refl _
  slots_le := by decide

/-- A kilobyte in two pages, a sector from each. -/
def wholeRequest : Request := ⟨3, .read, 40, [⟨0x2e00, 512⟩, ⟨0x7000, 512⟩]⟩

/-- A sector of which the first 64 bytes lie in one page, the rest in another. -/
def cutRequest : Request := ⟨3, .read, 40, [⟨0x2fc0, 64⟩, ⟨0x7000, 448⟩]⟩

theorem served_iff_wholeRequest : Served handsPages 2048 65536 wholeRequest ↔
    handsPages.direct = false ∨ ∀ s ∈ wholeRequest.segs, s.length % 512 = 0 :=
  served_iff handsPages 2048 65536 wholeRequest (by decide)
    ⟨by decide, by decide, by decide, by decide, by decide, by decide, by decide, by decide⟩
    (by decide)

/-- The host turns both records of the cut sector away. -/
theorem cutRequest_refused :
    Issued kncBlkLimits handsPages 2048 cutRequest ∧
      (kncBlkQueueRq handsPages 65536 cutRequest).1 = .ok ∧
      (∀ r ∈ (kncBlkQueueRq handsPages 65536 cutRequest).2, checkRecord 2048 r = none) ∧
      ¬ Served handsPages 2048 65536 cutRequest := by
  have hnone : ∀ r ∈ (kncBlkQueueRq handsPages 65536 cutRequest).2,
      checkRecord 2048 r = none := by decide
  have hfirst : (⟨768#32, opRead, 64#32, 40#64, 0x2fc0#64⟩ : Record) ∈
      (kncBlkQueueRq handsPages 65536 cutRequest).2 := by decide
  refine ⟨⟨by decide, by decide, by decide, by decide, by decide, by decide, by decide,
    by decide⟩, by decide, hnone, ?_⟩
  intro h
  have hacc := h.1 _ hfirst
  rw [hnone _ hfirst] at hacc
  exact absurd hacc (by decide)

end Phi.Blk
