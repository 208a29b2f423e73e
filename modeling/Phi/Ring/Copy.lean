import Phi.Lib.Circular
import Phi.Lib.Modular

/-!
# Phi.Ring.Copy

One direction of the ring transport: the index words, the data area and the
arithmetic that both ends do on them.

The host's `ring_push` and `ring_pop` (`ring.S`) and the card's
`knc_ring_write` and `knc_ring_read` (`asm/knc_ring.h`) work on the same
header: free-running 32-bit `head` and `tail`, data at `index & (size - 1)`.
Each end first decides how many bytes it may move, then copies them in one or
two pieces around the end of the area, then publishes its index.
-/

namespace Phi

abbrev W32 := BitVec 32
abbrev W64 := BitVec 64

namespace Ring

open Circular Phi.Modular

/-! ## geometry -/

/-- The data size of a ring: a power of two that a 32-bit word holds. -/
structure Geometry where
  size : W32
  log : Nat
  size_eq : size.toNat = 2 ^ log

namespace Geometry

variable (g : Geometry)

theorem log_lt : g.log < 32 := by
  have h := g.size.isLt
  rw [g.size_eq] at h
  exact (Nat.pow_lt_pow_iff_right (by decide)).mp h

theorem size_pos : 0 < g.size.toNat := by
  rw [g.size_eq]; exact Nat.two_pow_pos _

/-- The cell the code computes for an index is the true index reduced. -/
theorem toNat_and_mask (p : Nat) :
    (BitVec.ofNat 32 p &&& (g.size - 1#32)).toNat = p % g.size.toNat := by
  rw [toNat_ofNat_and_mask 32 g.log_lt g.size_eq, g.size_eq]

end Geometry

/-! ## how much to move -/

/-- `ring_push`: the bytes that go in, of `len` offered.  A tail ahead of the
head reads as a full ring. -/
def pushCount (size head tail : W32) (len : Nat) : Nat :=
  let used := head - tail
  if size ≤ used then 0 else min (size - used).toNat len

/-- `ring_pop`: the bytes that come out, of `cap` wanted; `none` when the
indices are inconsistent and the tail is to be set to the head. -/
def popCount (size head tail : W32) (cap : Nat) : Option Nat :=
  let avail := head - tail
  if avail ≤ size then some (min avail.toNat cap) else none

/-- `ring_free`: the bytes a producer can push. -/
def ringFree (size head tail : W32) : Nat :=
  let used := head - tail
  if size < used then 0 else (size - used).toNat

/-- `ring_avail`: the bytes a consumer can pop; none when the indices are
inconsistent. -/
def ringAvail (size head tail : W32) : Nat :=
  let avail := head - tail
  if avail ≤ size then avail.toNat else 0

/-- The largest copy one call of the card's byte-stream device makes. -/
def kncRpcBounce : Nat := 65536

/-- `knc_rpc_write`: the bytes that go in.  `count` is cut to 32 bits first. -/
def kncWriteCount (size head tail : W32) (count : Nat) : Nat :=
  min (min (count % 2 ^ 32) (size - (head - tail)).toNat) kncRpcBounce

/-- `knc_rpc_read`: the bytes that come out. -/
def kncReadCount (head tail : W32) (count : Nat) : Nat :=
  min (min (count % 2 ^ 32) (head - tail).toNat) kncRpcBounce

/-! ## the copies -/

/-- Copy `bs` into the data area from index `pos` on: up to the end of the
area, then the rest from its start. -/
def copyIn (size pos : W32) (data : Nat → UInt8) (bs : List UInt8) : Nat → UInt8 :=
  let start := pos &&& (size - 1#32)
  let room := (size - start).toNat
  let first := min bs.length room
  let data' := write data start.toNat (bs.take first)
  if bs.length ≤ first then data' else write data' 0 (bs.drop first)

/-- Copy `n` bytes out of the data area from index `pos` on. -/
def copyOut (size pos : W32) (data : Nat → UInt8) (n : Nat) : List UInt8 :=
  let start := pos &&& (size - 1#32)
  let room := (size - start).toNat
  let first := min n room
  if n ≤ first then read data start.toNat first
  else read data start.toNat first ++ read data 0 (n - first)

/-- `knc_ring_write`. -/
def kncRingWrite (size pos : W32) (data : Nat → UInt8) (bs : List UInt8) : Nat → UInt8 :=
  copyIn size pos data bs

/-- `knc_ring_read`. -/
def kncRingRead (size pos : W32) (data : Nat → UInt8) (n : Nat) : List UInt8 :=
  copyOut size pos data n

/-! ## what the copies do -/

variable (g : Geometry)

/-- The room the code computes is what is left of the area. -/
theorem toNat_room (p : Nat) :
    (g.size - (BitVec.ofNat 32 p &&& (g.size - 1#32))).toNat =
      g.size.toNat - p % g.size.toNat := by
  have hlt := Nat.mod_lt p g.size_pos
  rw [BitVec.toNat_sub_of_le (by rw [BitVec.le_def, g.toNat_and_mask]; omega), g.toNat_and_mask]

/-- The two-piece copy in is the copy around the end at the true index. -/
theorem copyIn_eq_writeWrap (p : Nat) (data : Nat → UInt8) (bs : List UInt8) :
    copyIn g.size (BitVec.ofNat 32 p) data bs = writeWrap data g.size.toNat p bs := by
  simp only [copyIn, writeWrap, toNat_room, g.toNat_and_mask]
  split
  · next h =>
      rw [List.drop_eq_nil_of_le h, write_nil]
  · rfl

/-- The two-piece copy out is the copy around the end at the true index. -/
theorem copyOut_eq_readWrap (p : Nat) (data : Nat → UInt8) (n : Nat) :
    copyOut g.size (BitVec.ofNat 32 p) data n = readWrap data g.size.toNat p n := by
  simp only [copyOut, readWrap, toNat_room, g.toNat_and_mask]
  split
  · next h =>
      have hz : n - min n (g.size.toNat - p % g.size.toNat) = 0 := by omega
      rw [hz, read_zero, List.append_nil]
  · rfl

@[simp] theorem length_copyOut (p : Nat) (data : Nat → UInt8) (n : Nat) :
    (copyOut g.size (BitVec.ofNat 32 p) data n).length = n := by
  rw [copyOut_eq_readWrap, readWrap, List.length_append, length_read, length_read]
  omega

/-! ## what the counts promise -/

section counts

variable {T : Nat} {n : Nat}

/-- While the indices are `n` bytes apart, a push takes no more than is free. -/
theorem pushCount_le (hn : n ≤ g.size.toNat) (len : Nat) :
    n + pushCount g.size (BitVec.ofNat 32 (T + n)) (BitVec.ofNat 32 T) len ≤ g.size.toNat := by
  have hsz := g.size.isLt
  have hused := toNat_ofNat_sub 32 (m := T + n) (n := T) (by omega) (by omega)
  simp only [pushCount]
  split
  · exact hn
  · next h =>
      rw [BitVec.not_le] at h
      rw [BitVec.toNat_sub_of_le (BitVec.le_of_lt h), hused]
      omega

/-- While the indices are `n` bytes apart, the rest of the area is free. -/
theorem ringFree_eq (hn : n ≤ g.size.toNat) :
    ringFree g.size (BitVec.ofNat 32 (T + n)) (BitVec.ofNat 32 T) = g.size.toNat - n := by
  have hsz := g.size.isLt
  have hused := toNat_ofNat_sub 32 (m := T + n) (n := T) (by omega) (by omega)
  have hle : BitVec.ofNat 32 (T + n) - BitVec.ofNat 32 T ≤ g.size := by
    rw [BitVec.le_def, hused]; omega
  simp only [ringFree]
  rw [if_neg (BitVec.not_lt.mpr hle), BitVec.toNat_sub_of_le hle, hused]
  omega

/-- A push of no more than is free goes in whole. -/
theorem pushCount_eq {len : Nat} (hfit : n + len ≤ g.size.toNat) :
    pushCount g.size (BitVec.ofNat 32 (T + n)) (BitVec.ofNat 32 T) len = len := by
  have hsz := g.size.isLt
  have hused := toNat_ofNat_sub 32 (m := T + n) (n := T) (by omega) (by omega)
  have hle : BitVec.ofNat 32 (T + n) - BitVec.ofNat 32 T ≤ g.size := by
    rw [BitVec.le_def, hused]; omega
  simp only [pushCount]
  split
  · next h =>
      rw [BitVec.le_def, hused] at h
      omega
  · rw [BitVec.toNat_sub_of_le hle, hused]
    omega

/-- While the indices are `n` bytes apart, that is what there is. -/
theorem ringAvail_eq (hn : n ≤ g.size.toNat) :
    ringAvail g.size (BitVec.ofNat 32 (T + n)) (BitVec.ofNat 32 T) = n := by
  have hsz := g.size.isLt
  have hused := toNat_ofNat_sub 32 (m := T + n) (n := T) (by omega) (by omega)
  have hle : BitVec.ofNat 32 (T + n) - BitVec.ofNat 32 T ≤ g.size := by
    rw [BitVec.le_def, hused]; omega
  simp only [ringAvail]
  rw [if_pos hle, hused]
  omega

/-- While the indices are `n` bytes apart, the card writes no more than is free. -/
theorem kncWriteCount_le (hn : n ≤ g.size.toNat) (count : Nat) :
    n + kncWriteCount g.size (BitVec.ofNat 32 (T + n)) (BitVec.ofNat 32 T) count ≤
      g.size.toNat := by
  have hsz := g.size.isLt
  have hused := toNat_ofNat_sub 32 (m := T + n) (n := T) (by omega) (by omega)
  have hle : BitVec.ofNat 32 (T + n) - BitVec.ofNat 32 T ≤ g.size := by
    rw [BitVec.le_def, hused]; omega
  rw [kncWriteCount, BitVec.toNat_sub_of_le hle, hused]
  omega

/-- While the indices are `n ≤ size` bytes apart, a pop sees them as
consistent and takes no more than is there. -/
theorem popCount_eq (hn : n ≤ g.size.toNat) (cap : Nat) :
    popCount g.size (BitVec.ofNat 32 (T + n)) (BitVec.ofNat 32 T) cap = some (min n cap) := by
  have hsz := g.size.isLt
  have hused := toNat_ofNat_sub 32 (m := T + n) (n := T) (by omega) (by omega)
  have hle : BitVec.ofNat 32 (T + n) - BitVec.ofNat 32 T ≤ g.size := by
    rw [BitVec.le_def, hused]; omega
  simp only [popCount]
  rw [if_pos hle, hused]
  congr 2
  omega

/-- While the indices are `n` bytes apart, the card reads no more than is there. -/
theorem kncReadCount_le (hn : n ≤ g.size.toNat) (count : Nat) :
    kncReadCount (BitVec.ofNat 32 (T + n)) (BitVec.ofNat 32 T) count ≤ n := by
  have hsz := g.size.isLt
  have hused := toNat_ofNat_sub 32 (m := T + n) (n := T) (by omega) (by omega)
  rw [kncReadCount, hused]
  omega

end counts

end Ring

end Phi
