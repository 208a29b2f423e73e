import Phi.Disk.Transfer
import Phi.Lib.Move

/-!
# Phi.Disk.Aperture

The aperture copies of `card.S` as they walk their registers.

`aper_write` and `aper_read` are loops one behind the other, each with its own
width, on pointers that start anywhere and may wrap; `write_paced` calls them
chunk by chunk and compares the end of each chunk.  `Phi.Disk.Transfer` has the
same routines as lists of widths on card addresses; `aperWrite_transfer` ties
the two.
-/

namespace Phi.Disk.Aper

open Move

/-- The aperture as mapped: where (`aper_base`), how much of it (`aper_len`), the
memory behind it, and the bytes counted in `traffic`. -/
structure Aperture where
  base : W64
  len : W64
  card : Memory 64
  written : W64
  read : W64

/-- `testq $7`. -/
def unaligned (p : W64) : Bool := p &&& 7 != 0

/-- `aper_write`: from the host's memory at `data` to the card's at `addr`. -/
def aperWrite (a : Aperture) (host : Memory 64) (addr data len : W64) : Aperture :=
  let s : Move.Cursor 64 := ⟨a.card, a.base + addr, data, len.toNat⟩
  let s := s.loop host 1 fun s => unaligned s.dst
  let s := s.loop host 32 fun _ => true
  let s := s.loop host 8 fun _ => true
  let s := s.loop host 1 fun _ => true
  { a with card := s.mem, written := a.written + len }

/-- `aper_read`: the host's memory with the card's bytes at `buf`. -/
def aperRead (a : Aperture) (host : Memory 64) (addr buf len : W64) : Aperture × Memory 64 :=
  let s : Move.Cursor 64 := ⟨host, buf, a.base + addr, len.toNat⟩
  let s := s.loop a.card 1 fun s => unaligned s.src
  let s := s.loop a.card 8 fun _ => true
  let s := s.loop a.card 1 fun _ => true
  ({ a with read := a.read + len }, s.mem)

/-- `aper_check`: whether the program goes on. -/
def aperCheck (a : Aperture) (addr len : W64) : Bool :=
  addr.toNat + len.toNat < 2 ^ 64 && addr + len ≤ a.len

/-- The buffer `probe`; no source lies in it. -/
def probe : Memory 64 := fun _ => 0

/-- `repe cmpsb`. -/
def cmpsb (m m' : Memory 64) (p p' : W64) (n : Nat) : Bool :=
  (List.range n).all fun i => m (p + BitVec.ofNat 64 i) == m' (p' + BitVec.ofNat 64 i)

/-- The loop of `write_paced`; none when the program exits. -/
def pacedLoop (host : Memory 64) (chunk : Nat) (readback : Bool) (a : Aperture) (dst src : W64)
    (len : Nat) : Option Aperture :=
  if _h : len = 0 then some a
  else
    let n := min (max chunk 8) len
    let a := aperWrite a host dst src (BitVec.ofNat 64 n)
    let k := min n 8
    let back := aperRead a probe (dst + BitVec.ofNat 64 n - BitVec.ofNat 64 k) 0 (BitVec.ofNat 64 k)
    if readback = false then
      pacedLoop host chunk readback a (dst + BitVec.ofNat 64 n) (src + BitVec.ofNat 64 n) (len - n)
    else if cmpsb host back.2 (src + BitVec.ofNat 64 n - BitVec.ofNat 64 k) 0 k = true then
      pacedLoop host chunk readback back.1 (dst + BitVec.ofNat 64 n) (src + BitVec.ofNat 64 n)
        (len - n)
    else none
termination_by len

/-- `write_paced`; none when the program exits. -/
def writePaced (a : Aperture) (host : Memory 64) (addr data len chunk : W64) (readback : Bool) :
    Option Aperture :=
  if aperCheck a addr len = true then pacedLoop host chunk.toNat readback a addr data len.toNat
  else none

/-! ## what they move -/

theorem aperWrite_eq (a : Aperture) (host : Memory 64) (addr data len : W64) :
    aperWrite a host addr data len =
      { a with
        card := copied a.card host (a.base + addr) data len.toNat
        written := a.written + len } := by
  have hlen : len.toNat ≤ 2 ^ 64 := Nat.le_of_lt len.isLt
  let s : Move.Cursor 64 := ⟨a.card, a.base + addr, data, len.toNat⟩
  obtain ⟨i, hi, hhead, -⟩ := s.loop_ahead host (n := 1) (by decide) (fun s => unaligned s.dst) hlen
  obtain ⟨j, hj, hwide, -⟩ := s.ahead_loop host (n := 32) (by decide) (fun _ => true) hlen hi
  obtain ⟨k, hk, hquad, -⟩ := s.ahead_loop host (n := 8) (by decide) (fun _ => true) hlen hj
  obtain ⟨l, hl, htail, hend⟩ := s.ahead_loop host (n := 1) (by decide) (fun _ => true) hlen hk
  have hle : l ≤ len.toNat := hl
  have hless : len.toNat - l < 1 := hend fun _ => rfl
  have hall : l = len.toNat := by omega
  show { a with card := _, written := _ } = _
  rw [hhead, hwide, hquad, htail, hall]
  rfl

theorem aperRead_eq (a : Aperture) (host : Memory 64) (addr buf len : W64) :
    aperRead a host addr buf len =
      ({ a with read := a.read + len },
        copied host a.card buf (a.base + addr) len.toNat) := by
  have hlen : len.toNat ≤ 2 ^ 64 := Nat.le_of_lt len.isLt
  let s : Move.Cursor 64 := ⟨host, buf, a.base + addr, len.toNat⟩
  obtain ⟨i, hi, hhead, -⟩ :=
    s.loop_ahead a.card (n := 1) (by decide) (fun s => unaligned s.src) hlen
  obtain ⟨j, hj, hquad, -⟩ := s.ahead_loop a.card (n := 8) (by decide) (fun _ => true) hlen hi
  obtain ⟨k, hk, htail, hend⟩ := s.ahead_loop a.card (n := 1) (by decide) (fun _ => true) hlen hj
  have hle : k ≤ len.toNat := hk
  have hless : len.toNat - k < 1 := hend fun _ => rfl
  have hall : k = len.toNat := by omega
  show (_, Move.Cursor.mem _) = _
  rw [hhead, hquad, htail, hall]
  rfl

/-- What was just written reads back. -/
theorem cmpsb_written (a : Aperture) (host : Memory 64) (dst src : W64) {n k : Nat} (hk : k ≤ n)
    (hn : n < 2 ^ 64) :
    cmpsb host
      (aperRead (aperWrite a host dst src (BitVec.ofNat 64 n)) probe
        (dst + BitVec.ofNat 64 n - BitVec.ofNat 64 k) 0 (BitVec.ofNat 64 k)).2
      (src + BitVec.ofNat 64 n - BitVec.ofNat 64 k) 0 k = true := by
  rw [cmpsb, List.all_eq_true]
  intro i hi
  have hik : i < k := List.mem_range.mp hi
  have hsub : BitVec.ofNat 64 n - BitVec.ofNat 64 k = BitVec.ofNat 64 (n - k) :=
    BitVec.ofNat_sub_ofNat_of_le _ _ (by omega) hk
  have hi0 : (0 + BitVec.ofNat 64 i - 0 : W64) = BitVec.ofNat 64 i := by simp
  have hoff : a.base + (dst + BitVec.ofNat 64 n - BitVec.ofNat 64 k) + BitVec.ofNat 64 i -
      (a.base + dst) = BitVec.ofNat 64 (n - k + i) := by
    rw [BitVec.ofNat_add, ← hsub]
    grind
  have hsrc : src + BitVec.ofNat 64 (n - k + i) =
      src + BitVec.ofNat 64 n - BitVec.ofNat 64 k + BitVec.ofNat 64 i := by
    rw [BitVec.ofNat_add, ← hsub]
    grind
  have hprobe : (BitVec.ofNat 64 i).toNat < (BitVec.ofNat 64 k).toNat := by
    rw [BitVec.toNat_ofNat, BitVec.toNat_ofNat, Nat.mod_eq_of_lt (by omega),
      Nat.mod_eq_of_lt (by omega)]
    exact hik
  have hcard : (BitVec.ofNat 64 (n - k + i)).toNat < (BitVec.ofNat 64 n).toNat := by
    rw [BitVec.toNat_ofNat, BitVec.toNat_ofNat, Nat.mod_eq_of_lt (by omega), Nat.mod_eq_of_lt hn]
    omega
  rw [aperWrite_eq, aperRead_eq]
  simp only [copied, hi0, hprobe, if_true, hoff, hcard, hsrc, beq_self_eq_true]

/-- No comparison fails, and the chunks together are the copy. -/
theorem pacedLoop_eq (host : Memory 64) (chunk : Nat) (readback : Bool) (a : Aperture)
    (dst src : W64) (len : Nat) (h : len < 2 ^ 64) :
    ∃ b, pacedLoop host chunk readback a dst src len = some b ∧
      b.card = copied a.card host (a.base + dst) src len ∧ b.base = a.base ∧ b.len = a.len ∧
      b.written = a.written + BitVec.ofNat 64 len := by
  induction len using Nat.strongRecOn generalizing a dst src with
  | ind len ih =>
      by_cases hzero : len = 0
      · subst hzero
        refine ⟨a, ?_, by simp, rfl, rfl, by simp⟩
        rw [pacedLoop, dif_pos rfl]
      · have hn : min (max chunk 8) len ≤ len := Nat.min_le_right _ _
        have hpos : 0 < min (max chunk 8) len := by omega
        generalize hmin : min (max chunk 8) len = n at hn hpos
        -- the rest of the copy, from whatever the chunk left
        have hrest : ∀ c : Aperture, c.card = copied a.card host (a.base + dst) src n →
            c.base = a.base → c.len = a.len → c.written = a.written + BitVec.ofNat 64 n →
            ∃ b, pacedLoop host chunk readback c (dst + BitVec.ofNat 64 n) (src + BitVec.ofNat 64 n)
                (len - n) = some b ∧
              b.card = copied a.card host (a.base + dst) src len ∧ b.base = a.base ∧
              b.len = a.len ∧ b.written = a.written + BitVec.ofNat 64 len := by
          intro c hcard hbase hlen hwritten
          obtain ⟨b, hb, hbcard, hbbase, hblen, hbwritten⟩ := ih (len - n) (by omega) c
            (dst + BitVec.ofNat 64 n) (src + BitVec.ofNat 64 n) (by omega)
          refine ⟨b, hb, ?_, hbbase.trans hbase, hblen.trans hlen, ?_⟩
          · rw [hbcard, hcard, hbase, ← BitVec.add_assoc, copied_copied _ _ _ _ (by omega)]
            congr 1
            omega
          · rw [hbwritten, hwritten, BitVec.add_assoc, ← BitVec.ofNat_add]
            congr 2
            omega
        have hmod : (BitVec.ofNat 64 n).toNat = n := by
          rw [BitVec.toNat_ofNat, Nat.mod_eq_of_lt (by omega)]
        have hback := cmpsb_written a host dst src (n := n) (k := min n 8) (Nat.min_le_left _ _)
          (by omega)
        rw [pacedLoop, dif_neg hzero]
        dsimp only
        rw [hmin, hback, if_pos rfl]
        cases readback with
        | false =>
            rw [if_pos rfl]
            exact hrest _ (by rw [aperWrite_eq, hmod]) (by rw [aperWrite_eq]) (by rw [aperWrite_eq])
              (by rw [aperWrite_eq])
        | true =>
            rw [if_neg (by decide)]
            exact hrest _ (by rw [aperRead_eq, aperWrite_eq, hmod])
              (by rw [aperRead_eq, aperWrite_eq]) (by rw [aperRead_eq, aperWrite_eq])
              (by rw [aperRead_eq, aperWrite_eq])

/-- The bytes at `p`. -/
def bytesAt (m : Memory 64) (p : W64) (n : Nat) : List UInt8 :=
  (List.range n).map fun i => m (p + BitVec.ofNat 64 i)

/-- Seen from the card's addresses a write is the one of the list model. -/
theorem aperWrite_transfer (a : Aperture) (host : Memory 64) (addr data len : W64)
    (hfit : addr.toNat + len.toNat ≤ 2 ^ 64) {x : Nat} (hx : x < 2 ^ 64) :
    (aperWrite a host addr data len).card (a.base + BitVec.ofNat 64 x) =
      Disk.aperWrite (fun y => a.card (a.base + BitVec.ofNat 64 y)) addr.toNat
        (bytesAt host data len.toNat) x := by
  have hlen : (bytesAt host data len.toNat).length = len.toNat := by simp [bytesAt]
  have hoff : a.base + BitVec.ofNat 64 x - (a.base + addr) = BitVec.ofNat 64 x - addr := by
    grind
  rw [aperWrite_eq, Disk.aperWrite_eq]
  simp only [copied, hoff]
  have haddr := addr.isLt
  have hx64 : (BitVec.ofNat 64 x).toNat = x := by rw [BitVec.toNat_ofNat, Nat.mod_eq_of_lt hx]
  have hdist : (BitVec.ofNat 64 x - addr).toNat = (2 ^ 64 - addr.toNat + x) % 2 ^ 64 := by
    rw [BitVec.toNat_sub, hx64]
  by_cases hle : addr.toNat ≤ x
  · obtain ⟨k, rfl⟩ := Nat.exists_eq_add_of_le hle
    have hk : (BitVec.ofNat 64 (addr.toNat + k) - addr).toNat = k := by
      rw [hdist]
      omega
    have hofNat : BitVec.ofNat 64 (addr.toNat + k) - addr = BitVec.ofNat 64 k :=
      BitVec.eq_of_toNat_eq (by rw [hk, BitVec.toNat_ofNat, Nat.mod_eq_of_lt (by omega)])
    rw [hk, hofNat]
    by_cases hin : k < len.toNat
    · rw [if_pos hin, Circular.write_of_mem _ (by rw [hlen]; exact hin)]
      simp [bytesAt]
    · rw [if_neg hin, Circular.write_of_not_mem _ (.inr (by rw [hlen]; omega))]
  · rw [if_neg (by rw [hdist]; omega), Circular.write_of_not_mem _ (.inl (by omega))]

/-! ## the copies are exact -/

/-- `m'` is `m` with the `len` bytes of `source` from `src` on put at `dst`. -/
def Exact (m m' source : Memory 64) (dst src len : W64) : Prop :=
  ∀ x, m' x = if x - dst < len then source (src + (x - dst)) else m x

theorem exact_copied (m source : Memory 64) (dst src len : W64) :
    Exact m (copied m source dst src len.toNat) source dst src len := fun _ => rfl

/-- **Aperture copies are exact**, whatever the addresses, the length, the chunk
and where the accesses fall; `write_paced` exits only for a range outside the
aperture, and before it has written anything. -/
theorem copies_exact (a : Aperture) (host : Memory 64) (addr p len chunk : W64) (readback : Bool) :
    Exact a.card (aperWrite a host addr p len).card host (a.base + addr) p len ∧
      Exact host (aperRead a host addr p len).2 a.card p (a.base + addr) len ∧
      (aperRead a host addr p len).1.card = a.card ∧
      (aperCheck a addr len = true →
        ∃ b, writePaced a host addr p len chunk readback = some b ∧
          Exact a.card b.card host (a.base + addr) p len) ∧
      (aperCheck a addr len = false → writePaced a host addr p len chunk readback = none) := by
  refine ⟨?_, ?_, ?_, fun hcheck => ?_, fun hcheck => ?_⟩
  · rw [aperWrite_eq]
    exact exact_copied _ _ _ _ _
  · rw [aperRead_eq]
    exact exact_copied _ _ _ _ _
  · rw [aperRead_eq]
  · obtain ⟨b, hb, hcard, -⟩ :=
      pacedLoop_eq host chunk.toNat readback a addr p len.toNat len.isLt
    refine ⟨b, ?_, ?_⟩
    · rw [writePaced, if_pos hcheck, hb]
    · rw [hcard]
      exact exact_copied _ _ _ _ _
  · rw [writePaced, hcheck]
    rfl

end Phi.Disk.Aper
