import Phi.Lib.Circular
import Phi.Ring.Copy

/-!
# Phi.Disk.Transfer

How the host moves bytes: through the aperture to and from the card's memory
(`card.S`), and to and from the file (`pread_all`, `pwrite_all` of `disk.S`).

Each of these cuts its range in pieces: the aperture in accesses of one, eight
or 32 bytes within chunks of 4 KiB that are read back, the file in what the
kernel takes at a time.  Put together again the pieces are the range.
-/

namespace Phi.Disk

open Circular

/-! ## constants -/

def apertureWriteChunk : Nat := 4096
def gddrBytes : Nat := 6 <<< 30

/-! ## the aperture -/

/-- Stores of the given widths, one behind the other. -/
def stores (m : Nat → UInt8) : Nat → List Nat → List UInt8 → Nat → UInt8
  | _, [], _ => m
  | dst, w :: ws, bs => stores (write m dst (bs.take w)) (dst + w) ws (bs.drop w)

/-- Loads of the given widths, one behind the other. -/
def loads (m : Nat → UInt8) : Nat → List Nat → List UInt8
  | _, [] => []
  | src, w :: ws => read m src w ++ loads m (src + w) ws

/-- Single bytes up to the next multiple of eight. -/
def bytesBefore (addr len : Nat) : Nat := min len ((8 - addr % 8) % 8)

/-- The accesses of `aper_write`. -/
def writeWidths (dst len : Nat) : List Nat :=
  let k := bytesBefore dst len
  let n := len - k
  List.replicate k 1 ++ List.replicate (n / 32) 32 ++ List.replicate (n % 32 / 8) 8 ++
    List.replicate (n % 32 % 8) 1

/-- The accesses of `aper_read`. -/
def readWidths (src len : Nat) : List Nat :=
  let k := bytesBefore src len
  let n := len - k
  List.replicate k 1 ++ List.replicate (n / 8) 8 ++ List.replicate (n % 8) 1

/-- `aper_write`. -/
def aperWrite (m : Nat → UInt8) (dst : Nat) (bs : List UInt8) : Nat → UInt8 :=
  stores m dst (writeWidths dst bs.length) bs

/-- `aper_read`. -/
def aperRead (m : Nat → UInt8) (src len : Nat) : List UInt8 := loads m src (readWidths src len)

/-- `aper_check`: the range lies in the aperture; else the program exits. -/
def aperCheck (aperLen addr len : Nat) : Bool := addr + len < 2 ^ 64 && addr + len ≤ aperLen

/-- The loop of `write_paced` with its read-back; none when the program exits. -/
def writeChunks (m : Nat → UInt8) (dst : Nat) (bs : List UInt8) : Option (Nat → UInt8) :=
  if _h : bs = [] then some m
  else
    let n := min apertureWriteChunk bs.length
    let m := aperWrite m dst (bs.take n)
    let k := min 8 n
    if aperRead m (dst + n - k) k = (bs.take n).drop (n - k) then
      writeChunks m (dst + n) (bs.drop n)
    else none
termination_by bs.length
decreasing_by
  have hpos : 0 < bs.length := List.length_pos_iff.mpr _h
  rw [List.length_drop]
  unfold apertureWriteChunk
  omega

/-- `write_card_memory`; none when the program exits. -/
def writeCardMemory (aperLen : Nat) (m : Nat → UInt8) (dst : Nat) (bs : List UInt8) :
    Option (Nat → UInt8) :=
  if gddrBytes < (dst + bs.length) % 2 ^ 64 then none
  else if aperCheck aperLen dst bs.length then writeChunks m dst bs
  else none

/-- `read_card_memory`; none when the program exits. -/
def readCardMemory (aperLen : Nat) (m : Nat → UInt8) (src len : Nat) : Option (List UInt8) :=
  if aperCheck aperLen src len then some (aperRead m src len) else none

section aperture

variable {m : Nat → UInt8}

theorem stores_eq {dst : Nat} {ws : List Nat} {bs : List UInt8} (h : ws.sum = bs.length) :
    stores m dst ws bs = write m dst bs := by
  induction ws generalizing m dst bs with
  | nil =>
      rw [List.eq_nil_of_length_eq_zero h.symm, write_nil]
      rfl
  | cons w ws ih =>
      rw [List.sum_cons] at h
      have hw : (bs.take w).length = w := by
        rw [List.length_take]
        omega
      unfold stores
      rw [ih (by rw [List.length_drop]; omega)]
      have happ := write_append m dst (bs.take w) (bs.drop w)
      rw [hw, List.take_append_drop] at happ
      exact happ

theorem loads_eq (src : Nat) (ws : List Nat) : loads m src ws = read m src ws.sum := by
  induction ws generalizing src with
  | nil => rfl
  | cons w ws ih =>
      unfold loads
      rw [ih, List.sum_cons, read_append]

theorem sum_writeWidths (dst len : Nat) : (writeWidths dst len).sum = len := by
  have hk : bytesBefore dst len ≤ len := Nat.min_le_left _ _
  unfold writeWidths
  simp only [List.sum_append, List.sum_replicate_nat]
  omega

theorem sum_readWidths (src len : Nat) : (readWidths src len).sum = len := by
  have hk : bytesBefore src len ≤ len := Nat.min_le_left _ _
  unfold readWidths
  simp only [List.sum_append, List.sum_replicate_nat]
  omega

theorem aperWrite_eq (m : Nat → UInt8) (dst : Nat) (bs : List UInt8) :
    aperWrite m dst bs = write m dst bs := stores_eq (sum_writeWidths dst bs.length)

theorem aperRead_eq (m : Nat → UInt8) (src len : Nat) : aperRead m src len = read m src len := by
  unfold aperRead
  rw [loads_eq, sum_readWidths]

/-- The end of a piece just written reads back as it was written. -/
theorem read_write_end (m : Nat → UInt8) (dst : Nat) (bs : List UInt8) {k : Nat}
    (hk : k ≤ bs.length) :
    read (write m dst bs) (dst + bs.length - k) k = bs.drop (bs.length - k) := by
  have hall := read_write m dst bs
  have hdrop := drop_read (write m dst bs) dst bs.length (bs.length - k)
  rw [hall] at hdrop
  rw [hdrop]
  congr 1
  · omega
  · omega

/-- The read-back finds no difference, and the chunks together are the piece. -/
theorem writeChunks_eq (m : Nat → UInt8) (dst : Nat) (bs : List UInt8) :
    writeChunks m dst bs = some (write m dst bs) := by
  induction m, dst, bs using writeChunks.induct with
  | case1 m dst =>
      unfold writeChunks
      rw [dif_pos rfl, write_nil]
  | case2 m dst bs hne n m' k hback ih =>
      have hlen : (bs.take n).length = n := by
        rw [List.length_take]
        exact Nat.min_eq_left (Nat.min_le_right _ _)
      have happ := write_append m dst (bs.take n) (bs.drop n)
      rw [hlen, List.take_append_drop] at happ
      unfold writeChunks
      rw [dif_neg hne]
      dsimp only
      rw [if_pos hback, ih]
      show some (write (aperWrite m dst (bs.take n)) (dst + n) (bs.drop n)) = _
      rw [aperWrite_eq, happ]
  | case3 m dst bs hne n m' k hback =>
      have hlen : (bs.take n).length = n := by
        rw [List.length_take]
        exact Nat.min_eq_left (Nat.min_le_right _ _)
      have hend := read_write_end m dst (bs.take n) (k := k)
        (by rw [hlen]; exact Nat.min_le_right _ _)
      rw [hlen, ← aperWrite_eq, ← aperRead_eq] at hend
      exact absurd hend hback

theorem aperCheck_of_le {aperLen addr len : Nat} (hgddr : addr + len ≤ gddrBytes)
    (haper : addr + len ≤ aperLen) : aperCheck aperLen addr len = true := by
  have hlt : addr + len < 2 ^ 64 := by
    unfold gddrBytes at hgddr
    omega
  unfold aperCheck
  rw [Bool.and_eq_true, decide_eq_true_eq, decide_eq_true_eq]
  exact ⟨hlt, haper⟩

/-- Inside the card's memory and the aperture the program does not exit, and
the piece is where it belongs. -/
theorem writeCardMemory_eq {aperLen : Nat} (m : Nat → UInt8) {dst : Nat} {bs : List UInt8}
    (hgddr : dst + bs.length ≤ gddrBytes) (haper : dst + bs.length ≤ aperLen) :
    writeCardMemory aperLen m dst bs = some (write m dst bs) := by
  have hlt : dst + bs.length < 2 ^ 64 := by
    unfold gddrBytes at hgddr
    omega
  unfold writeCardMemory
  rw [Nat.mod_eq_of_lt hlt, if_neg (by omega), if_pos (aperCheck_of_le hgddr haper), writeChunks_eq]

theorem readCardMemory_eq {aperLen : Nat} (m : Nat → UInt8) {src len : Nat}
    (hgddr : src + len ≤ gddrBytes) (haper : src + len ≤ aperLen) :
    readCardMemory aperLen m src len = some (read m src len) := by
  unfold readCardMemory
  rw [if_pos (aperCheck_of_le hgddr haper), aperRead_eq]

end aperture

/-! ## the file -/

/-- Outcome of one `pread64` or `pwrite64`. -/
inductive IoResult where
  | moved (n : Nat)
  | interrupted
  | failed
deriving DecidableEq, Repr

/-- `pread_all`: the bytes read and whether it was all; no result while the
loop goes on. -/
def preadAll (file : Nat → UInt8) : List IoResult → Nat → Nat → Option (List UInt8 × Bool)
  | _, _, 0 => some ([], true)
  | [], _, _ + 1 => none
  | .moved n :: rs, off, len + 1 =>
      let n := min n (len + 1)
      if n = 0 then some ([], false)
      else (preadAll file rs (off + n) (len + 1 - n)).map fun (bs, ok) =>
        (read file off n ++ bs, ok)
  | .interrupted :: rs, off, len + 1 => preadAll file rs off (len + 1)
  | .failed :: _, _, _ + 1 => some ([], false)

/-- `pwrite_all`: the file and whether all was written. -/
def pwriteAll (file : Nat → UInt8) : List IoResult → Nat → List UInt8 →
    Option ((Nat → UInt8) × Bool)
  | _, _, [] => some (file, true)
  | [], _, _ :: _ => none
  | .moved n :: rs, off, b :: bs =>
      let n := min n (bs.length + 1)
      if n = 0 then some (file, false)
      else pwriteAll (write file off ((b :: bs).take n)) rs (off + n) ((b :: bs).drop n)
  | .interrupted :: rs, off, b :: bs => pwriteAll file rs off (b :: bs)
  | .failed :: _, _, _ :: _ => some (file, false)

/-- All read is the range. -/
theorem preadAll_eq {file : Nat → UInt8} {rs : List IoResult} {off len : Nat} {bs : List UInt8}
    (h : preadAll file rs off len = some (bs, true)) : bs = read file off len := by
  induction rs generalizing off len bs with
  | nil =>
      cases len with
      | zero =>
          cases h
          rfl
      | succ len => cases h
  | cons r rs ih =>
      cases len with
      | zero =>
          cases h
          rfl
      | succ len =>
          cases r with
          | interrupted => exact ih h
          | failed => cases h
          | moved n =>
              unfold preadAll at h
              dsimp only at h
              split at h
              · cases h
              · obtain ⟨⟨bs', ok⟩, hrest, heq⟩ := Option.map_eq_some_iff.mp h
                cases heq
                rw [ih hrest, ← read_append]
                congr 1
                omega

/-- All written is the piece. -/
theorem pwriteAll_eq {file file' : Nat → UInt8} {rs : List IoResult} {off : Nat}
    {bs : List UInt8} (h : pwriteAll file rs off bs = some (file', true)) :
    file' = write file off bs := by
  induction rs generalizing file off bs with
  | nil =>
      cases bs with
      | nil =>
          cases h
          exact (write_nil _ off).symm
      | cons b bs => cases h
  | cons r rs ih =>
      cases bs with
      | nil =>
          cases h
          exact (write_nil _ off).symm
      | cons b bs =>
          cases r with
          | interrupted => exact ih h
          | failed => cases h
          | moved n =>
              unfold pwriteAll at h
              dsimp only at h
              split at h
              · cases h
              · have hlen : ((b :: bs).take (min n (bs.length + 1))).length =
                    min n (bs.length + 1) := by
                  rw [List.length_take, List.length_cons]
                  omega
                have happ := write_append file off ((b :: bs).take (min n (bs.length + 1)))
                  ((b :: bs).drop (min n (bs.length + 1)))
                rw [hlen, List.take_append_drop] at happ
                rw [ih h, happ]

end Phi.Disk
