import Phi.Lib.Bytes
import Phi.Lib.Circular

/-!
# Phi.Boot.Sfi

The card's reader of the bootstrap's SFI tables (`knc_sfi.c`).

The system table is looked for on 16-byte boundaries of a stretch of low memory;
it lists the addresses of the other tables, and every table sums to zero over
its length.  The memory is the bootstrap's: nothing is taken for granted about
it, so an access outside of what was mapped is a fault of the model.
-/

namespace Phi.Sfi

open Circular

/-! ## memory -/

/-- Physical memory, and the stretches of it that can be mapped. -/
structure Phys where
  mem : Nat → UInt8
  maps : Nat → Nat → Bool

/-- `early_memremap`. -/
def Phys.memremap (p : Phys) (pa len : Nat) : Option (List UInt8) :=
  if p.maps pa len then some (read p.mem pa len) else none

/-- Bytes of a mapping; the access faults outside of it. -/
def bytesAt (m : List UInt8) (off n : Nat) : Option (List UInt8) :=
  if off + n ≤ m.length then some ((m.drop off).take n) else none

/-- A field of `n` bytes. -/
def field (m : List UInt8) (off n : Nat) : Option Nat := (bytesAt m off n).map ofLe

/-! ## what is read from the tables -/

/-- An array of `knc_sfi_info` with the number of its entries in use. -/
structure Slots (α : Type) (cap : Nat) where
  items : List α
  fits : items.length ≤ cap

section slots

variable {α : Type} {cap : Nat}

def Slots.none : Slots α cap := ⟨[], Nat.zero_le _⟩

def Slots.push (s : Slots α cap) (a : α) (h : s.items.length < cap) : Slots α cap where
  items := s.items ++ [a]
  fits := by rw [List.length_append, List.length_singleton]; exact h

/-- `for (i = 0; i < n && num < cap; i++) a[num++] = e[i]`, with `k` rounds left. -/
def fill (e : Nat → Option α) : Nat → Nat → Slots α cap → Option (Slots α cap)
  | 0, _, s => some s
  | k + 1, i, s =>
      if h : s.items.length < cap then do
        let a ← e i
        fill e k (i + 1) (s.push a h)
      else some s

end slots

/-- An element of `mem`. -/
structure MemRange where
  start : Nat
  size : Nat
  type : Nat
deriving DecidableEq, Repr

/-- `struct knc_sfi_info`. -/
structure KncSfiInfo where
  apicIds : Slots Nat 256
  ioapicPhys : Slots Nat 4
  mem : Slots MemRange 32

def KncSfiInfo.zero : KncSfiInfo := ⟨.none, .none, .none⟩

/-! ## the reader -/

/-- `sizeof(struct sfi_table_header)`. -/
def hdrSize : Nat := 24

def searchBegin : Nat := 0xE0000
def span : Nat := 0x20000
def systMaxLen : Nat := 4096
def tableMaxLen : Nat := 0x100000

def sigSyst : List UInt8 := [83, 89, 83, 84]
def sigCpus : List UInt8 := [67, 80, 85, 83]
def sigApic : List UInt8 := [65, 80, 73, 67]
def sigMmap : List UInt8 := [77, 77, 65, 80]

/-- `sfi_checksum_ok`, on the table at an offset of a mapping. -/
def sfiChecksumOk (m : List UInt8) (off len : Nat) : Option Bool :=
  ((List.range len).foldlM (fun sum i => m[off + i]?.map (sum + ·)) (0 : UInt8)).map (· == 0)

/-- `sfi_map_table`: the table and its length; nothing for one that is refused. -/
def sfiMapTable (p : Phys) (pa : Nat) : Option (Option (List UInt8 × Nat)) :=
  match p.memremap pa hdrSize with
  | none => some none
  | some h => do
      let len ← field h 4 4
      if len < hdrSize ∨ tableMaxLen < len then some none
      else match p.memremap pa len with
        | none => some none
        | some h => do
            let ok ← sfiChecksumOk h 0 len
            some (if ok then some (h, len) else none)

/-- `SFI_ENTRIES`. -/
def sfiEntries (len size : Nat) : Nat := (len - hdrSize) / size

/-- `struct sfi_mem_entry`: its start, its size from its pages, its type. -/
def memEntry (h : List UInt8) (i : Nat) : Option MemRange := do
  let start ← field h (hdrSize + 36 * i + 4) 8
  let pages ← field h (hdrSize + 36 * i + 20) 8
  let type ← field h (hdrSize + 36 * i) 4
  some ⟨start, pages <<< 12 % 2 ^ 64, type⟩

/-- `sfi_parse_one`. -/
def sfiParseOne (p : Phys) (info : KncSfiInfo) (pa : Nat) : Option KncSfiInfo := do
  match ← sfiMapTable p pa with
  | none => some info
  | some (h, len) =>
      let sig ← bytesAt h 0 4
      if sig = sigCpus then
        let ids ← fill (fun i => field h (hdrSize + 4 * i) 4) (sfiEntries len 4) 0 info.apicIds
        some { info with apicIds := ids }
      else if sig = sigApic then
        let phys ← fill (fun i => field h (hdrSize + 8 * i) 8) (sfiEntries len 8) 0 info.ioapicPhys
        some { info with ioapicPhys := phys }
      else if sig = sigMmap then
        let mem ← fill (memEntry h) (sfiEntries len 36) 0 info.mem
        some { info with mem := mem }
      else some info

/-- The search for the system table, from an offset on. -/
def findSyst (start : List UInt8) (off : Nat) : Option (Option Nat) :=
  if span < off + hdrSize then some none
  else do
    let sig ← bytesAt start off 4
    if sig ≠ sigSyst then findSyst start (off + 16)
    else
      let len ← field start (off + 4) 4
      if len < hdrSize ∨ systMaxLen < len ∨ span < off + len then findSyst start (off + 16)
      else
        let ok ← sfiChecksumOk start off len
        if ok then some (some off) else findSyst start (off + 16)
termination_by span - off
decreasing_by all_goals simp only [span, hdrSize] at *; omega

/-- `knc_sfi_parse`: whether it returns 0, and what it leaves in `info`. -/
def kncSfiParse (p : Phys) : Option (Bool × KncSfiInfo) :=
  match p.memremap searchBegin span with
  | none => some (false, .zero)
  | some start => do
      match ← findSyst start 0 with
      | none => some (false, .zero)
      | some off =>
          let len ← field start (off + 4) 4
          let info ← (List.range (sfiEntries len 8)).foldlM (fun info i => do
            let pa ← field start (off + hdrSize + 8 * i) 8
            sfiParseOne p info pa) .zero
          some (info.apicIds.items ≠ [], info)

/-! ## what the tables say -/

/-- A number of `n` bytes. -/
def word (m : List UInt8) (off n : Nat) : Nat := ofLe ((m.drop off).take n)

/-- What the bytes add up to. -/
def byteSum (t : List UInt8) : UInt8 := t.foldl (· + ·) 0

/-- A table that is in order. -/
structure IsTable (t : List UInt8) : Prop where
  header : hdrSize ≤ t.length
  len : word t 4 4 = t.length
  sum : byteSum t = 0

instance (t : List UInt8) : Decidable (IsTable t) :=
  decidable_of_iff (hdrSize ≤ t.length ∧ word t 4 4 = t.length ∧ byteSum t = 0)
    ⟨fun h => ⟨h.1, h.2.1, h.2.2⟩, fun h => ⟨h.header, h.len, h.sum⟩⟩

/-- The bytes at an address, as many as the header there says. -/
def Phys.told (p : Phys) (pa : Nat) : List UInt8 := read p.mem pa (word (read p.mem pa hdrSize) 4 4)

/-- The table at an address. -/
def Phys.table (p : Phys) (pa : Nat) : Option (List UInt8) :=
  if p.maps pa hdrSize ∧ p.maps pa (p.told pa).length ∧ (p.told pa).length ≤ tableMaxLen ∧
    IsTable (p.told pa) then some (p.told pa) else none

/-- A system table in the stretch that is searched. -/
structure Phys.IsSyst (p : Phys) (off : Nat) : Prop where
  boundary : 16 ∣ off
  inside : off + (p.told (searchBegin + off)).length ≤ span
  header : off + hdrSize ≤ span
  sig : (p.told (searchBegin + off)).take 4 = sigSyst
  short : (p.told (searchBegin + off)).length ≤ systMaxLen
  table : IsTable (p.told (searchBegin + off))

/-- The entries of a table, of so many bytes each. -/
def entries (size : Nat) (t : List UInt8) : List (List UInt8) :=
  (List.range (sfiEntries t.length size)).map fun i => (t.drop (hdrSize + size * i)).take size

/-- The entries of all tables of a kind, in order. -/
def listed (sig : List UInt8) (size : Nat) (ts : List (List UInt8)) : List (List UInt8) :=
  (ts.filter fun t => t.take 4 = sig).flatMap (entries size)

/-- The tables that a system table lists. -/
def Phys.tables (p : Phys) (syst : List UInt8) : List (List UInt8) :=
  (entries 8 syst).filterMap fun e => p.table (ofLe e)

/-- A memory descriptor. -/
def rangeOf (e : List UInt8) : MemRange := ⟨word e 4 8, word e 20 8 <<< 12 % 2 ^ 64, word e 0 4⟩

/-! ## accesses -/

section accesses

variable {m : List UInt8} {off n : Nat}

theorem bytesAt_eq (h : off + n ≤ m.length) : bytesAt m off n = some ((m.drop off).take n) :=
  if_pos h

theorem field_eq (h : off + n ≤ m.length) : field m off n = some (word m off n) := by
  rw [field, bytesAt_eq h]
  rfl

/-- A field of a stretch of the bytes. -/
theorem word_stretch {a k : Nat} (h : off + n ≤ k) :
    word ((m.drop a).take k) off n = word m (a + off) n := by
  rw [word, word, List.drop_take, List.take_take, List.drop_drop, Nat.min_eq_left (by omega)]

theorem word_read (mem : Nat → UInt8) {a k : Nat} (h : off + n ≤ k) :
    word (read mem a k) off n = ofLe (read mem (a + off) n) := by
  rw [word, drop_read, take_read _ (by omega)]

theorem stretch_read (mem : Nat → UInt8) {a k : Nat} (h : off + n ≤ k) :
    ((read mem a k).drop off).take n = read mem (a + off) n := by
  rw [drop_read, take_read _ (by omega)]

theorem foldlM_bytes (sum : UInt8) (h : off + n ≤ m.length) :
    (List.range n).foldlM (fun sum i => m[off + i]?.map (sum + ·)) sum =
      some (((m.drop off).take n).foldl (· + ·) sum) := by
  induction n with
  | zero => rfl
  | succ n ih =>
      have hlt : off + n < m.length := by omega
      rw [List.range_succ, List.foldlM_append, ih (by omega), List.take_add_one, List.foldl_append,
        List.getElem?_drop, List.getElem?_eq_getElem hlt]
      simp [List.getElem?_eq_getElem hlt]

theorem sfiChecksumOk_eq (h : off + n ≤ m.length) :
    sfiChecksumOk m off n = some (byteSum ((m.drop off).take n) == 0) := by
  rw [sfiChecksumOk, foldlM_bytes 0 h]
  rfl

end accesses

/-! ## the arrays -/

section arrays

variable {α : Type} {cap : Nat}

/-- More entries, as many as there is room for. -/
def Slots.add (s : Slots α cap) (as : List α) : Slots α cap where
  items := (s.items ++ as).take cap
  fits := List.length_take_le _ _

theorem Slots.ext {s t : Slots α cap} (h : s.items = t.items) : s = t := by
  cases s
  cases t
  cases h
  rfl

@[simp] theorem Slots.add_nil (s : Slots α cap) : s.add [] = s :=
  Slots.ext (by
    show (s.items ++ []).take cap = s.items
    rw [List.append_nil, List.take_of_length_le s.fits])

theorem take_take_append (xs ys : List α) : (xs.take cap ++ ys).take cap = (xs ++ ys).take cap := by
  rw [List.take_append, List.take_append, List.take_take, Nat.min_self, List.length_take]
  obtain h | h := Nat.le_total cap xs.length
  · rw [Nat.min_eq_left h, Nat.sub_self, Nat.sub_eq_zero_of_le h]
  · rw [Nat.min_eq_right h]

theorem Slots.add_add (s : Slots α cap) (as bs : List α) : (s.add as).add bs = s.add (as ++ bs) :=
  Slots.ext (by
    show ((s.items ++ as).take cap ++ bs).take cap = (s.items ++ (as ++ bs)).take cap
    rw [take_take_append, List.append_assoc])

/-- The loop takes the entries in order until the array is full. -/
theorem fill_eq {e : Nat → Option α} {f : Nat → α} {k i : Nat} (s : Slots α cap)
    (he : ∀ j, i ≤ j → j < i + k → e j = some (f j)) :
    fill e k i s = some (s.add ((List.range' i k).map f)) := by
  induction k generalizing i s with
  | zero => exact congrArg some s.add_nil.symm
  | succ k ih =>
      rw [fill]
      split
      · next h =>
          rw [he i (Nat.le_refl i) (by omega), Option.bind_eq_bind, Option.bind_some,
            ih _ fun j hj hj' => he j (by omega) (by omega), List.range'_succ, List.map_cons]
          refine congrArg some (Slots.ext ?_)
          show (s.items ++ [f i] ++ _).take cap = (s.items ++ f i :: _).take cap
          rw [List.append_assoc, List.singleton_append]
      · next h =>
          refine congrArg some (Slots.ext ?_)
          show s.items = (s.items ++ _).take cap
          rw [List.take_append_of_le_length (by omega), List.take_of_length_le s.fits]

end arrays

/-- The entries of more tables. -/
def KncSfiInfo.add (info : KncSfiInfo) (ts : List (List UInt8)) : KncSfiInfo where
  apicIds := info.apicIds.add ((listed sigCpus 4 ts).map ofLe)
  ioapicPhys := info.ioapicPhys.add ((listed sigApic 8 ts).map ofLe)
  mem := info.mem.add ((listed sigMmap 36 ts).map rangeOf)

@[simp] theorem listed_nil (sig : List UInt8) (size : Nat) : listed sig size [] = [] := rfl

theorem listed_append (sig : List UInt8) (size : Nat) (ts us : List (List UInt8)) :
    listed sig size (ts ++ us) = listed sig size ts ++ listed sig size us := by
  rw [listed, List.filter_append, List.flatMap_append]
  rfl

theorem listed_same {sig t : List UInt8} (size : Nat) (h : t.take 4 = sig) :
    listed sig size [t] = entries size t := by
  rw [listed, List.filter_cons_of_pos (by simpa using h), List.filter_nil, List.flatMap_singleton]

theorem listed_other {sig t : List UInt8} (size : Nat) (h : t.take 4 ≠ sig) :
    listed sig size [t] = [] := by
  rw [listed, List.filter_cons_of_neg (by simpa using h), List.filter_nil, List.flatMap_nil]

@[simp] theorem KncSfiInfo.add_nil (info : KncSfiInfo) : info.add [] = info := by
  simp only [KncSfiInfo.add, listed_nil, List.map_nil, Slots.add_nil]

theorem KncSfiInfo.add_add (info : KncSfiInfo) (ts us : List (List UInt8)) :
    (info.add ts).add us = info.add (ts ++ us) := by
  simp only [KncSfiInfo.add, Slots.add_add, listed_append, List.map_append]

/-! ## a table -/

theorem told_length (p : Phys) (pa : Nat) :
    (p.told pa).length = word (read p.mem pa hdrSize) 4 4 := length_read _ _ _

/-- A header that is there says its own length. -/
theorem word_told (p : Phys) {pa : Nat} (h : hdrSize ≤ (p.told pa).length) :
    word (p.told pa) 4 4 = (p.told pa).length := by
  rw [told_length, Phys.told, word_read _ (by rw [← told_length]; unfold hdrSize at h; omega),
    word_read _ (by decide)]

/-- A table is mapped as it stands in memory, or refused. -/
theorem sfiMapTable_eq (p : Phys) (pa : Nat) :
    sfiMapTable p pa = some ((p.table pa).map fun t => (t, t.length)) := by
  have hlen := told_length p pa
  unfold sfiMapTable Phys.memremap Phys.table
  by_cases hmap : p.maps pa hdrSize = true
  · rw [if_pos hmap]
    have hfield : field (read p.mem pa hdrSize) 4 4 = some (p.told pa).length := by
      rw [field_eq (by rw [length_read]; decide), hlen]
    simp only [hfield, Option.bind_eq_bind, Option.bind_some]
    by_cases hbad : (p.told pa).length < hdrSize ∨ tableMaxLen < (p.told pa).length
    · rw [if_pos hbad, if_neg]
      · rfl
      · rintro ⟨-, -, hmax, htable⟩
        have := htable.header
        omega
    · rw [if_neg hbad]
      have hheader : hdrSize ≤ (p.told pa).length := by omega
      by_cases hmap' : p.maps pa (p.told pa).length = true
      · have hbytes : read p.mem pa (p.told pa).length = p.told pa := by rw [hlen, Phys.told]
        have hsumOk : sfiChecksumOk (p.told pa) 0 (p.told pa).length =
            some (byteSum (p.told pa) == 0) := by
          rw [sfiChecksumOk_eq (by omega), List.drop_zero, List.take_length]
        rw [if_pos hmap', hbytes]
        simp only [hsumOk, Option.bind_some]
        by_cases hsum : byteSum (p.told pa) = 0
        · have hok : (byteSum (p.told pa) == 0) = true := by simpa using hsum
          have htable : IsTable (p.told pa) := ⟨hheader, word_told p hheader, hsum⟩
          rw [if_pos hok, if_pos ⟨hmap, hmap', Nat.le_of_not_lt fun h => hbad (.inr h), htable⟩]
          rfl
        · have hok : ¬ (byteSum (p.told pa) == 0) = true := by simpa using hsum
          rw [if_neg hok, if_neg fun h => hsum h.2.2.2.sum]
          rfl
      · rw [if_neg hmap', if_neg fun h => hmap' h.2.1]
        rfl
  · rw [if_neg hmap, if_neg fun h => hmap h.1]
    rfl

/-- The entries lie in the table. -/
theorem entry_le {t : List UInt8} {size i : Nat} (h : i < sfiEntries t.length size) :
    hdrSize + size * i + size ≤ t.length := by
  have hle : size * (i + 1) ≤ t.length - hdrSize :=
    Nat.le_trans (Nat.mul_le_mul_left size h) (Nat.mul_div_le _ _)
  rw [Nat.mul_succ] at hle
  unfold sfiEntries at h
  have hpos : 0 < (t.length - hdrSize) / size := by omega
  have hnonempty : t.length - hdrSize ≠ 0 := by
    intro hzero
    rw [hzero, Nat.zero_div] at hpos
    exact Nat.lt_irrefl 0 hpos
  omega

theorem memEntry_eq {t : List UInt8} {i : Nat} (h : i < sfiEntries t.length 36) :
    memEntry t i = some (rangeOf ((t.drop (hdrSize + 36 * i)).take 36)) := by
  have hle := entry_le h
  rw [memEntry, field_eq (by omega), field_eq (by omega), field_eq (by omega), rangeOf,
    word_stretch (by decide), word_stretch (by decide), word_stretch (by decide)]
  rfl

/-- The loop of a table. -/
theorem fill_entries {α : Type} {cap size : Nat} {t : List UInt8} {e : Nat → Option α}
    {f : List UInt8 → α} (s : Slots α cap)
    (he : ∀ i < sfiEntries t.length size,
      e i = some (f ((t.drop (hdrSize + size * i)).take size))) :
    fill e (sfiEntries t.length size) 0 s = some (s.add ((entries size t).map f)) := by
  rw [fill_eq s fun j _ hj => he j (by omega), entries, List.map_map, List.range_eq_range']
  rfl

/-- **Step lemma**: a table is read for what it lists. -/
theorem sfiParseOne_eq (p : Phys) (info : KncSfiInfo) (pa : Nat) :
    sfiParseOne p info pa = some (info.add (p.table pa).toList) := by
  rw [sfiParseOne, sfiMapTable_eq]
  cases htable : p.table pa with
  | none => exact congrArg some info.add_nil.symm
  | some t =>
      have hheader : hdrSize ≤ t.length := by
        unfold Phys.table at htable
        split at htable
        · next h =>
            cases htable
            exact h.2.2.2.header
        · cases htable
      have hsig : bytesAt t 0 4 = some (t.take 4) := by
        rw [bytesAt_eq (by unfold hdrSize at hheader; omega), List.drop_zero]
      simp only [Option.map_some, Option.bind_eq_bind, Option.bind_some, hsig,
        Option.toList_some]
      split
      · next hcpus =>
          rw [fill_entries info.apicIds fun i hi => by
            rw [field_eq (entry_le hi)]
            rfl]
          rw [KncSfiInfo.add, listed_same 4 hcpus, listed_other 8 (by rw [hcpus]; decide),
            listed_other 36 (by rw [hcpus]; decide)]
          simp only [List.map_nil, Slots.add_nil]
          rfl
      · next hcpus =>
          split
          · next hapic =>
              rw [fill_entries info.ioapicPhys fun i hi => by
                rw [field_eq (entry_le hi)]
                rfl]
              rw [KncSfiInfo.add, listed_other 4 hcpus, listed_same 8 hapic,
                listed_other 36 (by rw [hapic]; decide)]
              simp only [List.map_nil, Slots.add_nil]
              rfl
          · next hapic =>
              split
              · next hmmap =>
                  rw [fill_entries info.mem fun i hi => memEntry_eq hi]
                  rw [KncSfiInfo.add, listed_other 4 hcpus, listed_other 8 hapic,
                    listed_same 36 hmmap]
                  simp only [List.map_nil, Slots.add_nil]
                  rfl
              · next hmmap =>
                  rw [KncSfiInfo.add, listed_other 4 hcpus, listed_other 8 hapic,
                    listed_other 36 hmmap]
                  simp only [List.map_nil, Slots.add_nil]

/-- **Run lemma**: so are the tables at the addresses of a list. -/
theorem foldlM_parseOne (p : Phys) {e : Nat → Option Nat} {pa : Nat → Nat} (is : List Nat)
    (he : ∀ i ∈ is, e i = some (pa i)) (info : KncSfiInfo) :
    is.foldlM (fun info i => (e i).bind fun pa => sfiParseOne p info pa) info =
      some (info.add (is.filterMap fun i => p.table (pa i))) := by
  induction is generalizing info with
  | nil => exact congrArg some info.add_nil.symm
  | cons i is ih =>
      have hrest := ih fun j hj => he j (List.mem_cons_of_mem i hj)
      rw [List.foldlM_cons, he i List.mem_cons_self, Option.bind_some, sfiParseOne_eq,
        Option.bind_eq_bind, Option.bind_some, hrest, KncSfiInfo.add_add]
      rw [List.filterMap_cons]
      cases p.table (pa i) <;> rfl

/-! ## the system table -/

section search

variable (p : Phys) {off : Nat}

/-- The stretch that is searched. -/
def Phys.low : List UInt8 := read p.mem searchBegin span

theorem length_low : p.low.length = span := length_read _ _ _

theorem word_low (h : off + hdrSize ≤ span) :
    word p.low (off + 4) 4 = (p.told (searchBegin + off)).length := by
  unfold hdrSize at h
  rw [told_length, Phys.low, word_read _ (by omega), word_read _ (by decide), Nat.add_assoc]

theorem told_low (h : off + (p.told (searchBegin + off)).length ≤ span) :
    (p.low.drop off).take (p.told (searchBegin + off)).length = p.told (searchBegin + off) := by
  rw [Phys.low, stretch_read _ h, told_length]
  rfl

theorem sig_low (h : off + hdrSize ≤ span) (hlen : hdrSize ≤ (p.told (searchBegin + off)).length) :
    (p.low.drop off).take 4 = (p.told (searchBegin + off)).take 4 := by
  unfold hdrSize at h hlen
  have hshort : 4 ≤ word (read p.mem (searchBegin + off) hdrSize) 4 4 := by
    rw [← told_length]
    omega
  rw [Phys.low, stretch_read _ (by omega), Phys.told, take_read _ hshort]

/-- What a search from `off` on finds. -/
structure Phys.FirstFrom (off : Nat) (r : Option Nat) : Prop where
  nothing : r = none → ∀ o, off ≤ o → ¬ p.IsSyst o
  first : ∀ o, r = some o → off ≤ o ∧ p.IsSyst o ∧ ∀ o', off ≤ o' → o' < o → ¬ p.IsSyst o'

/-- Between two boundaries there is no table. -/
theorem eq_of_boundary {o : Nat} (h : 16 ∣ off) (ho : p.IsSyst o) (hle : off ≤ o)
    (hlt : o < off + 16) : o = off := by
  have hboundary := ho.boundary
  omega

variable {p}

theorem Phys.FirstFrom.skip {r : Option Nat} (h : p.FirstFrom (off + 16) r) (h16 : 16 ∣ off)
    (hoff : ¬ p.IsSyst off) : p.FirstFrom off r where
  nothing hr o hle ho := by
    by_cases hlt : o < off + 16
    · exact hoff (eq_of_boundary p h16 ho hle hlt ▸ ho)
    · exact h.nothing hr o (by omega) ho
  first o hr := by
    obtain ⟨hle, ho, hfirst⟩ := h.first o hr
    refine ⟨by omega, ho, fun o' hle' hlt' ho' => ?_⟩
    by_cases hlt : o' < off + 16
    · exact hoff (eq_of_boundary p h16 ho' hle' hlt ▸ ho')
    · exact hfirst o' (by omega) hlt' ho'

theorem Phys.FirstFrom.here (h : p.IsSyst off) : p.FirstFrom off (some off) where
  nothing hr := by cases hr
  first o hr := by
    cases hr
    exact ⟨Nat.le_refl _, h, fun o' hle hlt => absurd hlt (by omega)⟩

theorem Phys.FirstFrom.past (h : span < off + hdrSize) : p.FirstFrom off none where
  nothing _ o hle ho := by
    have := ho.header
    omega
  first o hr := by cases hr

variable (p)

/-- The search reads no byte outside of the stretch, and finds the first table. -/
theorem findSyst_first (off : Nat) (h16 : 16 ∣ off) :
    ∃ r, findSyst p.low off = some r ∧ p.FirstFrom off r := by
  have hlow := length_low p
  rw [findSyst]
  by_cases hend : span < off + hdrSize
  · exact ⟨none, if_pos hend, .past hend⟩
  · have hin : off + hdrSize ≤ span := Nat.le_of_not_lt hend
    have hskip : ¬ p.IsSyst off → ∃ r, findSyst p.low (off + 16) = some r ∧ p.FirstFrom off r := by
      intro hoff
      obtain ⟨r, hr, hfirst⟩ := findSyst_first (off + 16) (by omega)
      exact ⟨r, hr, hfirst.skip h16 hoff⟩
    rw [if_neg hend, bytesAt_eq (by unfold hdrSize at hin; omega),
      field_eq (by unfold hdrSize at hin; omega), word_low p hin]
    simp only [Option.bind_eq_bind, Option.bind_some]
    split
    · next hsig =>
        refine hskip fun h => hsig ?_
        rw [sig_low p hin h.table.header]
        exact h.sig
    · next hsig =>
        split
        · next hbad =>
            refine hskip fun h => ?_
            have hheader := h.table.header
            have hshort := h.short
            have hinside := h.inside
            omega
        · next hgood =>
            have hheader : hdrSize ≤ (p.told (searchBegin + off)).length := by omega
            have hinside : off + (p.told (searchBegin + off)).length ≤ span := by omega
            rw [sfiChecksumOk_eq (by omega), told_low p hinside]
            simp only [Option.bind_some]
            split
            · next hsum =>
                refine ⟨some off, rfl, .here ⟨h16, hinside, hin, ?_, by omega, hheader,
                  word_told p hheader, by simpa using hsum⟩⟩
                rw [← sig_low p hin hheader]
                exact Classical.not_not.1 hsig
            · next hsum => exact hskip fun h => hsum (by simpa using h.table.sum)
termination_by span - off
decreasing_by simp only [span, hdrSize] at *; omega

end search

/-! ## the reader -/

/-- What the reader leaves of the tables. -/
structure Parsed (p : Phys) (ok : Bool) (info : KncSfiInfo) : Prop where
  /-- without a system table it fails and has read nothing -/
  missing : (p.maps searchBegin span = true → ∀ off, ¬ p.IsSyst off) →
    ok = false ∧ info = .zero
  /-- of the first one it has the entries of all tables that are in order, as many as there
  is room for -/
  found : ∀ off, p.maps searchBegin span = true → p.IsSyst off → (∀ o < off, ¬ p.IsSyst o) →
    info.apicIds.items =
        ((listed sigCpus 4 (p.tables (p.told (searchBegin + off)))).map ofLe).take 256 ∧
      info.ioapicPhys.items =
        ((listed sigApic 8 (p.tables (p.told (searchBegin + off)))).map ofLe).take 4 ∧
      info.mem.items =
        ((listed sigMmap 36 (p.tables (p.told (searchBegin + off)))).map rangeOf).take 32
  accepted : ok = true ↔ info.apicIds.items ≠ []

/-- The tables that a system table lists are read. -/
theorem foldlM_syst (p : Phys) {off : Nat} (h : p.IsSyst off) (info : KncSfiInfo) :
    (List.range (sfiEntries (p.told (searchBegin + off)).length 8)).foldlM (fun info i =>
        (field p.low (off + hdrSize + 8 * i) 8).bind fun pa => sfiParseOne p info pa) info =
      some (info.add (p.tables (p.told (searchBegin + off)))) := by
  have hlow := length_low p
  have hinside := h.inside
  have htold := told_low p hinside
  have htables : p.tables (p.told (searchBegin + off)) =
      (List.range (sfiEntries (p.told (searchBegin + off)).length 8)).filterMap fun i =>
        p.table (word (p.told (searchBegin + off)) (hdrSize + 8 * i) 8) := by
    rw [Phys.tables, entries, List.filterMap_map]
    rfl
  rw [htables]
  refine foldlM_parseOne p _ (fun i hi => ?_) info
  have hle := entry_le (List.mem_range.1 hi)
  rw [field_eq (by omega), Nat.add_assoc, ← word_stretch hle, htold]

theorem parsed_missing {p : Phys}
    (h : p.maps searchBegin span = true → ∀ off, ¬ p.IsSyst off) : Parsed p false .zero where
  missing _ := ⟨rfl, rfl⟩
  found off hmap hoff := absurd hoff (h hmap off)
  accepted := by simp [KncSfiInfo.zero, Slots.none]

/-- **The tables are read as they stand**, whatever the memory holds and whichever mappings
fail: the reader touches nothing outside of its mappings, and what it leaves is what the
tables list. -/
theorem sfi_parsed (p : Phys) : ∃ ok info, kncSfiParse p = some (ok, info) ∧ Parsed p ok info := by
  have hlow : read p.mem searchBegin span = p.low := rfl
  unfold kncSfiParse Phys.memremap
  by_cases hmap : p.maps searchBegin span = true
  · obtain ⟨r, hr, hfirst⟩ := findSyst_first p 0 (Nat.dvd_zero 16)
    rw [if_pos hmap, hlow]
    simp only [hr, Option.bind_eq_bind, Option.bind_some]
    cases r with
    | none =>
        exact ⟨false, .zero, rfl, parsed_missing fun _ off =>
          hfirst.nothing rfl off (Nat.zero_le off)⟩
    | some off =>
        obtain ⟨-, hoff, hleast⟩ := hfirst.first off rfl
        have hheader := hoff.header
        have hfield : field p.low (off + 4) 4 = some (p.told (searchBegin + off)).length := by
          rw [field_eq (by rw [length_low]; unfold hdrSize at hheader; omega), word_low p hheader]
        simp only [hfield, Option.bind_some, foldlM_syst p hoff]
        refine ⟨_, _, rfl, fun h => absurd hoff (h hmap off), fun o _ ho hbefore => ?_,
          decide_eq_true_iff⟩
        have hle : ¬ off < o := fun h => hbefore off h hoff
        have hge : ¬ o < off := fun h => hleast o (Nat.zero_le o) h ho
        obtain rfl : o = off := by omega
        exact ⟨rfl, rfl, rfl⟩
  · rw [if_neg hmap]
    exact ⟨false, .zero, rfl, parsed_missing fun h => absurd h hmap⟩

end Phi.Sfi
