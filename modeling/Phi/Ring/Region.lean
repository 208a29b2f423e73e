import Phi.Ring.Copy

/-!
# Phi.Ring.Region

Opening the ring region (`ring.S`): the region header and the channel table
as the host reads them, the endpoints of a channel, and the accesses a push
or a pop then makes.

The region is memory the card writes too, so every word of it may be anything.
`regionOpen` checks the rings against the sizes in the channel table;
`endpointsOf` takes the sizes from the rings' own headers, which it reads
later and does not compare with the table.  The card's `knc_ring_valid` makes
that comparison.  Nor does the scan stop at the ten entries that the host's
own table of channels has room for.
-/

namespace Phi.Ring

/-! ## words of the region -/

/-- Contents of the region, by offset. -/
abbrev Memory := Nat → UInt8

/-- `rm_read32`: the little-endian word at an offset. -/
def rmRead32 (m : Memory) (off : Nat) : W32 :=
  BitVec.ofNat 32 ((m off).toNat + 256 * (m (off + 1)).toNat + 65536 * (m (off + 2)).toNat +
    16777216 * (m (off + 3)).toNat)

/-- Contents with the given words at the given offsets and zero elsewhere. -/
def Memory.ofWords (ws : List (Nat × W32)) : Memory := fun i =>
  match ws.find? fun w => w.1 ≤ i && i < w.1 + 4 with
  | some w => UInt8.ofNat (w.2.toNat / 256 ^ (i - w.1) % 256)
  | none => 0

/-! ## layout -/

def regionMagic : W32 := 0x52494850#32
def ringMagic : W32 := 0x474e4952#32
def ringVersion : W32 := 1#32
def regionHdrSize : Nat := 64
def channelDescSize : Nat := 64
def ringHdrSize : Nat := 192

/-- Entries in the host's table of channels: 320 bytes of 32 each. -/
def channelSlots : Nat := 8 * 40 / 32

/-- Offset of the `i`-th channel descriptor. -/
def descOffset (i : Nat) : Nat := regionHdrSize + channelDescSize * i

/-- One entry of the table of channels. -/
structure Channel where
  kind : W32
  h2c : W32
  c2h : W32
  dataOffset : W32
  dataSize : W32
deriving DecidableEq, Repr

/-! ## region_open -/

/-- `ring_fits`: aligned, a non-zero power of two, and inside the region. -/
def ringFits (off size : W32) (regionSize : Nat) : Bool :=
  off &&& 63#32 = 0#32 && size ≠ 0#32 && (size - 1#32) &&& size = 0#32 &&
    off.toNat + ringHdrSize + size.toNat ≤ regionSize

/-- The check of a descriptor's data area: absent, or page aligned, not empty
and inside the region. -/
def dataFits (off size : W32) (regionSize : Nat) : Bool :=
  off ||| size = 0#32 ||
    (off &&& 4095#32 = 0#32 && size ≠ 0#32 && off.toNat + size.toNat ≤ regionSize)

/-- The descriptor at index `i` is of a kind the host knows. -/
def knownKind (m : Memory) (i : Nat) : Bool :=
  1#32 ≤ rmRead32 m (descOffset i) && rmRead32 m (descOffset i) ≤ 5#32

/-- The descriptor's rings and data area lie inside the region. -/
def descFits (m : Memory) (regionSize i : Nat) : Bool :=
  let d := descOffset i
  ringFits (rmRead32 m (d + 8)) (rmRead32 m (d + 12)) regionSize &&
    ringFits (rmRead32 m (d + 16)) (rmRead32 m (d + 20)) regionSize &&
    dataFits (rmRead32 m (d + 24)) (rmRead32 m (d + 28)) regionSize

/-- What the scan records of a descriptor. -/
def channelAt (m : Memory) (i : Nat) : Channel :=
  let d := descOffset i
  ⟨rmRead32 m d, rmRead32 m (d + 8), rmRead32 m (d + 16), rmRead32 m (d + 24), rmRead32 m (d + 28)⟩

/-- The scan of the channel table: `n` descriptors from index `i` on, with
what has been recorded so far.  A known descriptor that does not fit refuses
the region and leaves the table as filled up to there. -/
def scanChannels (m : Memory) (regionSize : Nat) : Nat → Nat → List Channel → Bool × List Channel
  | 0, _, cs => (true, cs)
  | n + 1, i, cs =>
      if knownKind m i then
        if descFits m regionSize i then
          scanChannels m regionSize n (i + 1) (cs ++ [channelAt m i])
        else (false, cs)
      else scanChannels m regionSize n (i + 1) cs

/-- The size word of the region header. -/
def recordedSize (m : Memory) : Nat := (rmRead32 m 8).toNat

/-- The channel count of the region header. -/
def channelCount (m : Memory) : Nat := (rmRead32 m 12).toNat

/-- The header checks of `region_open`, before the scan: magic, version, a
size within the mapped one, a channel table within the size. -/
def headerOk (m : Memory) (mapped : Nat) : Bool :=
  rmRead32 m 0 = regionMagic && rmRead32 m 4 = ringVersion && recordedSize m ≤ mapped &&
    regionHdrSize + channelDescSize * channelCount m ≤ recordedSize m

/-- `region_open`: whether the region is accepted, and the channels recorded. -/
def regionOpen (m : Memory) (mapped : Nat) : Bool × List Channel :=
  if headerOk m mapped then scanChannels m (recordedSize m) (channelCount m) 0 []
  else (false, [])

/-! ## endpoints_of -/

/-- `ring_size_of`: the data size in a ring's header, when its magic is right
and the size is a non-zero power of two. -/
def ringSizeOf (m : Memory) (off : Nat) : Option W32 :=
  let size := rmRead32 m (off + 4)
  if rmRead32 m off = ringMagic ∧ size ≠ 0#32 ∧ size &&& (size - 1#32) = 0#32 then some size
  else none

/-- `channel_of`: the last recorded channel of a kind. -/
def channelOf (cs : List Channel) (kind : W32) : Option Channel :=
  cs.reverse.find? fun c => c.kind = kind

/-- The host's two ends of a channel. -/
structure Endpoints where
  h2c : W32
  h2cSize : W32
  c2h : W32
  c2hSize : W32
deriving DecidableEq, Repr

/-- `endpoints_of`: offsets from the table of channels, sizes from the rings'
own headers. -/
def endpointsOf (m : Memory) (cs : List Channel) (kind : W32) : Option Endpoints := do
  let c ← channelOf cs kind
  let h2cSize ← ringSizeOf m c.h2c.toNat
  let c2hSize ← ringSizeOf m c.c2h.toNat
  return ⟨c.h2c, h2cSize, c.c2h, c2hSize⟩

/-! ## accesses of a push and a pop -/

/-- A run of bytes of the region that an operation reads or writes. -/
structure Access where
  off : Nat
  len : Nat
deriving DecidableEq, Repr

/-- The access lies inside a region of this size. -/
def Access.Inside (size : Nat) (a : Access) : Prop := a.off + a.len ≤ size

instance (size : Nat) (a : Access) : Decidable (a.Inside size) :=
  inferInstanceAs (Decidable (_ ≤ _))

/-- `rm_fence` reads the first word of the region. -/
def fenceAccess : Access := ⟨0, 4⟩

def headAccess (off : W32) : Access := ⟨off.toNat + 64, 4⟩
def tailAccess (off : W32) : Access := ⟨off.toNat + 128, 4⟩

/-- The one or two pieces of a copy of `n` bytes at index `pos`. -/
def copyAccesses (off size pos : W32) (n : Nat) : List Access :=
  let start := pos &&& (size - 1#32)
  let first := min n (size - start).toNat
  ⟨off.toNat + ringHdrSize + start.toNat, first⟩ ::
    if n ≤ first then [] else [⟨off.toNat + ringHdrSize, n - first⟩]

/-- `ring_push` on the ring at `off` when it reads this head and tail. -/
def pushAccesses (off size head tail : W32) (len : Nat) : List Access :=
  let n := pushCount size head tail len
  headAccess off :: tailAccess off ::
    if n = 0 then [] else
      copyAccesses off size head n ++ [fenceAccess, headAccess off, fenceAccess]

/-- `ring_pop` on the ring at `off` when it reads this head and tail. -/
def popAccesses (off size head tail : W32) (cap : Nat) : List Access :=
  headAccess off :: tailAccess off ::
    match popCount size head tail cap with
    | none => [tailAccess off, fenceAccess]
    | some n => if n = 0 then [] else
        copyAccesses off size tail n ++ [fenceAccess, tailAccess off, fenceAccess]

/-- Every access of every push and pop on these endpoints lies inside. -/
def Endpoints.Safe (e : Endpoints) (size : Nat) : Prop :=
  ∀ head tail len,
    (∀ a ∈ pushAccesses e.h2c e.h2cSize head tail len, a.Inside size) ∧
      (∀ a ∈ popAccesses e.c2h e.c2hSize head tail len, a.Inside size)

/-- **Every access stays in the region**: the table of channels is not
overrun while the contents `m` are opened, and once they are accepted, the
endpoints that the contents `m'` found afterwards yield are safe. -/
def AccessesInside (m m' : Memory) (mapped : Nat) : Prop :=
  (regionOpen m mapped).2.length ≤ channelSlots ∧
    ((regionOpen m mapped).1 = true → ∀ kind e,
      endpointsOf m' (regionOpen m mapped).2 kind = some e → e.Safe (recordedSize m))

/-! ## what the scan does -/

/-- A descriptor that the scan gets past. -/
def descPasses (m : Memory) (regionSize i : Nat) : Bool :=
  !knownKind m i || descFits m regionSize i

/-- The indices the scan gets past before the first descriptor it refuses. -/
def scanned (m : Memory) (regionSize n i : Nat) : List Nat :=
  (List.range' i n).takeWhile (descPasses m regionSize)

/-- The scan records the known descriptors among those it gets past, in order,
and accepts when it gets past all. -/
theorem scanChannels_eq (m : Memory) (regionSize n i : Nat) (cs : List Channel) :
    scanChannels m regionSize n i cs =
      ((List.range' i n).all (descPasses m regionSize),
        cs ++ ((scanned m regionSize n i).filter (knownKind m)).map (channelAt m)) := by
  induction n generalizing i cs with
  | zero => simp [scanChannels, scanned]
  | succ n ih =>
      simp only [scanChannels, scanned, List.range'_succ, List.all_cons, List.takeWhile_cons]
      cases hk : knownKind m i with
      | false =>
          have hpass : descPasses m regionSize i = true := by simp [descPasses, hk]
          simp only [hpass, Bool.true_and, if_true, List.filter_cons, hk]
          exact ih (i + 1) cs
      | true =>
          cases hf : descFits m regionSize i with
          | false =>
              have hstop : descPasses m regionSize i = false := by simp [descPasses, hk, hf]
              simp [hstop]
          | true =>
              have hpass : descPasses m regionSize i = true := by simp [descPasses, hf]
              simp only [hpass, Bool.true_and, if_true, List.filter_cons, hk, List.map_cons]
              rw [ih (i + 1) (cs ++ [channelAt m i]), List.append_assoc]
              rfl

/-! ## what the copies touch -/

/-- A copy of at most `size` bytes stays in the data area. -/
theorem copyAccesses_inside (off size pos : W32) {n regionSize : Nat} (hn : n ≤ size.toNat)
    (hsize : 0 < size.toNat) (hfit : off.toNat + ringHdrSize + size.toNat ≤ regionSize) :
    ∀ a ∈ copyAccesses off size pos n, a.Inside regionSize := by
  have hstart : (pos &&& (size - 1#32)).toNat < size.toNat := by
    have hle : (pos &&& (size - 1#32)).toNat ≤ (size - 1#32).toNat := by
      rw [BitVec.toNat_and]; exact Nat.and_le_right
    have hsub : (size - 1#32).toNat = size.toNat - 1 :=
      BitVec.toNat_sub_of_le (by rw [BitVec.le_def]; exact hsize)
    omega
  have hroom : (size - (pos &&& (size - 1#32))).toNat =
      size.toNat - (pos &&& (size - 1#32)).toNat :=
    BitVec.toNat_sub_of_le (BitVec.le_of_lt (BitVec.lt_def.mpr hstart))
  intro a ha
  simp only [copyAccesses, hroom, List.mem_cons] at ha
  cases ha with
  | inl h => subst h; simp only [Access.Inside]; omega
  | inr h =>
      split at h
      · simp at h
      · have heq := List.mem_singleton.mp h
        subst heq
        simp only [Access.Inside]
        omega

/-- A push takes no more than the size, whatever the indices. -/
theorem pushCount_le_size (size head tail : W32) (len : Nat) :
    pushCount size head tail len ≤ size.toNat := by
  simp only [pushCount]
  split
  · exact Nat.zero_le _
  · next hlt =>
      rw [BitVec.not_le] at hlt
      rw [BitVec.toNat_sub_of_le (BitVec.le_of_lt hlt)]
      omega

/-- A pop takes no more than the size, whatever the indices. -/
theorem popCount_le_size {size head tail : W32} {cap n : Nat}
    (h : popCount size head tail cap = some n) : n ≤ size.toNat := by
  simp only [popCount] at h
  split at h
  · next hle =>
      have hle' : (head - tail).toNat ≤ size.toNat := hle
      have heq := Option.some.inj h
      omega
  · cases h

section inside

variable {off size : W32} {regionSize : Nat}

/-- The index words and the fence lie before the data area. -/
theorem headerAccesses_inside (hfit : off.toNat + ringHdrSize + size.toNat ≤ regionSize) :
    (headAccess off).Inside regionSize ∧ (tailAccess off).Inside regionSize ∧
      fenceAccess.Inside regionSize := by
  simp only [Access.Inside, headAccess, tailAccess, fenceAccess]
  unfold ringHdrSize at hfit
  omega

theorem pushAccesses_inside (hsize : 0 < size.toNat)
    (hfit : off.toNat + ringHdrSize + size.toNat ≤ regionSize) (head tail : W32) (len : Nat) :
    ∀ a ∈ pushAccesses off size head tail len, a.Inside regionSize := by
  have hcopy := copyAccesses_inside off size head (pushCount_le_size size head tail len) hsize hfit
  obtain ⟨hhead, htail, hfence⟩ := headerAccesses_inside hfit
  intro a ha
  simp only [pushAccesses, List.mem_cons] at ha
  split at ha <;> grind

theorem popAccesses_inside (hsize : 0 < size.toNat)
    (hfit : off.toNat + ringHdrSize + size.toNat ≤ regionSize) (head tail : W32) (cap : Nat) :
    ∀ a ∈ popAccesses off size head tail cap, a.Inside regionSize := by
  obtain ⟨hhead, htail, hfence⟩ := headerAccesses_inside hfit
  intro a ha
  simp only [popAccesses, List.mem_cons] at ha
  cases hcount : popCount size head tail cap with
  | none =>
      rw [hcount] at ha
      grind
  | some n =>
      have hcopy := copyAccesses_inside off size tail (popCount_le_size hcount) hsize hfit
      rw [hcount] at ha
      grind

end inside

/-- An empty ring takes a push of its whole area. -/
theorem pushCount_full {size : W32} (hsize : 0 < size.toNat) :
    pushCount size 0#32 0#32 size.toNat = size.toNat := by
  simp only [pushCount, BitVec.sub_zero, Nat.min_self]
  rw [if_neg (by rw [BitVec.le_def]; simpa using Nat.pos_iff_ne_zero.mp hsize)]

/-- A full ring gives a pop of its whole area. -/
theorem popCount_full (size : W32) : popCount size size 0#32 size.toNat = some size.toNat := by
  simp [popCount]

/-- Pushes and pops on a ring stay inside exactly when its data area does. -/
theorem endpoints_safe_iff (e : Endpoints) {regionSize : Nat}
    (hh : 0 < e.h2cSize.toNat) (hc : 0 < e.c2hSize.toNat) :
    e.Safe regionSize ↔
      e.h2c.toNat + ringHdrSize + e.h2cSize.toNat ≤ regionSize ∧
        e.c2h.toNat + ringHdrSize + e.c2hSize.toNat ≤ regionSize := by
  constructor
  · intro h
    have hpush := (h 0#32 0#32 e.h2cSize.toNat).1
    have hpop := (h e.c2hSize 0#32 e.c2hSize.toNat).2
    constructor
    · exact hpush ⟨e.h2c.toNat + ringHdrSize, e.h2cSize.toNat⟩ (by
        simp [pushAccesses, pushCount_full hh, copyAccesses, Nat.pos_iff_ne_zero.mp hh])
    · exact hpop ⟨e.c2h.toNat + ringHdrSize, e.c2hSize.toNat⟩ (by
        simp [popAccesses, popCount_full, copyAccesses, Nat.pos_iff_ne_zero.mp hc])
  · intro ⟨hfh, hfc⟩ head tail len
    exact ⟨pushAccesses_inside hh hfh head tail len, popAccesses_inside hc hfc head tail len⟩

end Phi.Ring
