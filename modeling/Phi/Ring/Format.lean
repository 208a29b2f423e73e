import Phi.Ring.Region

/-!
# Phi.Ring.Format

Laying the ring region out (`ring.S`) and the card's search of it
(`knc_ring.h`).

A plan is a table of channels: a kind, the sizes of the two rings, the size of
a data area.  `regionFormat` walks it twice, rings after the table and data
areas after the rings, writing descriptors and ring headers as it goes, and
`planEnd` walks it again for the length alone.  `regionOpen` and
`kncRingFind` then read the table on the two sides.

Offsets and the size of the region are 64-bit quantities stored as their low
32 bits.  The walk is checked against the 64-bit size; the size both sides
could agree on is the one in the header.
-/

namespace Phi.Ring

/-! ## the plan -/

/-- One entry of a plan. -/
structure PlanEntry where
  kind : W32
  h2c : W32
  c2h : W32
  data : W32
deriving DecidableEq, Repr

/-- A non-zero power of two. -/
def IsPow (size : W32) : Prop := ∃ k, size.toNat = 2 ^ k

/-- A plan table of at most eight channels of distinct kinds, with ring sizes
that are powers of two. -/
structure Plan where
  entries : List PlanEntry
  few : entries.length ≤ 8
  distinct : (entries.map (·.kind)).Nodup
  pows : ∀ e ∈ entries, IsPow e.h2c ∧ IsPow e.c2h

/-- `default_plan`: console, network, rpc, block, host memory. -/
def defaultPlan : Plan where
  entries := [⟨1#32, 4096#32, 65536#32, 0#32⟩, ⟨2#32, 262144#32, 262144#32, 0#32⟩,
    ⟨3#32, 262144#32, 262144#32, 0#32⟩, ⟨4#32, 16384#32, 65536#32, 8388608#32⟩,
    ⟨5#32, 16384#32, 65536#32, 0#32⟩]
  few := by decide
  distinct := by decide
  pows e he := by
    simp only [List.mem_cons, List.not_mem_nil, or_false] at he
    rcases he with rfl | rfl | rfl | rfl | rfl
    · exact ⟨⟨12, rfl⟩, ⟨16, rfl⟩⟩
    · exact ⟨⟨18, rfl⟩, ⟨18, rfl⟩⟩
    · exact ⟨⟨18, rfl⟩, ⟨18, rfl⟩⟩
    · exact ⟨⟨14, rfl⟩, ⟨16, rfl⟩⟩
    · exact ⟨⟨14, rfl⟩, ⟨16, rfl⟩⟩

def line : Nat := 64
def dataAlign : Nat := 4096

/-- `add $a - 1` and `and $-a`, for a power of two. -/
def alignTo (a n : Nat) : Nat := (n + (a - 1)) / a * a

/-- The first byte past a ring, on a line. -/
def ringEnd (cursor : Nat) (size : W32) : Nat := alignTo line (cursor + ringHdrSize + size.toNat)

/-- The cursor at the first ring of a plan of `n` entries. -/
def ringsStart (n : Nat) : Nat := alignTo line (regionHdrSize + n * channelDescSize)

/-- `plan_end`, the loop over the rings. -/
def ringsEnd : List PlanEntry → Nat → Nat
  | [], cursor => cursor
  | e :: es, cursor => ringsEnd es (ringEnd (ringEnd cursor e.h2c) e.c2h)

/-- `plan_end`, the loop over the data areas. -/
def dataEnd : List PlanEntry → Nat → Nat
  | [], cursor => cursor
  | e :: es, cursor =>
      if e.data = 0#32 then dataEnd es cursor
      else dataEnd es (alignTo dataAlign (alignTo dataAlign cursor + e.data.toNat))

/-- `plan_end`: the first byte past the plan's layout. -/
def planEnd (p : Plan) : Nat := dataEnd p.entries (ringsEnd p.entries (ringsStart p.entries.length))

/-! ## region_format -/

/-- `fb32`: a word into the format buffer. -/
def fb32 (m : Memory) (off : Nat) (v : W32) : Memory := fun i =>
  if off ≤ i ∧ i < off + 4 then UInt8.ofNat (v.toNat / 256 ^ (i - off) % 256) else m i

/-- `fb64`: a double word into the format buffer. -/
def fb64 (m : Memory) (off : Nat) (v : BitVec 64) : Memory :=
  fb32 (fb32 m off (v.setWidth 32)) (off + 4) ((v >>> 32).setWidth 32)

/-- The low word of an offset. -/
def low (off : Nat) : W32 := BitVec.ofNat 32 off

/-- `format_ring`: an empty ring of this size. -/
def formatRing (m : Memory) (off : Nat) (size : W32) : Memory :=
  fb32 (fb32 (fb32 (fb32 m (off + 64) 0#32) (off + 128) 0#32) (off + 4) size) off ringMagic

/-- One of a channel's rings: the offset word at `slot` of its descriptor, the
size word behind it, the ring at the cursor. -/
def formatEnd (m : Memory) (slot cursor : Nat) (size : W32) : Memory :=
  formatRing (fb32 (fb32 m slot (low cursor)) (slot + 4) size) cursor size

/-- `region_format`, the loop over the rings, from entry `i` on. -/
def formatRings : List PlanEntry → Nat → Nat → Memory → Nat × Memory
  | [], _, cursor, m => (cursor, m)
  | e :: es, i, cursor, m =>
      let m₁ := fb32 m (descOffset i) e.kind
      let m₂ := formatEnd m₁ (descOffset i + 8) cursor e.h2c
      let next := ringEnd cursor e.h2c
      let m₃ := formatEnd m₂ (descOffset i + 16) next e.c2h
      formatRings es (i + 1) (ringEnd next e.c2h) m₃

/-- `region_format`, the loop over the data areas, from entry `i` on. -/
def formatData : List PlanEntry → Nat → Nat → Memory → Nat × Memory
  | [], _, cursor, m => (cursor, m)
  | e :: es, i, cursor, m =>
      if e.data = 0#32 then formatData es (i + 1) cursor m
      else
        let off := alignTo dataAlign cursor
        let m₁ := fb32 m (descOffset i + 24) (low off)
        let m₂ := fb32 m₁ (descOffset i + 28) e.data
        formatData es (i + 1) (alignTo dataAlign (off + e.data.toNat)) m₂

/-- What the header says besides the layout: the host's clock, and where the
card finds the host's memory. -/
structure HostInfo where
  epochNs : BitVec 64
  hostmemAddr : BitVec 64
  hostmemSize : BitVec 64

/-- `region_format`, the header, with the magic last. -/
def formatHeader (m : Memory) (regionSize channels : Nat) (h : HostInfo) : Memory :=
  let m₁ := fb32 m 4 ringVersion
  let m₂ := fb32 m₁ 8 (low regionSize)
  let m₃ := fb32 m₂ 12 (low channels)
  let m₄ := fb64 m₃ 16 h.epochNs
  let m₅ := fb64 m₄ 24 0#64
  let m₆ := fb64 m₅ 32 h.hostmemAddr
  let m₇ := fb64 m₆ 40 h.hostmemSize
  fb32 m₇ 0 regionMagic

/-- `region_format`: the first byte past the layout and the formatted buffer,
or no return when the plan does not fit. -/
def regionFormat (p : Plan) (regionSize : Nat) (h : HostInfo) : Option (Nat × Memory) :=
  let rings := formatRings p.entries 0 (ringsStart p.entries.length) fun _ => 0
  let areas := formatData p.entries 0 rings.1 rings.2
  if regionSize < areas.1 then none
  else some (areas.1, formatHeader areas.2 regionSize p.entries.length h)

/-! ## knc_ring_find -/

/-- `knc_ring_valid`: the ring's header agrees with the descriptor. -/
def kncRingValid (m : Memory) (off : Nat) (size : W32) : Bool :=
  size ≠ 0#32 && size &&& (size - 1#32) = 0#32 && rmRead32 m off = ringMagic &&
    rmRead32 m (off + 4) = size

/-- The card's two ends of a channel: it takes from `rx` and adds to `tx`. -/
structure CardEnds where
  rx : W32
  rxSize : W32
  tx : W32
  txSize : W32
deriving DecidableEq, Repr

/-- The checks of `knc_ring_find` on the descriptor it stops at. -/
def cardEndsAt (m : Memory) (regionSize i : Nat) : Option CardEnds :=
  let d := descOffset i
  let h2c := rmRead32 m (d + 8)
  let h2cSize := rmRead32 m (d + 12)
  let c2h := rmRead32 m (d + 16)
  let c2hSize := rmRead32 m (d + 20)
  if h2cSize ≠ 0#32 ∧ c2hSize ≠ 0#32 ∧ h2c.toNat + ringHdrSize + h2cSize.toNat ≤ regionSize ∧
      c2h.toNat + ringHdrSize + c2hSize.toNat ≤ regionSize ∧
      kncRingValid m h2c.toNat h2cSize ∧ kncRingValid m c2h.toNat c2hSize then
    some ⟨h2c, h2cSize, c2h, c2hSize⟩
  else none

/-- `knc_ring_find`: the first descriptor of the kind among the first eight,
and the ends the drivers take from it. -/
def kncRingFind (m : Memory) (regionSize : Nat) (kind : W32) : Option CardEnds :=
  if rmRead32 m 0 = regionMagic then
    match (List.range (min (channelCount m) 8)).find? fun i => rmRead32 m (descOffset i) = kind with
    | some i => cardEndsAt m regionSize i
    | none => none
  else none

/-- The host's ends from the card's side: what the host adds to, the card
takes from. -/
def Endpoints.exchanged (e : Endpoints) : CardEnds := ⟨e.h2c, e.h2cSize, e.c2h, e.c2hSize⟩

/-! ## where a plan puts things -/

/-- A plan entry and the offsets it gets: the two rings, and the data area or
0. -/
structure Placed where
  entry : PlanEntry
  h2c : Nat
  c2h : Nat
  data : Nat

/-- The data area of an entry when the cursor has come to `cursor`. -/
def dataOff (e : PlanEntry) (cursor : Nat) : Nat :=
  if e.data = 0#32 then 0 else alignTo dataAlign cursor

/-- The cursor behind that data area. -/
def dataNext (e : PlanEntry) (cursor : Nat) : Nat :=
  if e.data = 0#32 then cursor else alignTo dataAlign (alignTo dataAlign cursor + e.data.toNat)

/-- Where the entries go, with the first ring at `c` and the data areas from
`d` on. -/
def place : List PlanEntry → Nat → Nat → List Placed
  | [], _, _ => []
  | e :: es, c, d =>
      ⟨e, c, ringEnd c e.h2c, dataOff e d⟩ ::
        place es (ringEnd (ringEnd c e.h2c) e.c2h) (dataNext e d)

def Plan.start (p : Plan) : Nat := ringsStart p.entries.length

/-- The layout of a plan. -/
def Plan.layout (p : Plan) : List Placed := place p.entries p.start (ringsEnd p.entries p.start)

/-- The two rings of a channel, headers included. -/
def Placed.rings (q : Placed) : List Access :=
  [⟨q.h2c, ringHdrSize + q.entry.h2c.toNat⟩, ⟨q.c2h, ringHdrSize + q.entry.c2h.toNat⟩]

/-- The data area of a channel, if it has one. -/
def Placed.area (q : Placed) : List Access :=
  if q.entry.data = 0#32 then [] else [⟨q.data, q.entry.data.toNat⟩]

/-- Everything a layout places, in the order of the offsets. -/
def areasOf (qs : List Placed) : List Access := qs.flatMap Placed.rings ++ qs.flatMap Placed.area

/-- The header and the channel table. -/
def Plan.table (p : Plan) : Access := ⟨0, regionHdrSize + p.entries.length * channelDescSize⟩

/-- Everything in a formatted region. -/
def Plan.areas (p : Plan) : List Access := p.table :: areasOf p.layout

/-- One area ends before the other starts. -/
def Access.Before (a b : Access) : Prop := a.off + a.len ≤ b.off

/-! ## reading the buffer -/

theorem read_fb32_same (m : Memory) (off : Nat) (v : W32) : rmRead32 (fb32 m off v) off = v := by
  have hv := v.isLt
  apply BitVec.eq_of_toNat_eq
  simp [rmRead32, fb32]
  omega

theorem read_fb32_ne (m : Memory) {off a : Nat} (v : W32) (h : a + 4 ≤ off ∨ off + 4 ≤ a) :
    rmRead32 (fb32 m off v) a = rmRead32 m a := by
  have hb : ∀ k < 4, fb32 m off v (a + k) = m (a + k) := by
    intro k hk
    exact if_neg (by omega)
  simp [rmRead32, hb 1, hb 2, hb 3, show fb32 m off v a = m a from hb 0 (by omega)]

theorem read_fb64_ne (m : Memory) {off a : Nat} (v : BitVec 64) (h : a + 4 ≤ off ∨ off + 8 ≤ a) :
    rmRead32 (fb64 m off v) a = rmRead32 m a := by
  rw [fb64, read_fb32_ne _ _ (by omega), read_fb32_ne _ _ (by omega)]

/-- An empty ring of this size lies at the offset. -/
structure RingAt (m : Memory) (off : Nat) (size : W32) : Prop where
  magic : rmRead32 m off = ringMagic
  recorded : rmRead32 m (off + 4) = size
  head : rmRead32 m (off + 64) = 0#32
  tail : rmRead32 m (off + 128) = 0#32

/-- Contents with the same header words hold the same ring. -/
theorem RingAt.mono {m m' : Memory} {off : Nat} {size : W32} (h : RingAt m off size)
    (hsame : ∀ a, off ≤ a → a + 4 ≤ off + ringHdrSize → rmRead32 m' a = rmRead32 m a) :
    RingAt m' off size := by
  have hs : ∀ k ≤ 128, rmRead32 m' (off + k) = rmRead32 m (off + k) := by
    intro k hk
    exact hsame _ (by omega) (by unfold ringHdrSize; omega)
  exact ⟨(hs 0 (by omega)).trans h.magic, (hs 4 (by omega)).trans h.recorded,
    (hs 64 (by omega)).trans h.head, (hs 128 (by omega)).trans h.tail⟩

theorem read_formatEnd_ne (m : Memory) {slot cursor a : Nat} (size : W32)
    (h : a + 4 ≤ slot ∨ slot + 8 ≤ a) (h' : a + 4 ≤ cursor ∨ cursor + ringHdrSize ≤ a) :
    rmRead32 (formatEnd m slot cursor size) a = rmRead32 m a := by
  unfold ringHdrSize at h'
  simp (disch := omega) only [formatEnd, formatRing, read_fb32_ne]

/-- The descriptor's words of one ring. -/
theorem read_formatEnd_slot (m : Memory) {slot cursor : Nat} (size : W32) (h : slot + 8 ≤ cursor) :
    rmRead32 (formatEnd m slot cursor size) slot = low cursor ∧
      rmRead32 (formatEnd m slot cursor size) (slot + 4) = size := by
  simp (disch := omega) only [formatEnd, formatRing, read_fb32_ne, read_fb32_same, and_self]

theorem ringAt_formatEnd (m : Memory) (slot cursor : Nat) (size : W32) :
    RingAt (formatEnd m slot cursor size) cursor size := by
  constructor <;>
    simp (disch := omega) only [formatEnd, formatRing, read_fb32_ne, read_fb32_same]

/-! ## the loop over the rings -/

/-- The word at `a` is not one that the loop over the rings writes in the
descriptors from `i` on, nor behind the cursor. -/
structure Spared (i n cursor a : Nat) : Prop where
  before : a + 4 ≤ cursor
  desc : ∀ k, i ≤ k → k < i + n →
    a + 4 ≤ descOffset k ∨ a = descOffset k + 4 ∨ descOffset k + 24 ≤ a

theorem alignTo_ge {a : Nat} (ha : 0 < a) (n : Nat) : n ≤ alignTo a n := by
  unfold alignTo
  have := Nat.div_add_mod (n + (a - 1)) a
  have := Nat.mod_lt (n + (a - 1)) ha
  rw [Nat.mul_comm]
  omega

theorem alignTo_dvd (a n : Nat) : a ∣ alignTo a n := Nat.dvd_mul_left _ _

theorem ringEnd_ge (cursor : Nat) (size : W32) :
    cursor + ringHdrSize + size.toNat ≤ ringEnd cursor size := alignTo_ge (by decide) _

theorem read_formatRings_ne {es : List PlanEntry} {i cursor a : Nat} {m : Memory}
    (hs : Spared i es.length cursor a) :
    rmRead32 (formatRings es i cursor m).2 a = rmRead32 m a := by
  induction es generalizing i cursor m with
  | nil => rfl
  | cons e es ih =>
      have h1 := ringEnd_ge cursor e.h2c
      have h2 := ringEnd_ge (ringEnd cursor e.h2c) e.c2h
      have hi := hs.desc i (Nat.le_refl _) (by simp)
      have hb := hs.before
      rw [formatRings, ih ⟨by omega, fun k hk hk' => hs.desc k (by omega) (by simp; omega)⟩]
      simp (disch := omega) only [read_formatEnd_ne, read_fb32_ne]

/-- The descriptor at `i` and the rings it names are those of the entry. -/
structure RingsAt (m : Memory) (i : Nat) (q : Placed) : Prop where
  kind : rmRead32 m (descOffset i) = q.entry.kind
  h2cOff : rmRead32 m (descOffset i + 8) = low q.h2c
  h2cSize : rmRead32 m (descOffset i + 12) = q.entry.h2c
  c2hOff : rmRead32 m (descOffset i + 16) = low q.c2h
  c2hSize : rmRead32 m (descOffset i + 20) = q.entry.c2h
  h2c : RingAt m q.h2c q.entry.h2c
  c2h : RingAt m q.c2h q.entry.c2h

theorem RingsAt.mono {m m' : Memory} {i : Nat} {q : Placed} (h : RingsAt m i q)
    (hdesc : ∀ k ≤ 20, rmRead32 m' (descOffset i + k) = rmRead32 m (descOffset i + k))
    (hrings : ∀ off ∈ [q.h2c, q.c2h], ∀ a, off ≤ a → a + 4 ≤ off + ringHdrSize →
      rmRead32 m' a = rmRead32 m a) : RingsAt m' i q where
  kind := (hdesc 0 (by omega)).trans h.kind
  h2cOff := (hdesc 8 (by omega)).trans h.h2cOff
  h2cSize := (hdesc 12 (by omega)).trans h.h2cSize
  c2hOff := (hdesc 16 (by omega)).trans h.c2hOff
  c2hSize := (hdesc 20 (by omega)).trans h.c2hSize
  h2c := h.h2c.mono (hrings _ (by simp))
  c2h := h.c2h.mono (hrings _ (by simp))

theorem descOffset_add_le {i k : Nat} (h : i < k) : descOffset i + 64 ≤ descOffset k := by
  simp only [descOffset, regionHdrSize, channelDescSize]
  omega

/-- The later passes leave an earlier entry's words alone. -/
theorem RingsAt.formatRings {es : List PlanEntry} {i cursor : Nat} {m : Memory} {q : Placed}
    (h : RingsAt m i q) (hdesc : descOffset i + 64 ≤ cursor)
    (hrings : ∀ off ∈ [q.h2c, q.c2h], descOffset (i + es.length) + 64 ≤ off ∧
      off + ringHdrSize ≤ cursor) :
    RingsAt (Ring.formatRings es (i + 1) cursor m).2 i q := by
  apply h.mono
  · intro k hk
    refine read_formatRings_ne ⟨by omega, fun k' hk' _ => ?_⟩
    have := descOffset_add_le hk'
    omega
  · intro off hoff a ha ha'
    obtain ⟨hlow, hhigh⟩ := hrings off hoff
    refine read_formatRings_ne ⟨by omega, fun k' _ hk' => ?_⟩
    have : descOffset k' ≤ descOffset (i + es.length) := by
      simp only [descOffset, regionHdrSize, channelDescSize]
      omega
    omega

/-- One pass of the loop over the rings. -/
theorem ringsAt_step (m : Memory) {i cursor : Nat} (d : Nat) (e : PlanEntry)
    (h : descOffset i + 64 ≤ cursor) :
    RingsAt (formatEnd (formatEnd (fb32 m (descOffset i) e.kind) (descOffset i + 8) cursor e.h2c)
      (descOffset i + 16) (ringEnd cursor e.h2c) e.c2h) i
      ⟨e, cursor, ringEnd cursor e.h2c, d⟩ := by
  have h1 := ringEnd_ge cursor e.h2c
  have hh := read_formatEnd_slot (fb32 m (descOffset i) e.kind) e.h2c
    (show descOffset i + 8 + 8 ≤ cursor by omega)
  have hc := read_formatEnd_slot
    (formatEnd (fb32 m (descOffset i) e.kind) (descOffset i + 8) cursor e.h2c) e.c2h
    (show descOffset i + 16 + 8 ≤ ringEnd cursor e.h2c by omega)
  constructor
  · simp (disch := omega) only [read_formatEnd_ne, read_fb32_same]
  · simpa (disch := omega) only [read_formatEnd_ne] using hh.1
  · simpa (disch := omega) only [read_formatEnd_ne] using hh.2
  · exact hc.1
  · exact hc.2
  · apply (ringAt_formatEnd _ _ _ _).mono
    intro a ha ha'
    have hlow : cursor ≤ a := ha
    have hhigh : a + 4 ≤ cursor + ringHdrSize := ha'
    exact read_formatEnd_ne _ _ (by omega) (by omega)
  · exact ringAt_formatEnd _ _ _ _

/-- After the loop over the rings every descriptor names its rings. -/
theorem ringsAt_formatRings {es : List PlanEntry} {i cursor d j : Nat} {m : Memory} {q : Placed}
    (h : descOffset (i + es.length) ≤ cursor) (hq : (place es cursor d)[j]? = some q) :
    RingsAt (formatRings es i cursor m).2 (i + j) q := by
  induction es generalizing i cursor d j m with
  | nil => simp [place] at hq
  | cons e es ih =>
      have h1 := ringEnd_ge cursor e.h2c
      have h2 := ringEnd_ge (ringEnd cursor e.h2c) e.c2h
      have hlen : i + (e :: es).length = i + 1 + es.length := by simp; omega
      rw [hlen] at h
      cases j with
      | zero =>
          obtain rfl := Option.some.inj hq
          have hlast := descOffset_add_le (show i + es.length < i + 1 + es.length by omega)
          have hi := descOffset_add_le (show i < i + 1 + es.length by omega)
          apply (ringsAt_step m (dataOff e d) e (by omega)).formatRings (by omega)
          simp
          omega
      | succ j =>
          rw [show i + (j + 1) = i + 1 + j by omega]
          exact ih (by omega) hq

/-! ## the loop over the data areas -/

theorem read_formatData_ne {es : List PlanEntry} {i cursor a : Nat} {m : Memory}
    (h : ∀ k, i ≤ k → k < i + es.length → a + 4 ≤ descOffset k + 24 ∨ descOffset k + 32 ≤ a) :
    rmRead32 (formatData es i cursor m).2 a = rmRead32 m a := by
  induction es generalizing i cursor m with
  | nil => rfl
  | cons e es ih =>
      have hrest := fun k (hk : i + 1 ≤ k) (hk' : k < i + 1 + es.length) =>
        h k (by omega) (by simp; omega)
      have hi := h i (Nat.le_refl _) (by simp)
      rw [formatData]
      split
      · exact ih hrest
      · rw [ih hrest]
        simp (disch := omega) only [read_fb32_ne]

/-- The descriptor at `i` names the data area of the entry. -/
structure DataAt (m : Memory) (i : Nat) (q : Placed) : Prop where
  off : rmRead32 m (descOffset i + 24) = low q.data
  size : rmRead32 m (descOffset i + 28) = q.entry.data

/-- After the loop over the data areas every descriptor names its area, where
the words were clear before. -/
theorem dataAt_formatData {es : List PlanEntry} {i c cursor j : Nat} {m : Memory} {q : Placed}
    (hclear : ∀ k, i ≤ k → k < i + es.length → rmRead32 m (descOffset k + 24) = 0#32 ∧
      rmRead32 m (descOffset k + 28) = 0#32)
    (hq : (place es c cursor)[j]? = some q) :
    DataAt (formatData es i cursor m).2 (i + j) q := by
  induction es generalizing i c cursor j m with
  | nil => simp [place] at hq
  | cons e es ih =>
      have hi := hclear i (Nat.le_refl _) (by simp)
      have hrest := fun k (hk : i + 1 ≤ k) (hk' : k < i + 1 + es.length) =>
        hclear k (by omega) (by simp; omega)
      cases j with
      | zero =>
          obtain rfl := Option.some.inj hq
          rw [Nat.add_zero]
          have hsame : ∀ m' cursor' a, a + 4 ≤ descOffset i + 32 →
              rmRead32 (formatData es (i + 1) cursor' m').2 a = rmRead32 m' a := by
            intro m' cursor' a ha
            refine read_formatData_ne fun k hk _ => ?_
            have := descOffset_add_le hk
            omega
          rw [formatData]
          split
          · next h0 =>
              constructor
              · rw [hsame _ _ _ (by omega)]
                simp [dataOff, h0, low, hi]
              · rw [hsame _ _ _ (by omega)]
                simp [h0, hi]
          · next h0 =>
              constructor
              · rw [hsame _ _ _ (by omega), read_fb32_ne _ _ (by omega)]
                simp [dataOff, h0, read_fb32_same]
              · rw [hsame _ _ _ (by omega)]
                simp [read_fb32_same]
      | succ j =>
          rw [show i + (j + 1) = i + 1 + j by omega, formatData]
          split
          · next h0 =>
              exact ih hrest (by simpa [place, dataNext, h0] using hq)
          · next h0 =>
              apply ih _ (by simpa [place, dataNext, h0] using hq)
              intro k hk hk'
              have hle := descOffset_add_le hk
              simp (disch := omega) only [read_fb32_ne]
              exact hrest k hk hk'

/-! ## the header -/

/-- The words of the header that either side reads. -/
structure HeaderAt (m : Memory) (regionSize channels : Nat) : Prop where
  magic : rmRead32 m 0 = regionMagic
  version : rmRead32 m 4 = ringVersion
  size : rmRead32 m 8 = low regionSize
  count : rmRead32 m 12 = low channels

theorem headerAt_formatHeader (m : Memory) (regionSize channels : Nat) (h : HostInfo) :
    HeaderAt (formatHeader m regionSize channels h) regionSize channels := by
  constructor <;>
    simp (disch := omega) only [formatHeader, read_fb64_ne, read_fb32_ne, read_fb32_same]

theorem read_formatHeader_ne (m : Memory) (regionSize channels : Nat) (h : HostInfo) {a : Nat}
    (ha : regionHdrSize ≤ a) :
    rmRead32 (formatHeader m regionSize channels h) a = rmRead32 m a := by
  unfold regionHdrSize at ha
  simp (disch := omega) only [formatHeader, read_fb64_ne, read_fb32_ne]

/-! ## the formatted region -/

/-- The cursor of the loops over the memory is that of `plan_end`. -/
theorem formatRings_fst (es : List PlanEntry) (i cursor : Nat) (m : Memory) :
    (formatRings es i cursor m).1 = ringsEnd es cursor := by
  induction es generalizing i cursor m with
  | nil => rfl
  | cons e es ih => rw [formatRings, ih, ringsEnd]

theorem formatData_fst (es : List PlanEntry) (i cursor : Nat) (m : Memory) :
    (formatData es i cursor m).1 = dataEnd es cursor := by
  induction es generalizing i cursor m with
  | nil => rfl
  | cons e es ih =>
      rw [formatData, dataEnd]
      split <;> exact ih ..

/-- A formatted region: the header, and a descriptor with its two rings and
its data area for every entry. -/
structure Formatted (m : Memory) (regionSize : Nat) (p : Plan) : Prop where
  header : HeaderAt m regionSize p.entries.length
  rings : ∀ {i q}, p.layout[i]? = some q → RingsAt m i q
  data : ∀ {i q}, p.layout[i]? = some q → DataAt m i q

theorem ringsEnd_ge (es : List PlanEntry) (cursor : Nat) : cursor ≤ ringsEnd es cursor := by
  induction es generalizing cursor with
  | nil => exact Nat.le_refl _
  | cons e es ih =>
      have h1 := ringEnd_ge cursor e.h2c
      have h2 := ringEnd_ge (ringEnd cursor e.h2c) e.c2h
      have := ih (ringEnd (ringEnd cursor e.h2c) e.c2h)
      rw [ringsEnd]
      omega

/-- The rings of a layout lie one behind the other between the cursors. -/
theorem place_rings {es : List PlanEntry} {c d : Nat} {q : Placed} (hq : q ∈ place es c d) :
    c ≤ q.h2c ∧ q.h2c + ringHdrSize + q.entry.h2c.toNat ≤ q.c2h ∧
      q.c2h + ringHdrSize + q.entry.c2h.toNat ≤ ringsEnd es c := by
  induction es generalizing c d with
  | nil => simp [place] at hq
  | cons e es ih =>
      have h1 := ringEnd_ge c e.h2c
      have h2 := ringEnd_ge (ringEnd c e.h2c) e.c2h
      rw [ringsEnd]
      rw [place, List.mem_cons] at hq
      cases hq with
      | inl h =>
          subst h
          have h3 := ringsEnd_ge es (ringEnd (ringEnd c e.h2c) e.c2h)
          simp only
          omega
      | inr h =>
          have := ih h
          omega

theorem length_place (es : List PlanEntry) (c d : Nat) : (place es c d).length = es.length := by
  induction es generalizing c d with
  | nil => rfl
  | cons e es ih => simp [place, ih]

@[simp] theorem length_layout (p : Plan) : p.layout.length = p.entries.length := length_place ..

theorem table_le_start (p : Plan) : descOffset p.entries.length ≤ p.start := by
  have := alignTo_ge (a := line) (by decide) (regionHdrSize + p.entries.length * channelDescSize)
  rw [Plan.start, ringsStart, descOffset, Nat.mul_comm]
  exact this

/-- The words before the data areas are clear before the loop. -/
theorem clear_formatRings (p : Plan) {k o : Nat} (ho : o = 24 ∨ o = 28)
    (hk : k < p.entries.length) :
    rmRead32 (formatRings p.entries 0 p.start fun _ => 0).2 (descOffset k + o) = 0#32 := by
  have hend := descOffset_add_le hk
  have hstart := table_le_start p
  rw [read_formatRings_ne]
  · simp [rmRead32]
  · refine ⟨by omega, fun k' _ hk' => ?_⟩
    rcases Nat.lt_trichotomy k k' with h | h | h
    · have := descOffset_add_le h
      omega
    · subst h
      omega
    · have := descOffset_add_le h
      omega

/-- When the plan fits, `region_format` returns its length and a region
formatted by it. -/
theorem regionFormat_eq_some {p : Plan} {regionSize : Nat} (h : HostInfo)
    (hfit : planEnd p ≤ regionSize) :
    ∃ m, regionFormat p regionSize h = some (planEnd p, m) ∧ Formatted m regionSize p := by
  let rings := (formatRings p.entries 0 p.start fun _ => 0).2
  let areas := (formatData p.entries 0 (ringsEnd p.entries p.start) rings).2
  have hstart := table_le_start p
  refine ⟨formatHeader areas regionSize p.entries.length h, ?_, headerAt_formatHeader .., ?_, ?_⟩
  · simp only [regionFormat, formatRings_fst, formatData_fst]
    exact if_neg (Nat.not_lt.mpr hfit)
  · intro i q hq
    have hi : i < p.entries.length := by
      simpa using (List.getElem?_eq_some_iff.mp hq).1
    have hd := descOffset_add_le hi
    obtain ⟨hlow, hmid, -⟩ := place_rings (List.mem_of_getElem? hq)
    have hat := ringsAt_formatRings (m := fun _ => 0) (i := 0) (by simpa using hstart) hq
    rw [Nat.zero_add] at hat
    apply hat.mono
    · intro k hk
      rw [read_formatHeader_ne _ _ _ _ (by simp only [descOffset]; omega), read_formatData_ne]
      intro k' _ _
      rcases Nat.lt_trichotomy i k' with hlt | heq | hlt
      · have := descOffset_add_le hlt
        omega
      · subst heq
        omega
      · have := descOffset_add_le hlt
        omega
    · intro off hoff a ha _
      have hoff' : p.start ≤ off := by
        simp at hoff
        omega
      rw [read_formatHeader_ne _ _ _ _ (by simp only [descOffset] at hstart; omega),
        read_formatData_ne]
      intro k' _ hk'
      have := descOffset_add_le (show k' < p.entries.length by omega)
      omega
  · intro i q hq
    have hat := dataAt_formatData (m := rings) (i := 0)
      (fun k _ hk => ⟨clear_formatRings p (.inl rfl) (by omega),
        clear_formatRings p (.inr rfl) (by omega)⟩) hq
    rw [Nat.zero_add] at hat
    constructor
    · rw [read_formatHeader_ne _ _ _ _ (by simp only [descOffset]; omega)]
      exact hat.off
    · rw [read_formatHeader_ne _ _ _ _ (by simp only [descOffset]; omega)]
      exact hat.size

/-- What is formatted fits. -/
theorem planEnd_le_of_format {p : Plan} {regionSize stop : Nat} {info : HostInfo} {m : Memory}
    (h : regionFormat p regionSize info = some (stop, m)) : planEnd p ≤ regionSize := by
  simp only [regionFormat, formatRings_fst, formatData_fst] at h
  split at h
  · cases h
  · next hle => exact Nat.not_lt.mp hle

end Phi.Ring
