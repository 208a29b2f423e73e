import Phi.Dev.Attach
import Phi.Lib.Run

/-!
# Phi.Dev.Console

The card's console ring (`knc_earlycon.c`, `knc_tty.c`): the early console and
the tty append to one ring under one lock, the host takes from it whenever it
likes, and at some point the early mapping gives way to the permanent one.

A call takes the lock, reads the tail once and puts its bytes one by one; when
the ring is full by that tail it counts what is left as dropped.  The head is
published at the end of the call, and the hand-over, which needs the lock,
reads it back from the ring.
-/

namespace Phi.Dev.Console

open Ring Circular Modular

/-! ## the machine -/

def ringHead : Nat := 64
def ringTail : Nat := 128

/-- The data area of the ring at an offset. -/
def area (m : Memory) (off : Nat) : Nat → UInt8 := fun i => m (off + ringHdrSize + i)

/-- `writeb`. -/
def writeb (m : Memory) (off : Nat) (b : UInt8) : Memory := fun i => if i = off then b else m i

/-- What a console or a tty hands to `knc_ring_con_write`: its length is an
`unsigned int`. -/
structure Buffer where
  bytes : List UInt8
  short : bytes.length < 2 ^ 32

/-- `knc_ring_con_write` past the lock: what is left to write, the indices it
works with, and what it has put into the ring and counted as dropped. -/
structure Call where
  src : List UInt8
  head : W32
  tail : W32
  put : List UInt8
  lost : List UInt8

/-- Who writes. -/
inductive Writer where
  | earlycon
  | tty
deriving DecidableEq, Repr

/-- The region, what the driver keeps, and who has registered.  The last three
record the calls in the order of the lock, what became of those that returned,
and what the host took. -/
structure State where
  mem : Memory
  /-- `knc_ring_base` is set. -/
  base : Bool
  /-- `knc_con`, as an offset in the region. -/
  con : Option Nat
  conSize : W32
  conHead : W32
  dropped : W64
  /-- `knc_region_is_early`. -/
  early : Bool
  earlycon : Bool
  tty : Bool
  call : Option Call
  written : List (List UInt8)
  returned : List (List UInt8 × List UInt8)
  consumed : List UInt8

/-- Before anything has looked at the region. -/
def start (m : Memory) : State where
  mem := m
  base := false
  con := none
  conSize := 0#32
  conHead := 0#32
  dropped := 0#64
  early := false
  earlycon := false
  tty := false
  call := none
  written := []
  returned := []
  consumed := []

inductive Event where
  /-- `earlyprintk=phiring`; whether both early mappings succeed -/
  | earlyconInit (mapped : Bool)
  /-- `knc_earlycon_remap`; whether the region can be mapped -/
  | remap (mapped : Bool)
  /-- `knc_tty_init`; whether the tty core takes the driver -/
  | ttyInit (ok : Bool)
  /-- a writer comes to the lock -/
  | enter (w : Writer) (s : Buffer)
  /-- one round of the loop -/
  | loop
  /-- the head published, the lock released -/
  | publish
  /-- the host takes up to `k` bytes -/
  | host (k : Nat)
  /-- a byte of another channel, or of the boot flags, changes -/
  | other (off : Nat) (b : UInt8)

/-- `knc_ring_params` on the region's size. -/
def sizeOk (regionSize : Nat) : Bool := 4096 ≤ regionSize && regionSize ≤ 0x4000000

/-- The ring found through a mapping of the region. -/
def ringOf (m : Memory) (regionSize : Nat) : Option Ends :=
  match findConsole m regionSize with
  | some e => if ringOk m e.c2h.toNat e.c2hSize then some e else none
  | none => none

/-- The console works on this ring from now on. -/
def State.attach (s : State) (e : Ends) : State :=
  { s with
    con := some e.c2h.toNat
    conSize := e.c2hSize
    conHead := rmRead32 s.mem (e.c2h.toNat + ringHead) }

/-- `knc_earlycon_init`, and the console registered when it returns 0. -/
def State.earlyconInit (regionSize : Nat) (mapped : Bool) (s : State) : State :=
  if s.con.isSome then { s with earlycon := true }
  else if sizeOk regionSize && mapped then
    match ringOf s.mem regionSize with
    | some e =>
        { s.attach e with
          base := true, early := true, earlycon := true
          mem := writeb s.mem 24 (s.mem 24 ||| 1) }
    | none => { s with base := true }
  else { s with base := true }

/-- `knc_earlycon_remap`, with the lock free: the base is looked at, not the
size, once it is set. -/
def State.remap (regionSize : Nat) (mapped : Bool) (s : State) : State :=
  if !s.base && !sizeOk regionSize || s.con.isSome && !s.early || !mapped then
    { s with base := true }
  else match ringOf s.mem regionSize with
    | some e => { s.attach e with base := true, early := false }
    | none => { s with base := true }

/-- `knc_tty_init`: only over the permanent mapping. -/
def State.ttyInit (ok : Bool) (s : State) : State :=
  if s.con.isSome && !s.early && ok then { s with tty := true } else s

def State.registered (s : State) : Writer → Bool
  | .earlycon => s.earlycon
  | .tty => s.tty

/-- `knc_ring_con_write` up to the loop: without a ring it returns. -/
def State.enter (bs : Buffer) (s : State) : State :=
  let s := { s with written := s.written ++ [bs.bytes] }
  match s.con with
  | none => s
  | some off =>
      { s with call := some ⟨bs.bytes, s.conHead, rmRead32 s.mem (off + ringTail), [], []⟩ }

/-- One round of `while (n--)`. -/
def State.round (off : Nat) (c : Call) (s : State) : State :=
  match c.src with
  | [] => s
  | b :: rest =>
      if s.conSize ≤ c.head - c.tail then
        -- `n` was decremented by the loop's condition
        { s with
          dropped := s.dropped + (BitVec.ofNat 32 rest.length + 1#32).setWidth 64
          call := some { c with src := [], lost := c.src } }
      else
        { s with
          mem := writeb s.mem (off + ringHdrSize + (c.head % s.conSize).toNat) b
          call := some { c with src := rest, head := c.head + 1#32, put := c.put ++ [b] } }

/-- The end of `knc_ring_con_write`. -/
def State.publish (off : Nat) (c : Call) (s : State) : State :=
  { s with
    mem := fb32 s.mem (off + ringHead) c.head
    conHead := c.head
    call := none
    returned := s.returned ++ [(c.put, c.lost)] }

/-- The host pops: it copies from its tail on, then moves it. -/
def State.host (k off : Nat) (s : State) : State :=
  let tail := rmRead32 s.mem (off + ringTail)
  let n := min k (rmRead32 s.mem (off + ringHead) - tail).toNat
  { s with
    mem := fb32 s.mem (off + ringTail) (tail + BitVec.ofNat 32 n)
    consumed := s.consumed ++ copyOut s.conSize tail (area s.mem off) n }

/-- The byte belongs neither to the channel table nor to the console's ring. -/
def Elsewhere (regionSize : Nat) (m : Memory) (i : Nat) : Prop :=
  ¬ InTable m i ∧ ∀ e ∈ findConsole m regionSize,
    i < e.c2h.toNat ∨ e.c2h.toNat + ringHdrSize + e.c2hSize.toNat ≤ i

instance (regionSize : Nat) (m : Memory) (i : Nat) : Decidable (Elsewhere regionSize m i) :=
  inferInstanceAs (Decidable (_ ∧ ∀ _ ∈ findConsole m regionSize, _))

/-- One step; one that cannot be taken leaves everything as it is. -/
def State.step (regionSize : Nat) (s : State) : Event → State
  | .earlyconInit mapped => if s.call.isNone then s.earlyconInit regionSize mapped else s
  | .remap mapped => if s.call.isNone then s.remap regionSize mapped else s
  | .ttyInit ok => s.ttyInit ok
  | .enter w bs => if s.registered w && s.call.isNone then s.enter bs else s
  | .loop => match s.con, s.call with
    | some off, some c => s.round off c
    | _, _ => s
  | .publish => match s.con, s.call with
    | some off, some c => if c.src = [] then s.publish off c else s
    | _, _ => s
  | .host k => match s.con with
    | some off => s.host k off
    | none => s
  | .other i b => if Elsewhere regionSize s.mem i then { s with mem := writeb s.mem i b } else s

/-! ## what the console owes -/

/-- The call under way: what it put, what it counted as dropped, what is left. -/
def State.now (s : State) : List UInt8 × List UInt8 × List UInt8 :=
  match s.call with
  | some c => (c.put, c.lost, c.src)
  | none => ([], [], [])

/-- The bytes whose head is published. -/
def State.published (s : State) : List UInt8 := s.returned.flatMap Prod.fst

/-- All bytes put into the ring, in order. -/
def State.appended (s : State) : List UInt8 := s.published ++ s.now.1

/-- The number of bytes counted as dropped. -/
def State.lost (s : State) : Nat := (s.returned.map fun p => p.2.length).sum + s.now.2.1.length

/-- The calls as they were made: of each a first part was put into the ring,
the rest counted as dropped; of the one under way the rest may still be left. -/
def State.calls (s : State) : List (List UInt8) :=
  (s.returned.map fun p => p.1 ++ p.2) ++
    match s.call with
    | some c => [c.put ++ c.lost ++ c.src]
    | none => []

/-- The console loses nothing silently. -/
structure State.Accounted (s : State) : Prop where
  /-- every byte written is appended, counted as dropped, or still to come -/
  written_eq : s.written = s.calls
  total : s.written.flatten.length = s.appended.length + s.lost + s.now.2.2.length
  /-- the driver's counter -/
  dropped_eq : s.dropped = BitVec.ofNat 64 s.lost
  /-- what the host took is the front of what was appended -/
  consumed : s.consumed <+: s.published
  /-- the rest is in the ring, and the two index words name its ends -/
  intact : ∀ off, s.con = some off →
    Holds (area s.mem off) s.conSize.toNat s.consumed.length (s.appended.drop s.consumed.length) ∧
      s.appended.length ≤ s.consumed.length + s.conSize.toNat ∧
      rmRead32 s.mem (off + ringHead) = BitVec.ofNat 32 s.published.length ∧
      rmRead32 s.mem (off + ringTail) = BitVec.ofNat 32 s.consumed.length
  /-- without a ring nobody writes -/
  silent : s.con = none → s.written = []

/-! ## stores into the region -/

section stores

variable {m : Memory} {off i a : Nat}

theorem rmRead32_writeb (b : UInt8) (h : i < a ∨ a + 4 ≤ i) :
    rmRead32 (writeb m i b) a = rmRead32 m a :=
  rmRead32_congr fun k hk => if_neg (by omega)

theorem fb32_apply_of_ne (v : W32) (h : i < a ∨ a + 4 ≤ i) : fb32 m a v i = m i :=
  if_neg (by omega)

theorem area_congr {m' : Memory} (h : ∀ i, off + ringHdrSize ≤ i → m' i = m i) :
    area m' off = area m off := by
  funext i
  exact h _ (Nat.le_add_right _ _)

theorem area_fb32 {o : Nat} (v : W32) (h : o + 4 ≤ ringHdrSize) :
    area (fb32 m (off + o) v) off = area m off :=
  area_congr fun _ hi => fb32_apply_of_ne v (by omega)

theorem area_writeb (b : UInt8) :
    area (writeb m (off + ringHdrSize + i) b) off = write (area m off) i [b] := by
  funext j
  rw [write_apply]
  by_cases h : j = i
  · subst h
    simp [area, writeb]
  · have hne : off + ringHdrSize + j ≠ off + ringHdrSize + i := by omega
    have hout : ¬ (i ≤ j ∧ j < i + [b].length) := by
      rw [List.length_singleton]
      omega
    rw [if_neg hout]
    exact if_neg hne

end stores

/-! ## the invariant -/

/-- The console's ring, once found, lies behind the table, has a power of two
of bytes and its header in order. -/
def Settled (regionSize : Nat) (m : Memory) : Prop :=
  ∀ e ∈ findConsole m regionSize, descOffset (channelCount m) ≤ e.c2h.toNat ∧ IsPow e.c2hSize ∧
    ringOk m e.c2h.toNat e.c2hSize = true

/-- Nothing was written through a console without a ring, and the ring is still
empty. -/
structure Idle (regionSize : Nat) (s : State) : Prop where
  call : s.call = none
  earlycon : s.earlycon = false
  tty : s.tty = false
  written : s.written = []
  returned : s.returned = []
  consumed : s.consumed = []
  dropped : s.dropped = 0#64
  empty : ∀ e ∈ findConsole s.mem regionSize,
    rmRead32 s.mem (e.c2h.toNat + ringHead) = 0#32 ∧
      rmRead32 s.mem (e.c2h.toNat + ringTail) = 0#32

/-- The call under way: its head counts what it put, and by the tail it read
this fits the ring. -/
structure Call.Ok (size published consumed : Nat) (c : Call) : Prop where
  head : c.head = BitVec.ofNat 32 (published + c.put.length)
  tail : ∃ t ≤ consumed, c.tail = BitVec.ofNat 32 t ∧ published + c.put.length ≤ t + size
  short : c.src.length < 2 ^ 32
  once : c.src = [] ∨ c.lost = []

/-- The ring at `off` in use. -/
structure Live (s : State) (off : Nat) : Prop where
  written_eq : s.written = s.calls
  dropped_eq : s.dropped = BitVec.ofNat 64 s.lost
  consumed : s.consumed <+: s.published
  holds : Holds (area s.mem off) s.conSize.toNat s.consumed.length
    (s.appended.drop s.consumed.length)
  fits : s.appended.length ≤ s.consumed.length + s.conSize.toNat
  head : rmRead32 s.mem (off + ringHead) = BitVec.ofNat 32 s.published.length
  tail : rmRead32 s.mem (off + ringTail) = BitVec.ofNat 32 s.consumed.length
  conHead : s.conHead = BitVec.ofNat 32 s.published.length
  call : ∀ c, s.call = some c → c.Ok s.conSize.toNat s.published.length s.consumed.length

/-- The console works on the ring that the search finds. -/
structure Attached (regionSize : Nat) (s : State) (off : Nat) : Prop where
  found : ∃ e ∈ findConsole s.mem regionSize, off = e.c2h.toNat ∧ s.conSize = e.c2hSize
  live : Live s off

structure Inv (regionSize : Nat) (s : State) : Prop where
  settled : Settled regionSize s.mem
  idle : s.con = none → Idle regionSize s
  attached : ∀ off, s.con = some off → Attached regionSize s off

/-! ## memory -/

section memory

variable {regionSize : Nat} {m m' : Memory}

/-- Changes that spare the table and the ring's magic and size. -/
theorem Settled.congr (h : Settled regionSize m) (htable : ∀ a, InTable m a → m' a = m a)
    (hring : ∀ e ∈ findConsole m regionSize, ∀ k < 8, m' (e.c2h.toNat + k) = m (e.c2h.toNat + k)) :
    Settled regionSize m' := by
  intro e he
  rw [findConsole_congr htable] at he
  obtain ⟨hbehind, hpow, hok⟩ := h e he
  have hmagic : rmRead32 m' e.c2h.toNat = rmRead32 m e.c2h.toNat :=
    rmRead32_congr fun k hk => hring e he k (by omega)
  have hsize : rmRead32 m' (e.c2h.toNat + 4) = rmRead32 m (e.c2h.toNat + 4) :=
    rmRead32_congr fun k hk => by
      rw [Nat.add_assoc]
      exact hring e he (4 + k) (by omega)
  refine ⟨by rw [channelCount_congr htable]; exact hbehind, hpow, ?_⟩
  rw [ringOk, hmagic, hsize]
  exact hok

/-- The search finds one ring, so a store past its two first words spares both
the table and them. -/
theorem Settled.store (h : Settled regionSize m) {e : Ends} (he : e ∈ findConsole m regionSize)
    (hm : ∀ a < e.c2h.toNat + ringHead, m' a = m a) :
    Settled regionSize m' ∧ findConsole m' regionSize = findConsole m regionSize := by
  have hbehind := (h e he).1
  have htable : ∀ a, InTable m a → m' a = m a := fun a ha => hm a (by
    have := ha.1
    omega)
  refine ⟨h.congr htable fun e' he' k hk => ?_, findConsole_congr htable regionSize⟩
  obtain rfl : e = e' := Option.some.inj ((Option.mem_def.mp he).symm.trans he')
  exact hm _ (by unfold ringHead; omega)

theorem Settled.ringOf_eq (h : Settled regionSize m) : ringOf m regionSize =
    findConsole m regionSize := by
  unfold ringOf
  cases he : findConsole m regionSize with
  | none => rfl
  | some e => exact if_pos (h e he).2.2

end memory

theorem isPow_le {size : W32} (h : IsPow size) : 0 < size.toNat ∧ size.toNat ≤ 2 ^ 31 := by
  obtain ⟨k, hk⟩ := h
  have hlt := size.isLt
  rw [hk] at hlt
  have hk' := (Nat.pow_lt_pow_iff_right (by decide)).mp hlt
  rw [hk]
  exact ⟨Nat.two_pow_pos k, Nat.pow_le_pow_right (by decide) (by omega)⟩

/-- The cell of a counter. -/
theorem toNat_mod_size {size : W32} (h : IsPow size) (n : Nat) :
    (BitVec.ofNat 32 n % size).toNat = n % size.toNat := by
  obtain ⟨k, hk⟩ := id h
  have hlt := size.isLt
  rw [hk] at hlt
  have hk' := (Nat.pow_lt_pow_iff_right (by decide)).mp hlt
  rw [BitVec.toNat_umod, BitVec.toNat_ofNat, hk,
    Nat.mod_mod_of_dvd _ (Nat.pow_dvd_pow 2 (Nat.le_of_lt hk'))]

/-! ## the steps on the ring -/

section steps

variable {s : State} {off : Nat}

theorem State.appended_of_call {c : Call} (h : s.call = some c) :
    s.appended = s.published ++ c.put := by
  rw [State.appended, State.now, h]

theorem State.appended_of_none (h : s.call = none) : s.appended = s.published := by
  rw [State.appended, State.now, h, List.append_nil]

/-- The front of what was appended is taken, so the host is behind. -/
theorem Live.consumed_le (h : Live s off) : s.consumed.length ≤ s.published.length :=
  h.consumed.length_le

/-- A call begins. -/
theorem Live.enter (h : Live s off) (hcall : s.call = none) (hcon : s.con = some off)
    (bs : Buffer) : Live (s.enter bs) off := by
  have happ := State.appended_of_none hcall
  have hfits := h.fits
  have hle := h.consumed_le
  rw [happ] at hfits
  have hstate : s.enter bs = { s with
      written := s.written ++ [bs.bytes]
      call := some ⟨bs.bytes, s.conHead, rmRead32 s.mem (off + ringTail), [], []⟩ } := by
    simp only [State.enter, hcon]
  rw [hstate]
  refine ⟨?_, ?_, h.consumed, ?_, ?_, h.head, h.tail, h.conHead, ?_⟩
  · simpa [State.calls, hcall] using h.written_eq
  · simpa [State.lost, State.now, hcall] using h.dropped_eq
  · simpa [State.appended, State.now, State.published, hcall] using h.holds
  · simpa [State.appended, State.now, State.published, hcall] using h.fits
  · rintro c ⟨⟩
    exact ⟨h.conHead, ⟨s.consumed.length, Nat.le_refl _, h.tail, hfits⟩, bs.short, .inr rfl⟩

/-- The ring is full by the tail read: the rest is counted. -/
theorem Live.drop (h : Live s off) {c : Call} (hcall : s.call = some c) {b : UInt8}
    {rest : List UInt8} (hsrc : c.src = b :: rest) :
    Live { s with
      dropped := s.dropped + (BitVec.ofNat 32 rest.length + 1#32).setWidth 64
      call := some { c with src := [], lost := c.src } } off := by
  have hc := h.call c hcall
  have hlost : c.lost = [] := hc.once.resolve_left (by simp [hsrc])
  have hshort := hc.short
  rw [hsrc, List.length_cons] at hshort
  have hn : (BitVec.ofNat 32 rest.length + 1#32).setWidth 64 =
      BitVec.ofNat 64 (rest.length + 1) := by
    apply BitVec.eq_of_toNat_eq
    simp only [BitVec.toNat_setWidth, BitVec.toNat_add, BitVec.toNat_ofNat]
    omega
  refine ⟨?_, ?_, h.consumed, ?_, ?_, h.head, h.tail, h.conHead, ?_⟩
  · simpa [State.calls, hcall, hlost, hsrc] using h.written_eq
  · have heq := h.dropped_eq
    simp only [State.lost, State.now, hcall, hlost, List.length_nil, Nat.add_zero] at heq
    simp only [State.lost, State.now, hsrc, List.length_cons, heq, hn, BitVec.ofNat_add]
  · simpa [State.appended, State.now, State.published, hcall] using h.holds
  · simpa [State.appended, State.now, State.published, hcall] using h.fits
  · rintro c' ⟨⟩
    exact ⟨hc.head, hc.tail, by simp, .inl rfl⟩

/-- A byte goes into the cell of the head, which no unconsumed byte holds. -/
theorem Live.put (h : Live s off) (hpow : IsPow s.conSize) {c : Call} (hcall : s.call = some c)
    {b : UInt8} {rest : List UInt8} (hsrc : c.src = b :: rest)
    (hroom : ¬ s.conSize ≤ c.head - c.tail) :
    Live { s with
      mem := writeb s.mem (off + ringHdrSize + (c.head % s.conSize).toNat) b
      call := some { c with src := rest, head := c.head + 1#32, put := c.put ++ [b] } } off := by
  obtain ⟨hpos, hsmall⟩ := isPow_le hpow
  have hc := h.call c hcall
  obtain ⟨t, ht, htail, hroom'⟩ := hc.tail
  have hlost : c.lost = [] := hc.once.resolve_left (by simp [hsrc])
  have happ := State.appended_of_call hcall
  have hle := h.consumed_le
  have hlen : s.appended.length = s.published.length + c.put.length := by
    rw [happ, List.length_append]
  -- the words tell the distance of the counters
  have hdist : (c.head - c.tail).toNat = s.published.length + c.put.length - t := by
    rw [hc.head, htail]
    exact toNat_ofNat_sub 32 (by omega) (by omega)
  have hspace : s.published.length + c.put.length < t + s.conSize.toNat := by
    rw [BitVec.le_def, hdist] at hroom
    omega
  have hcell : (c.head % s.conSize).toNat = s.appended.length % s.conSize.toNat := by
    rw [hc.head, toNat_mod_size hpow, hlen]
  have hlt := Nat.mod_lt s.appended.length hpos
  have hnew : s.appended ++ [b] = s.published ++ (c.put ++ [b]) := by
    rw [happ, List.append_assoc]
  refine ⟨?_, ?_, h.consumed, ?_, ?_, ?_, ?_, h.conHead, ?_⟩
  · simpa [State.calls, hcall, hlost, hsrc] using h.written_eq
  · simpa [State.lost, State.now, hcall, hlost] using h.dropped_eq
  · show Holds (area (writeb s.mem _ b) off) s.conSize.toNat s.consumed.length
      ((s.published ++ (c.put ++ [b])).drop s.consumed.length)
    have hdrop : s.consumed.length + (s.appended.drop s.consumed.length).length =
        s.appended.length := by
      rw [List.length_drop]
      omega
    have hone : (s.appended.drop s.consumed.length).length + [b].length ≤ s.conSize.toNat := by
      rw [List.length_drop, List.length_singleton]
      omega
    have hcopy := h.holds.writeWrap hone
    rw [hdrop, ← write_eq_writeWrap _ (by rw [List.length_singleton]; omega)] at hcopy
    rw [hcell, area_writeb, ← hnew, List.drop_append_of_le_length (by omega)]
    exact hcopy
  · show (s.published ++ (c.put ++ [b])).length ≤ s.consumed.length + s.conSize.toNat
    rw [← hnew, List.length_append, List.length_singleton]
    omega
  · exact (rmRead32_writeb b (by unfold ringHead ringHdrSize; omega)).trans h.head
  · exact (rmRead32_writeb b (by unfold ringTail ringHdrSize; omega)).trans h.tail
  · rintro c' ⟨⟩
    have hshort := hc.short
    rw [hsrc, List.length_cons] at hshort
    refine ⟨?_, ⟨t, ht, htail, ?_⟩, Nat.lt_of_succ_lt hshort, .inr hlost⟩
    · show c.head + 1#32 = BitVec.ofNat 32 (s.published.length + (c.put ++ [b]).length)
      rw [List.length_append, List.length_singleton, ← Nat.add_assoc, BitVec.ofNat_add, ← hc.head]
    · show s.published.length + (c.put ++ [b]).length ≤ t + s.conSize.toNat
      rw [List.length_append, List.length_singleton]
      omega

/-- The end of the call: its bytes are published. -/
theorem Live.publish (h : Live s off) {c : Call} (hcall : s.call = some c) (hsrc : c.src = []) :
    Live (s.publish off c) off := by
  have happ := State.appended_of_call hcall
  have hpub : (s.publish off c).published = s.appended := by
    simp [State.published, State.publish, happ]
  have happ' : (s.publish off c).appended = s.appended := by
    rw [State.appended_of_none rfl, hpub]
  have hhead : c.head = BitVec.ofNat 32 s.appended.length := by
    rw [(h.call c hcall).head, happ, List.length_append]
  refine ⟨?_, ?_, ?_, ?_, ?_, ?_, ?_, ?_, ?_⟩
  · simpa [State.calls, State.publish, hcall, hsrc] using h.written_eq
  · simpa [State.lost, State.now, State.publish, hcall] using h.dropped_eq
  · rw [hpub, happ]
    exact h.consumed.trans (List.prefix_append _ _)
  · rw [happ']
    show Holds (area (fb32 s.mem (off + ringHead) c.head) off) _ _ _
    rw [area_fb32 _ (by decide)]
    exact h.holds
  · rw [happ']
    exact h.fits
  · rw [hpub, ← hhead]
    exact read_fb32_same _ _ _
  · exact (read_fb32_ne _ _ (by unfold ringHead ringTail; omega)).trans h.tail
  · rw [hpub]
    exact hhead
  · rintro c' ⟨⟩

/-- Some of the published bytes are taken. -/
theorem Live.take (h : Live s off) (hpow : IsPow s.conSize) {n : Nat}
    (hn : n ≤ s.published.length - s.consumed.length) :
    Live { s with
      mem := fb32 s.mem (off + ringTail) (rmRead32 s.mem (off + ringTail) + BitVec.ofNat 32 n)
      consumed := s.consumed ++
        copyOut s.conSize (rmRead32 s.mem (off + ringTail)) (area s.mem off) n } off := by
  obtain ⟨hpos, -⟩ := isPow_le hpow
  obtain ⟨l, hl⟩ := id hpow
  have hle := h.consumed_le
  have hfits := h.fits
  have hpub : s.published.length ≤ s.appended.length := by
    rw [State.appended, List.length_append]
    omega
  -- the bytes copied out are the next of what was appended
  have htaken : copyOut s.conSize (rmRead32 s.mem (off + ringTail)) (area s.mem off) n =
      (s.appended.drop s.consumed.length).take n := by
    rw [h.tail]
    have hcopy := copyOut_eq_readWrap ⟨s.conSize, l, hl⟩ s.consumed.length (area s.mem off) n
    rw [hcopy]
    exact h.holds.readWrap hpos (by rw [List.length_drop]; omega) (by omega)
  have hlen : ((s.appended.drop s.consumed.length).take n).length = n := by
    rw [List.length_take, List.length_drop]
    omega
  have hfront : s.consumed ++ (s.appended.drop s.consumed.length).take n =
      s.published.take (s.consumed.length + n) := by
    have hpre : s.consumed = s.published.take s.consumed.length :=
      List.prefix_iff_eq_take.mp h.consumed
    rw [List.take_add, ← hpre, State.appended, List.drop_append_of_le_length hle,
      List.take_append_of_le_length (by rw [List.length_drop]; omega)]
  refine ⟨h.written_eq, h.dropped_eq, ?_, ?_, ?_, ?_, ?_, h.conHead, ?_⟩
  · show s.consumed ++ _ <+: s.published
    rw [htaken, hfront]
    exact List.take_prefix _ _
  · show Holds (area (fb32 s.mem (off + ringTail) _) off) s.conSize.toNat
      (s.consumed ++ _).length (s.appended.drop (s.consumed ++ _).length)
    rw [area_fb32 _ (by decide), htaken, List.length_append, hlen, ← List.drop_drop]
    exact h.holds.drop
  · show s.appended.length ≤ (s.consumed ++ _).length + s.conSize.toNat
    rw [List.length_append]
    omega
  · exact (read_fb32_ne _ _ (by unfold ringHead ringTail; omega)).trans h.head
  · show rmRead32 (fb32 s.mem (off + ringTail) _) _ = BitVec.ofNat 32 (s.consumed ++ _).length
    rw [read_fb32_same, htaken, List.length_append, hlen, BitVec.ofNat_add, h.tail]
  · intro c hcall
    have hc := h.call c hcall
    obtain ⟨t, ht, htail, hroom⟩ := hc.tail
    refine ⟨hc.head, ⟨t, ?_, htail, hroom⟩, hc.short, hc.once⟩
    show t ≤ (s.consumed ++ _).length
    rw [List.length_append]
    omega

/-- The host takes from the front of what is published. -/
theorem Live.host (h : Live s off) (hpow : IsPow s.conSize) (k : Nat) :
    Live (s.host k off) off := by
  obtain ⟨-, hsmall⟩ := isPow_le hpow
  have hle := h.consumed_le
  have hfits := h.fits
  rw [State.appended, List.length_append] at hfits
  refine h.take hpow ?_
  have hdist : (rmRead32 s.mem (off + ringHead) - rmRead32 s.mem (off + ringTail)).toNat =
      s.published.length - s.consumed.length := by
    rw [h.head, h.tail]
    exact toNat_ofNat_sub 32 hle (by omega)
  rw [← hdist]
  exact Nat.min_le_right _ _

/-- Changes that spare the ring. -/
theorem Live.other (h : Live s off) {m : Memory}
    (hm : ∀ i, off ≤ i → i < off + ringHdrSize + s.conSize.toNat → m i = s.mem i)
    (hpos : 0 < s.conSize.toNat) : Live { s with mem := m } off := by
  have hword : ∀ o, o + 4 ≤ ringHdrSize → rmRead32 m (off + o) = rmRead32 s.mem (off + o) :=
    fun o ho => rmRead32_congr fun k hk => hm _ (by omega) (by omega)
  refine ⟨h.written_eq, h.dropped_eq, h.consumed, ?_, h.fits, ?_, ?_, h.conHead, h.call⟩
  · intro k hk
    have hlt := Nat.mod_lt (s.consumed.length + k) hpos
    exact (hm _ (by omega) (by
      show off + ringHdrSize + (s.consumed.length + k) % s.conSize.toNat < _
      omega)).trans (h.holds k hk)
  · exact (hword ringHead (by decide)).trans h.head
  · exact (hword ringTail (by decide)).trans h.tail

end steps

/-! ## the hand-over, and the first look at the ring -/

section attach

variable {regionSize : Nat} {s : State} {off : Nat}

/-- The console of a ring nobody wrote to. -/
theorem Idle.attach (h : Idle regionSize s) {e : Ends} (he : e ∈ findConsole s.mem regionSize) :
    Live (s.attach e) e.c2h.toNat := by
  obtain ⟨hhead, htail⟩ := h.empty e he
  have hpub : (s.attach e).published = [] := by simp [State.published, State.attach, h.returned]
  have hcall : (s.attach e).call = none := h.call
  have happ : (s.attach e).appended = [] := by rw [State.appended_of_none hcall, hpub]
  have hcons : (s.attach e).consumed = [] := h.consumed
  refine ⟨?_, ?_, ?_, ?_, ?_, ?_, ?_, ?_, ?_⟩
  · simp [State.calls, State.attach, h.written, h.returned, h.call]
  · simp [State.lost, State.now, State.attach, h.dropped, h.returned, h.call]
  · rw [hcons]
    exact List.nil_prefix
  · rw [happ, List.drop_nil]
    exact holds_nil _ _ _
  · rw [happ]
    exact Nat.zero_le _
  · rw [hpub]
    exact hhead
  · rw [hcons]
    exact htail
  · rw [hpub]
    exact hhead
  · intro c hc
    exact absurd (h.call.symm.trans hc) (by simp)

/-- The search through the other mapping gives the ring in use, whose head word
is the head the driver kept. -/
theorem Attached.attach (h : Attached regionSize s off) (hcon : s.con = some off) {e : Ends}
    (he : e ∈ findConsole s.mem regionSize) : s.attach e = s := by
  obtain ⟨e', he', hoff, hsize⟩ := h.found
  obtain rfl : e = e' := Option.some.inj ((Option.mem_def.mp he).symm.trans he')
  have hhead := h.live.head.trans h.live.conHead.symm
  rw [hoff] at hhead hcon
  simp only [State.attach, hhead, ← hcon, ← hsize]

/-- What the driver keeps besides does not matter to the ring. -/
theorem Live.flags (h : Live s off) (base early earlycon tty : Bool) :
    Live { s with base := base, early := early, earlycon := earlycon, tty := tty } off :=
  ⟨h.written_eq, h.dropped_eq, h.consumed, h.holds, h.fits, h.head, h.tail, h.conHead, h.call⟩

theorem Attached.flags (h : Attached regionSize s off) (base early earlycon tty : Bool) :
    Attached regionSize
      { s with base := base, early := early, earlycon := earlycon, tty := tty } off :=
  ⟨h.found, h.live.flags base early earlycon tty⟩

/-- With a ring in use the flags may change. -/
theorem Inv.flags (h : Inv regionSize s) (hcon : s.con = some off)
    (base early earlycon tty : Bool) :
    Inv regionSize { s with base := base, early := early, earlycon := earlycon, tty := tty } :=
  ⟨h.settled, fun hnone => absurd (hcon.symm.trans hnone) (by simp),
    fun o ho => (h.attached o ho).flags base early earlycon tty⟩

theorem Idle.base (h : Idle regionSize s) (base : Bool) :
    Idle regionSize { s with base := base } :=
  ⟨h.call, h.earlycon, h.tty, h.written, h.returned, h.consumed, h.dropped, h.empty⟩

theorem Inv.base (h : Inv regionSize s) (base : Bool) : Inv regionSize { s with base := base } :=
  ⟨h.settled, fun hnone => (h.idle hnone).base base,
    fun o ho => (h.attached o ho).flags base s.early s.earlycon s.tty⟩

/-- The boot flags belong to nobody the console goes by. -/
theorem Settled.bootFlags {m : Memory} (h : Settled regionSize m) (b : UInt8) :
    Settled regionSize (writeb m 24 b) ∧
      findConsole (writeb m 24 b) regionSize = findConsole m regionSize := by
  have htable : ∀ a, InTable m a → writeb m 24 b a = m a := fun a ha => if_neg (by
    have := ha.2
    omega)
  refine ⟨h.congr htable fun e he k hk => if_neg ?_, findConsole_congr htable regionSize⟩
  have := (h e he).1
  have : 64 ≤ descOffset (channelCount m) := Nat.le_add_right _ _
  omega

/-- The first look, with the early mapping. -/
theorem Inv.earlyconInit (h : Inv regionSize s) (mapped : Bool) :
    Inv regionSize (s.earlyconInit regionSize mapped) := by
  unfold State.earlyconInit
  rcases Option.eq_none_or_eq_some s.con with hcon | ⟨off, hcon⟩
  · rw [if_neg (by simp [hcon])]
    split
    · rw [h.settled.ringOf_eq]
      rcases Option.eq_none_or_eq_some (findConsole s.mem regionSize) with he | ⟨e, he⟩
      · simp only [he]
        exact h.base true
      · obtain ⟨hbehind, hpow, -⟩ := h.settled e he
        obtain ⟨hset, hfind⟩ := h.settled.bootFlags (s.mem 24 ||| 1)
        have hmin : 64 ≤ descOffset (channelCount s.mem) := Nat.le_add_right _ _
        have hlive := ((h.idle hcon).attach he).other (m := writeb s.mem 24 (s.mem 24 ||| 1))
          (fun i hi _ => if_neg (by omega)) (isPow_le hpow).1
        simp only [he]
        refine ⟨hset, (fun hnone => by cases hnone), ?_⟩
        rintro off ⟨⟩
        exact ⟨⟨e, hfind.trans he, rfl, rfl⟩, hlive.flags true true true s.tty⟩
    · exact h.base true
  · rw [if_pos (by simp [hcon])]
    exact h.flags hcon s.base s.early true s.tty

/-- The permanent mapping, whether or not there was an early one. -/
theorem Inv.remap (h : Inv regionSize s) (mapped : Bool) :
    Inv regionSize (s.remap regionSize mapped) := by
  unfold State.remap
  split
  · exact h.base true
  · rw [h.settled.ringOf_eq]
    rcases Option.eq_none_or_eq_some (findConsole s.mem regionSize) with he | ⟨e, he⟩
    · simp only [he]
      exact h.base true
    · simp only [he]
      rcases Option.eq_none_or_eq_some s.con with hcon | ⟨off, hcon⟩
      · have hlive := (h.idle hcon).attach he
        refine ⟨h.settled, (fun hnone => by cases hnone), ?_⟩
        rintro off ⟨⟩
        exact ⟨⟨e, he, rfl, rfl⟩, hlive.flags true false s.earlycon s.tty⟩
      · rw [(h.attached off hcon).attach hcon he]
        exact h.flags hcon true false s.earlycon s.tty

end attach

/-! ## every step -/

section step

variable {regionSize : Nat} {s : State} {off : Nat}

/-- The ring's own words and cells may change. -/
theorem Inv.store (h : Inv regionSize s) (hcon : s.con = some off) {s' : State}
    (hcon' : s'.con = some off) (hsize : s'.conSize = s.conSize)
    (hmem : ∀ a < off + ringHead, s'.mem a = s.mem a) (hlive : Live s' off) :
    Inv regionSize s' := by
  obtain ⟨e, he, hoff, hs⟩ := (h.attached off hcon).found
  rw [hoff] at hmem
  obtain ⟨hset, hfind⟩ := h.settled.store he hmem
  refine ⟨hset, fun hnone => absurd (hcon'.symm.trans hnone) (by simp), fun o ho => ?_⟩
  obtain rfl : off = o := Option.some.inj (hcon'.symm.trans ho)
  exact ⟨⟨e, by rw [hfind]; exact he, hoff, hsize.trans hs⟩, hlive⟩

theorem Inv.pow (h : Inv regionSize s) (hcon : s.con = some off) : IsPow s.conSize := by
  obtain ⟨e, he, -, hs⟩ := (h.attached off hcon).found
  rw [hs]
  exact (h.settled e he).2.1

theorem Inv.enter (h : Inv regionSize s) {w : Writer} (hw : s.registered w = true)
    (hcall : s.call = none) (bs : Buffer) : Inv regionSize (s.enter bs) := by
  cases hcon : s.con with
  | none =>
      have hidle := h.idle hcon
      cases w with
      | earlycon => simp [State.registered, hidle.earlycon] at hw
      | tty => simp [State.registered, hidle.tty] at hw
  | some off =>
      have hmem : (s.enter bs).mem = s.mem ∧ (s.enter bs).con = s.con ∧
          (s.enter bs).conSize = s.conSize := by simp [State.enter, hcon]
      exact h.store hcon (hmem.2.1.trans hcon) hmem.2.2 (fun a _ => by rw [hmem.1])
        ((h.attached off hcon).live.enter hcall hcon bs)

theorem Inv.round (h : Inv regionSize s) (hcon : s.con = some off) {c : Call}
    (hcall : s.call = some c) : Inv regionSize (s.round off c) := by
  have hlive := (h.attached off hcon).live
  unfold State.round
  cases hsrc : c.src with
  | nil => exact h
  | cons b rest =>
      dsimp only
      split
      · rw [← hsrc]
        exact h.store hcon hcon rfl (fun a _ => rfl) (hlive.drop hcall hsrc)
      · next hroom =>
          refine h.store hcon hcon rfl (fun a ha => if_neg ?_)
            (hlive.put (h.pow hcon) hcall hsrc hroom)
          unfold ringHdrSize
          unfold ringHead at ha
          omega

theorem Inv.publish (h : Inv regionSize s) (hcon : s.con = some off) {c : Call}
    (hcall : s.call = some c) (hsrc : c.src = []) : Inv regionSize (s.publish off c) :=
  h.store hcon hcon rfl (fun _ ha => fb32_apply_of_ne _ (.inl ha))
    ((h.attached off hcon).live.publish hcall hsrc)

theorem Inv.host (h : Inv regionSize s) (hcon : s.con = some off) (k : Nat) :
    Inv regionSize (s.host k off) := by
  refine h.store hcon hcon rfl (fun a ha => fb32_apply_of_ne _ (.inl ?_))
    ((h.attached off hcon).live.host (h.pow hcon) k)
  unfold ringHead at ha
  unfold ringTail
  omega

/-- Another channel's byte. -/
theorem Inv.other (h : Inv regionSize s) {i : Nat} (hi : Elsewhere regionSize s.mem i)
    (b : UInt8) : Inv regionSize { s with mem := writeb s.mem i b } := by
  obtain ⟨htable, hring⟩ := hi
  have hsame : ∀ a, InTable s.mem a → writeb s.mem i b a = s.mem a := by
    intro a ha
    refine if_neg ?_
    rintro rfl
    exact htable ha
  have hfind := findConsole_congr hsame regionSize
  have hspared : ∀ e ∈ findConsole s.mem regionSize, ∀ a, e.c2h.toNat ≤ a →
      a < e.c2h.toNat + ringHdrSize + e.c2hSize.toNat → writeb s.mem i b a = s.mem a :=
    fun e he a ha ha' => if_neg (by
      have := hring e he
      omega)
  have hwords : ∀ e ∈ findConsole s.mem regionSize, ∀ o, o + 4 ≤ ringHdrSize →
      rmRead32 (writeb s.mem i b) (e.c2h.toNat + o) = rmRead32 s.mem (e.c2h.toNat + o) :=
    fun e he o ho => rmRead32_congr fun k hk => hspared e he _ (by omega) (by omega)
  refine ⟨h.settled.congr hsame fun e he k hk => hspared e he _ (by omega) (by
    unfold ringHdrSize
    omega), fun hcon => ?_, fun off hcon => ?_⟩
  · have hidle := h.idle hcon
    refine { hidle with empty := fun e he => ?_ }
    have he' : e ∈ findConsole s.mem regionSize := by
      rw [← hfind]
      exact he
    exact ⟨(hwords e he' ringHead (by decide)).trans (hidle.empty e he').1,
      (hwords e he' ringTail (by decide)).trans (hidle.empty e he').2⟩
  · obtain ⟨e, he, hoff, hs⟩ := (h.attached off hcon).found
    refine ⟨⟨e, by rw [hfind]; exact he, hoff, hs⟩,
      (h.attached off hcon).live.other (fun a ha ha' => ?_) (isPow_le (h.pow hcon)).1⟩
    rw [hoff] at ha ha'
    rw [hs] at ha'
    exact hspared e he a ha ha'

/-- Every step keeps the invariant. -/
theorem Inv.step (h : Inv regionSize s) (e : Event) : Inv regionSize (s.step regionSize e) := by
  cases e with
  | earlyconInit mapped =>
      simp only [State.step]
      split
      · exact h.earlyconInit mapped
      · exact h
  | remap mapped =>
      simp only [State.step]
      split
      · exact h.remap mapped
      · exact h
  | ttyInit ok =>
      simp only [State.step, State.ttyInit]
      split
      · next hreg =>
          simp only [Bool.and_eq_true] at hreg
          obtain ⟨off, hcon⟩ := Option.isSome_iff_exists.mp hreg.1.1
          exact h.flags hcon s.base s.early s.earlycon true
      · exact h
  | enter w bs =>
      simp only [State.step]
      split
      · next hw =>
          rw [Bool.and_eq_true] at hw
          exact h.enter hw.1 (by simpa using hw.2) bs
      · exact h
  | loop =>
      simp only [State.step]
      split
      · next hcon hcall => exact h.round hcon hcall
      · exact h
  | publish =>
      simp only [State.step]
      split
      · next hcon hcall =>
          split
          · next hsrc => exact h.publish hcon hcall hsrc
          · exact h
      · exact h
  | host k =>
      simp only [State.step]
      split
      · next hcon => exact h.host hcon k
      · exact h
  | other i b =>
      simp only [State.step]
      split
      · next hi => exact h.other hi b
      · exact h

end step

/-! ## runs -/

section runs

variable {regionSize : Nat}

/-- Before anything has looked at a formatted region. -/
theorem inv_start {m : Memory} (h : ∀ e ∈ findConsole m regionSize, Fresh m e) :
    Inv regionSize (start m) where
  settled e he := by
    obtain ⟨hbehind, hpow, hring⟩ := h e he
    refine ⟨hbehind, hpow, ?_⟩
    show ringOk m _ _ = true
    simp [ringOk, hring.magic, hring.recorded]
  idle _ := ⟨rfl, rfl, rfl, rfl, rfl, rfl, rfl, fun e he =>
    ⟨(h e he).ring.head, (h e he).ring.tail⟩⟩
  attached off hoff := by cases hoff

theorem State.length_calls (s : State) :
    s.calls.flatten.length = s.appended.length + s.lost + s.now.2.2.length := by
  have hreturned : ∀ ps : List (List UInt8 × List UInt8),
      (ps.map fun p => p.1 ++ p.2).flatten.length =
        (ps.flatMap Prod.fst).length + (ps.map fun p => p.2.length).sum := by
    intro ps
    induction ps with
    | nil => rfl
    | cons p ps ih =>
        simp only [List.map_cons, List.flatten_cons, List.length_append, List.flatMap_cons,
          List.sum_cons, ih]
        omega
  simp only [State.calls, State.appended, State.published, State.lost, State.now,
    List.flatten_append, List.length_append, hreturned]
  cases s.call with
  | none => simp
  | some c =>
      simp only [List.flatten_cons, List.flatten_nil, List.length_append, List.length_nil]
      omega

theorem Inv.accounted {s : State} (h : Inv regionSize s) : s.Accounted := by
  rcases Option.eq_none_or_eq_some s.con with hcon | ⟨off, hcon⟩
  · have hidle := h.idle hcon
    have hcalls : s.written = s.calls := by
      simp [State.calls, hidle.written, hidle.returned, hidle.call]
    refine ⟨hcalls, by rw [hcalls, s.length_calls], ?_, ?_, fun off hoff => ?_,
      fun _ => hidle.written⟩
    · simp [State.lost, State.now, hidle.dropped, hidle.returned, hidle.call]
    · rw [hidle.consumed]
      exact List.nil_prefix
    · rw [hcon] at hoff
      cases hoff
  · have hlive := (h.attached off hcon).live
    refine ⟨hlive.written_eq, by rw [hlive.written_eq, s.length_calls], hlive.dropped_eq,
      hlive.consumed, fun o ho => ?_, fun hnone => ?_⟩
    · obtain rfl : off = o := Option.some.inj (hcon.symm.trans ho)
      exact ⟨hlive.holds, hlive.fits, hlive.head, hlive.tail⟩
    · rw [hcon] at hnone
      cases hnone

/-- In a region as the host formats it, whatever the writers, the host and the
hand-over do and in whatever order, the console accounts for every byte. -/
theorem console_accounted (p : Plan) (info : HostInfo) {stop : Nat} {m : Memory}
    (hsize : regionSize < 2 ^ 32) (h : regionFormat p regionSize info = some (stop, m))
    (es : List Event) : (run (State.step regionSize) (start m) es).Accounted := by
  have hstart : Inv regionSize (start m) := inv_start fun _ he => fresh_of_format hsize h he
  exact (run_inv_all (fun _ e hs => hs.step e) hstart es).accounted

end runs

/-- Two bytes through the early mapping, one of them taken; one more through the
permanent mapping. -/
def handOver : List Event :=
  [.earlyconInit true, .enter .earlycon ⟨[104, 105], by decide⟩, .loop, .loop, .publish, .host 1,
    .remap true, .ttyInit true, .enter .tty ⟨[10], by decide⟩, .loop, .publish]

theorem console_accounted_default :
    ∃ m, regionFormat defaultPlan 16777216 ⟨0#64, 0#64, 0#64⟩ = some (planEnd defaultPlan, m) ∧
      ∀ es, (run (State.step 16777216) (start m) es).Accounted := by
  obtain ⟨m, hm, -⟩ := regionFormat_eq_some ⟨0#64, 0#64, 0#64⟩
    (show planEnd defaultPlan ≤ 16777216 by decide)
  exact ⟨m, hm, fun es => console_accounted _ _ (by decide) hm es⟩

example : (regionFormat defaultPlan 16777216 ⟨0#64, 0#64, 0#64⟩).map (fun r =>
    let s := run (State.step 16777216) (start r.2) handOver
    (s.appended, s.consumed, s.early)) = some ([104, 105, 10], [104], false) := by
  decide +kernel

end Phi.Dev.Console
