import Phi.Disk.Dma
import Phi.Lib.Circular
import Phi.Lib.Modular
import Phi.Lib.Run

/-!
# Phi.Disk.Engine

The descriptor ring between the host and the card's copy engine (`dma.S`).

A copy is four descriptors: the copy, the write of its number into a status
word, and two that do nothing.  The host writes them at its head, moves the
head on and rings the doorbell; the engine fetches descriptors from its tail up
to the doorbell and performs them in order, some time after it fetched them.
All the host sees of it are the two status words, one in host memory and one in
card memory, at addresses of 40 bits.  No copy is taken to write over the ring
or a status word.

Numbers are 64-bit words here; the counts of `Phi.Disk.Dma` are what they
stand for, which the last section says.
-/

namespace Phi.Disk

open Phi.Ring Circular

/-! ## descriptors -/

def ringDescriptors : Nat := 256
/-- Addresses the engine sees have 40 bits. -/
def busMask : W64 := BitVec.ofNat 64 (2 ^ 40 - 1)

/-- A descriptor: two words. -/
structure Descriptor where
  q0 : W64
  q1 : W64
deriving DecidableEq, Repr

/-- A copy as the engine makes it. -/
structure Copy where
  src : W64
  dst : W64
  len : Nat
deriving DecidableEq, Repr

def nop : Descriptor := ⟨0#64, 0#64⟩

/-- The descriptor of a copy: its length in lines above the source address. -/
def copyDescriptor (src dst : W64) (len : Nat) : Descriptor where
  q0 := (src &&& busMask) ||| ((BitVec.ofNat 64 len >>> 6) <<< 46)
  q1 := (dst &&& busMask) ||| (1#64 <<< 60)

/-- The descriptor that writes `seq` at the address. -/
def statusDescriptor (seq addr : W64) : Descriptor where
  q0 := seq
  q1 := (addr &&& busMask) ||| (2#64 <<< 60)

/-- The copy a descriptor asks for, if it is one. -/
def Descriptor.copy? (d : Descriptor) : Option Copy :=
  if d.q1 >>> 60 = 1#64 then
    some ⟨d.q0 &&& busMask, d.q1 &&& busMask, (d.q0 >>> 46).toNat * 64⟩
  else none

/-- The descriptors of one copy. -/
def block (src dst : W64) (len : Nat) (seq addr : W64) : List Descriptor :=
  [copyDescriptor src dst len, statusDescriptor seq addr, nop, nop]

/-! ## the engine -/

/-- The engine: the ring it reads, how far the host has rung and how far it has
fetched, what it fetched and has still to perform, the status words by address,
and all it performed so far. -/
structure Engine where
  ring : Nat → Descriptor
  doorbell : Nat
  tail : Nat
  fetched : List Descriptor
  words : W64 → W64
  performed : List Descriptor

inductive EngineStep where
  | fetch
  | perform
deriving DecidableEq, Repr

namespace Engine

/-- The descriptors fetched so far. -/
def consumed (e : Engine) : List Descriptor := e.performed ++ e.fetched

/-- The copies made so far. -/
def copies (e : Engine) : List Copy := e.performed.filterMap Descriptor.copy?

/-- What performing a descriptor does to the status words. -/
def wordsAfter (words : W64 → W64) (d : Descriptor) : W64 → W64 :=
  if d.q1 >>> 60 = 2#64 then fun a => if a = d.q1 &&& busMask then d.q0 else words a
  else words

def step (e : Engine) : EngineStep → Engine
  | .fetch =>
      if e.tail = e.doorbell then e
      else { e with
        fetched := e.fetched ++ [e.ring e.tail], tail := (e.tail + 1) % ringDescriptors }
  | .perform => match e.fetched with
      | [] => e
      | d :: ds => { e with
          fetched := ds, words := wordsAfter e.words d, performed := e.performed ++ [d] }

end Engine

/-! ## the host's side -/

/-- A channel: the fields of `DC_*` that its routines read. -/
structure Channel where
  ringCard : W64
  statusCard : W64
  head : Nat
  submitted : W64
  pending : W64
  completed : W64
  progress : W64
deriving DecidableEq, Repr

namespace Channel

/-- `dma_in_flight`. -/
def inFlight (c : Channel) : W64 := c.submitted - c.completed

/-- Where the status word in host memory is. -/
def hostSlot (c : Channel) : W64 := c.ringCard + 4096#64

/-- Where the copy into `dst` writes its number. -/
def statusAddr (c : Channel) (dst : W64) : W64 :=
  if smptBase ≤ dst.toNat then c.hostSlot else c.statusCard

/-- What `dma_submit` leaves of the channel. -/
def put (now dst : W64) (c : Channel) : Channel :=
  { c with
    head := (c.head + 4) % ringDescriptors
    progress := if c.inFlight = 0#64 then now else c.progress
    submitted := c.submitted + 1#64
    pending := if dst.toNat < smptBase then c.submitted + 1#64 else c.pending }

end Channel

/-- The channel and its engine; where the head was after `dma_open`, every
descriptor put into the ring, and every copy submitted. -/
structure Machine where
  chan : Channel
  engine : Engine
  base : Nat
  given : List Descriptor
  asked : List Copy

/-- One look at the engine: what it does between the reads of the two status
words, and the clock. -/
structure Look where
  between : List EngineStep
  now : W64
deriving Repr

namespace Machine

def advance (p : List EngineStep) (m : Machine) : Machine :=
  { m with engine := run Engine.step m.engine p }

/-- `dma_poll`: the last completed number, none when it fails. -/
def dmaPoll (l : Look) (m : Machine) : Machine × Option W64 :=
  let c := m.chan
  if c.inFlight = 0#64 then ({ m with chan := { c with progress := l.now } }, some c.completed)
  else
    let host := m.engine.words (c.hostSlot &&& busMask)
    let m := m.advance l.between
    let card := m.engine.words (c.statusCard &&& busMask)
    let word := if c.pending ≤ host ∨ card ≤ host then host else card
    if c.submitted < word then (m, none)
    else if word ≤ c.completed then
      if copyTimeoutMs < (l.now - c.progress).toNat then (m, none) else (m, some c.completed)
    else
      ({ m with chan := { c with
          completed := word
          progress := l.now
          pending := if word < c.pending then c.pending else 0#64 } }, some word)

/-- The wait of `dma_submit` for room, the engine going on between the looks; a
number that is negative as a signed word counts as failure. -/
def waitRoom : List (Look × List EngineStep) → Machine → Option (Machine × Bool)
  | [], m => if m.chan.inFlight.toNat < maxInFlight then some (m, true) else none
  | (l, p) :: rest, m =>
      if m.chan.inFlight.toNat < maxInFlight then some (m, true)
      else match m.dmaPoll l with
        | (m, none) => some (m, false)
        | (m, some done) =>
            if done.msb then some (m, false) else waitRoom rest (m.advance p)

/-- The rest of `dma_submit`: the descriptors written at the head, the doorbell,
and the counts. -/
def putCopy (mid : List EngineStep) (now src dst : W64) (len : Nat) (m : Machine) : Machine :=
  let c := m.chan
  let ds := block src dst len (c.submitted + 1#64) (c.statusAddr dst)
  let e := run Engine.step { m.engine with ring := write m.engine.ring c.head ds } mid
  { m with
    chan := c.put now dst
    engine := { e with doorbell := (c.head + 4) % ringDescriptors }
    given := m.given ++ ds
    asked := m.asked ++ [⟨src &&& busMask, dst &&& busMask, len⟩] }

/-- `dma_submit`: the number of the copy, 0 when it was refused; no result
while it waits for room. -/
def dmaSubmit (waits : List (Look × List EngineStep)) (mid : List EngineStep) (now src dst : W64)
    (len : Nat) (m : Machine) : Option (Machine × W64) :=
  if granular src dst len = false then some (m, 0#64)
  else match waitRoom waits m with
    | none => none
    | some (m, false) => some (m, 0#64)
    | some (m, true) => some (m.putCopy mid now src dst len, m.chan.submitted + 1#64)

/-- What `dma_open` leaves: the head on the next line from the engine's tail,
everything up to it consumed, both status words zero. -/
def dmaOpen (ringCard statusCard : W64) (tail : Nat) (now : W64) (ring : Nat → Descriptor)
    (words : W64 → W64) : Machine where
  chan := ⟨ringCard, statusCard, (tail + 3) / 4 * 4 % ringDescriptors, 0#64, 0#64, 0#64, now⟩
  engine :=
    { ring := ring
      doorbell := (tail + 3) / 4 * 4 % ringDescriptors
      tail := (tail + 3) / 4 * 4 % ringDescriptors
      fetched := []
      words := fun a =>
        if a = (ringCard + 4096#64) &&& busMask ∨ a = statusCard &&& busMask then 0#64 else words a
      performed := [] }
  base := (tail + 3) / 4 * 4 % ringDescriptors
  given := []
  asked := []

end Machine

/-! ## runs -/

/-- What happens: the engine goes on, the host looks at it, or it submits a
copy. -/
inductive MachineEvent where
  | engine (s : EngineStep)
  | poll (l : Look)
  | submit (waits : List (Look × List EngineStep)) (mid : List EngineStep) (now src dst : W64)
      (len : Nat)

namespace Machine

/-- A call that still waits has made its looks and no more: they are events of
their own. -/
def step (m : Machine) : MachineEvent → Machine
  | .engine s => m.advance [s]
  | .poll l => (m.dmaPoll l).1
  | .submit waits mid now src dst len => match m.dmaSubmit waits mid now src dst len with
      | none => m
      | some (m, _) => m

/-- The four descriptors at the head lie inside the ring and are none that the
engine has not consumed. -/
def HeadFree (m : Machine) : Prop :=
  m.chan.head + 4 ≤ ringDescriptors ∧
    ∀ r < 4, ∀ k, m.engine.consumed.length ≤ k → k < m.given.length →
      m.chan.head + r ≠ (m.base + k) % ringDescriptors

/-- The copies up to the number `done` were submitted and have been made. -/
def Done (m : Machine) (done : W64) : Prop :=
  done.toNat ≤ m.asked.length ∧ m.asked.take done.toNat <+: m.engine.copies

/-- A submission writes where the head is free and is named by its number; a
number reported is of copies that were made. -/
def Safe (m : Machine) : MachineEvent → Prop
  | .engine _ => True
  | .poll l => ∀ done, (m.dmaPoll l).2 = some done → (m.dmaPoll l).1.Done done
  | .submit waits mid now src dst len =>
      (∀ m', waitRoom waits m = some (m', true) → m'.HeadFree) ∧
        ∀ m' seq, m.dmaSubmit waits mid now src dst len = some (m', seq) → m'.asked ≠ m.asked →
          m'.asked = m.asked ++ [⟨src &&& busMask, dst &&& busMask, len⟩] ∧
            seq = BitVec.ofNat 64 m'.asked.length

end Machine

/-! ## what the descriptors say -/

section fields

theorem getLsbD_busMask (i : Nat) : busMask.getLsbD i = decide (i < 40) := by
  unfold busMask
  rw [BitVec.getLsbD_ofNat, Nat.testBit_two_pow_sub_one]
  by_cases h : i < 40
  · simp [h, Nat.lt_trans h (by decide : 40 < 64)]
  · simp [h]

/-- The low field of a word is the address. -/
theorem low_field (x y : W64) {k : Nat} (hk : 40 ≤ k) :
    ((x &&& busMask) ||| (y <<< k)) &&& busMask = x &&& busMask := by
  apply BitVec.eq_of_getLsbD_eq
  intro i hi
  simp only [BitVec.getLsbD_and, BitVec.getLsbD_or, BitVec.getLsbD_shiftLeft, getLsbD_busMask]
  by_cases h : i < 40
  · simp [h, show i < k by omega]
  · simp [h]

/-- The high field of a word is what was put above the address. -/
theorem high_field (x y : W64) {k : Nat} (hk : 40 ≤ k) (hk' : k < 64)
    (hy : y.toNat < 2 ^ (64 - k)) : ((x &&& busMask) ||| (y <<< k)) >>> k = y := by
  apply BitVec.eq_of_getLsbD_eq
  intro i hi
  simp only [BitVec.getLsbD_and, BitVec.getLsbD_or, BitVec.getLsbD_shiftLeft,
    BitVec.getLsbD_ushiftRight, getLsbD_busMask]
  by_cases h : k + i < 64
  · simp [h, show ¬ k + i < 40 by omega]
  · have hbit : y.getLsbD i = false := by
      unfold BitVec.getLsbD
      exact Nat.testBit_lt_two_pow (Nat.lt_of_lt_of_le hy (Nat.pow_le_pow_right (by decide)
        (by omega)))
    simp [h, hbit, show ¬ k + i < 40 by omega]

/-- A descriptor of a copy asks for that copy, its addresses cut to the bus. -/
theorem copy?_copyDescriptor {src dst : W64} {len : Nat} (h : granular src dst len = true) :
    (copyDescriptor src dst len).copy? = some ⟨src &&& busMask, dst &&& busMask, len⟩ := by
  have hgran : len % 64 = 0 ∧ len < 2 ^ 20 := by
    simp only [granular, decide_eq_true_eq] at h
    exact ⟨h.2.1, h.2.2.2.2⟩
  have hlines : (BitVec.ofNat 64 len >>> 6).toNat = len / 64 := by
    rw [BitVec.toNat_ushiftRight, BitVec.toNat_ofNat, Nat.mod_eq_of_lt (by omega),
      Nat.shiftRight_eq_div_pow]
  have hkind : (copyDescriptor src dst len).q1 >>> 60 = 1#64 :=
    high_field dst 1#64 (by decide) (by decide) (by decide)
  have hcount : (copyDescriptor src dst len).q0 >>> 46 = BitVec.ofNat 64 len >>> 6 :=
    high_field src _ (by decide) (by decide) (by rw [hlines]; omega)
  unfold Descriptor.copy?
  rw [if_pos hkind, hcount, hlines]
  unfold copyDescriptor
  rw [low_field _ _ (by decide), low_field _ _ (by decide), Nat.div_mul_cancel
    (Nat.dvd_of_mod_eq_zero hgran.1)]

theorem kind_statusDescriptor (seq addr : W64) :
    (statusDescriptor seq addr).q1 >>> 60 = 2#64 :=
  high_field addr 2#64 (by decide) (by decide) (by decide)

theorem copy?_statusDescriptor (seq addr : W64) : (statusDescriptor seq addr).copy? = none := by
  unfold Descriptor.copy?
  rw [kind_statusDescriptor]
  rfl

end fields

/-! ## the descriptors of all copies -/

/-- The descriptors are those of the copies, four each, numbered from 1. -/
structure Blocks (given : List Descriptor) (asked : List Copy) : Prop where
  length : given.length = 4 * asked.length
  block : ∀ (i : Nat) (c : Copy), asked[i]? = some c → ∃ src dst len addr,
    granular src dst len = true ∧ c = ⟨src &&& busMask, dst &&& busMask, len⟩ ∧
      (given.drop (4 * i)).take 4 = block src dst len (BitVec.ofNat 64 (i + 1)) addr

theorem blocks_nil : Blocks [] [] := ⟨rfl, by simp⟩

theorem Blocks.append {given : List Descriptor} {asked : List Copy} (h : Blocks given asked)
    {src dst : W64} {len : Nat} (hgran : granular src dst len = true) (addr : W64) :
    Blocks (given ++ Disk.block src dst len (BitVec.ofNat 64 (asked.length + 1)) addr)
      (asked ++ [⟨src &&& busMask, dst &&& busMask, len⟩]) where
  length := by
    rw [List.length_append, List.length_append, h.length]
    show 4 * asked.length + 4 = 4 * (asked.length + 1)
    omega
  block i c hc := by
    rcases Nat.lt_or_ge i asked.length with hi | hi
    · rw [List.getElem?_append_left hi] at hc
      obtain ⟨src', dst', len', addr', hgran', hcopy, hblock⟩ := h.block i c hc
      refine ⟨src', dst', len', addr', hgran', hcopy, ?_⟩
      rw [List.drop_append_of_le_length (by rw [h.length]; omega),
        List.take_append_of_le_length (by rw [List.length_drop, h.length]; omega), hblock]
    · rw [List.getElem?_append_right hi] at hc
      obtain ⟨hlt, hget⟩ := List.getElem?_eq_some_iff.mp hc
      have hlast : i = asked.length := by
        rw [List.length_singleton] at hlt
        omega
      subst hlast
      refine ⟨src, dst, len, addr, hgran, ?_, ?_⟩
      · rw [← hget]
        simp
      · rw [← h.length, List.drop_left]
        rfl

/-- What the descriptor at position `p` is. -/
theorem Blocks.at {given : List Descriptor} {asked : List Copy} (h : Blocks given asked) {p : Nat}
    {d : Descriptor} (hd : given[p]? = some d) :
    ∃ c, asked[p / 4]? = some c ∧
      (p % 4 = 0 ∧ d.copy? = some c ∧ d.q1 >>> 60 ≠ 2#64 ∨
        p % 4 = 1 ∧ d.copy? = none ∧ d.q0 = BitVec.ofNat 64 (p / 4 + 1) ∨
        2 ≤ p % 4 ∧ d.copy? = none ∧ d.q1 >>> 60 ≠ 2#64) := by
  have hlt : p < given.length := (List.getElem?_eq_some_iff.mp hd).1
  have hi : p / 4 < asked.length := by
    rw [h.length] at hlt
    omega
  obtain ⟨src, dst, len, addr, hgran, hcopy, hblock⟩ :=
    h.block (p / 4) asked[p / 4] (List.getElem?_eq_getElem hi)
  have hmem : (Disk.block src dst len (BitVec.ofNat 64 (p / 4 + 1)) addr)[p % 4]? = some d := by
    rw [← hblock, List.getElem?_take_of_lt (Nat.mod_lt p (by decide)), List.getElem?_drop,
      Nat.div_add_mod]
    exact hd
  refine ⟨asked[p / 4], List.getElem?_eq_getElem hi, ?_⟩
  have hcases : p % 4 = 0 ∨ p % 4 = 1 ∨ p % 4 = 2 ∨ p % 4 = 3 := by omega
  obtain hr | hr | hr | hr := hcases
  · rw [hr] at hmem
    cases hmem
    have hkind : (copyDescriptor src dst len).q1 >>> 60 = 1#64 :=
      high_field dst 1#64 (by decide) (by decide) (by decide)
    refine .inl ⟨hr, (copy?_copyDescriptor hgran).trans (congrArg some hcopy.symm), ?_⟩
    rw [hkind]
    decide
  · rw [hr] at hmem
    cases hmem
    exact .inr (.inl ⟨hr, copy?_statusDescriptor _ _, rfl⟩)
  · rw [hr] at hmem
    cases hmem
    exact .inr (.inr ⟨by omega, by decide, by decide⟩)
  · rw [hr] at hmem
    cases hmem
    exact .inr (.inr ⟨by omega, by decide, by decide⟩)

/-! ## the engine keeps in step -/

/-- The engine consumed a prefix of the descriptors `given`, the ring holds the
rest, the copies it made are those of the descriptors performed, and neither
status word `host`, `card` is ahead of them. -/
structure Engine.Ok (base : Nat) (given : List Descriptor) (asked : List Copy) (host card : W64)
    (e : Engine) : Prop where
  consumed : e.consumed <+: given
  tail : e.tail = (base + e.consumed.length) % ringDescriptors
  doorbell : e.doorbell = (base + given.length) % ringDescriptors
  holds : Holds e.ring ringDescriptors (base + e.consumed.length) (given.drop e.consumed.length)
  copies : e.copies = asked.take ((e.performed.length + 3) / 4)
  host : (e.words host).toNat ≤ (e.performed.length + 2) / 4
  card : (e.words card).toNat ≤ (e.performed.length + 2) / 4

section engine

variable {base : Nat} {given : List Descriptor} {asked : List Copy} {host card : W64} {e : Engine}

theorem Engine.Ok.length_le (h : e.Ok base given asked host card) :
    e.performed.length ≤ e.consumed.length ∧ e.consumed.length ≤ given.length := by
  refine ⟨?_, h.consumed.length_le⟩
  unfold Engine.consumed
  rw [List.length_append]
  omega

/-- The next descriptor comes from the tail. -/
theorem Engine.Ok.fetch (h : e.Ok base given asked host card) :
    (e.step .fetch).Ok base given asked host card := by
  unfold Engine.step
  dsimp only
  split
  · exact h
  · next hne =>
      have hlt : e.consumed.length < given.length := by
        rcases Nat.lt_or_ge e.consumed.length given.length with hlt | hge
        · exact hlt
        · exact absurd (by rw [h.tail, h.doorbell, Nat.le_antisymm h.length_le.2 hge]) hne
      have hget : e.ring e.tail = given[e.consumed.length] := by
        have hslot := h.holds 0 (by rw [List.length_drop]; omega)
        rw [Nat.add_zero, ← h.tail, List.getElem_drop] at hslot
        exact hslot
      have hnext : e.consumed ++ [e.ring e.tail] = given.take (e.consumed.length + 1) := by
        rw [hget, List.take_add_one, List.getElem?_eq_getElem hlt,
          ← List.prefix_iff_eq_take.mp h.consumed]
        rfl
      have hassoc : e.performed ++ (e.fetched ++ [e.ring e.tail]) =
          e.consumed ++ [e.ring e.tail] := (List.append_assoc ..).symm
      have hlen : (e.performed ++ (e.fetched ++ [e.ring e.tail])).length =
          e.consumed.length + 1 := by
        rw [hassoc, List.length_append]
        rfl
      refine ⟨?_, ?_, h.doorbell, ?_, h.copies, h.host, h.card⟩
      · show e.performed ++ (e.fetched ++ [e.ring e.tail]) <+: given
        rw [hassoc, hnext]
        exact List.take_prefix _ _
      · show (e.tail + 1) % ringDescriptors =
          (base + (e.performed ++ (e.fetched ++ [e.ring e.tail])).length) % ringDescriptors
        rw [hlen, h.tail, Nat.mod_add_mod, Nat.add_assoc]
      · show Holds e.ring ringDescriptors
          (base + (e.performed ++ (e.fetched ++ [e.ring e.tail])).length)
          (given.drop (e.performed ++ (e.fetched ++ [e.ring e.tail])).length)
        have hdrop := h.holds.drop (n := 1)
        rw [List.drop_drop] at hdrop
        rw [hlen, ← Nat.add_assoc]
        exact hdrop

/-- Performing the descriptor at position `p` leaves no word ahead. -/
theorem wordsAfter_le (hb : Blocks given asked) {p : Nat} {d : Descriptor}
    (hd : given[p]? = some d) {words : W64 → W64} {a : W64}
    (h : (words a).toNat ≤ (p + 2) / 4) :
    (Engine.wordsAfter words d a).toNat ≤ (p + 1 + 2) / 4 := by
  obtain ⟨c, -, hkind⟩ := hb.at hd
  unfold Engine.wordsAfter
  split
  · next hstatus =>
      obtain ⟨-, -, hne⟩ | ⟨hr, -, hseq⟩ | ⟨-, -, hne⟩ := hkind
      · exact absurd hstatus hne
      · dsimp only
        split
        · have hle : (BitVec.ofNat 64 (p / 4 + 1)).toNat ≤ p / 4 + 1 := by
            rw [BitVec.toNat_ofNat]
            exact Nat.mod_le _ _
          rw [hseq]
          omega
        · omega
      · exact absurd hstatus hne
  · omega

/-- A descriptor performed is the next of those given. -/
theorem Engine.Ok.perform (hb : Blocks given asked) (h : e.Ok base given asked host card) :
    (e.step .perform).Ok base given asked host card := by
  unfold Engine.step
  dsimp only
  split
  · exact h
  · next d ds hds =>
      have hassoc : e.performed ++ [d] ++ ds = e.consumed := by
        unfold Engine.consumed
        rw [hds, List.append_assoc]
        rfl
      have hget : given[e.performed.length]? = some d := by
        obtain ⟨rest, hrest⟩ := h.consumed
        rw [← hrest, ← hassoc, List.append_assoc, List.append_assoc,
          List.getElem?_append_right (Nat.le_refl _), Nat.sub_self]
        rfl
      obtain ⟨c, hc, hkind⟩ := hb.at hget
      have hlen : (e.performed ++ [d]).length = e.performed.length + 1 := by simp
      refine ⟨?_, ?_, h.doorbell, ?_, ?_, ?_, ?_⟩
      · show e.performed ++ [d] ++ ds <+: given
        rw [hassoc]
        exact h.consumed
      · show e.tail = (base + (e.performed ++ [d] ++ ds).length) % ringDescriptors
        rw [hassoc]
        exact h.tail
      · show Holds e.ring ringDescriptors (base + (e.performed ++ [d] ++ ds).length)
          (given.drop (e.performed ++ [d] ++ ds).length)
        rw [hassoc]
        exact h.holds
      · show (e.performed ++ [d]).filterMap Descriptor.copy? = asked.take _
        have hcopies : e.performed.filterMap Descriptor.copy? = _ := h.copies
        rw [List.filterMap_append, hcopies, hlen]
        obtain ⟨hr, hsome, -⟩ | ⟨hr, hnone, -⟩ | ⟨hr, hnone, -⟩ := hkind
        · have hcount : (e.performed.length + 3) / 4 = e.performed.length / 4 := by omega
          have hcount' : (e.performed.length + 1 + 3) / 4 = e.performed.length / 4 + 1 := by omega
          rw [hcount, hcount', List.take_add_one, hc]
          simp [hsome]
        · have hcount : (e.performed.length + 1 + 3) / 4 = (e.performed.length + 3) / 4 := by omega
          rw [hcount]
          simp [hnone]
        · have hcount : (e.performed.length + 1 + 3) / 4 = (e.performed.length + 3) / 4 := by omega
          rw [hcount]
          simp [hnone]
      · rw [hlen]
        exact wordsAfter_le hb hget h.host
      · rw [hlen]
        exact wordsAfter_le hb hget h.card

theorem Engine.Ok.step (hb : Blocks given asked) (h : e.Ok base given asked host card)
    (s : EngineStep) : (e.step s).Ok base given asked host card := by
  cases s with
  | fetch => exact h.fetch
  | perform => exact h.perform hb

theorem Engine.Ok.run (hb : Blocks given asked) (h : e.Ok base given asked host card)
    (p : List EngineStep) : (run Engine.step e p).Ok base given asked host card :=
  run_inv_all (fun _ s h => h.step hb s) h p

/-- The engine leaves the ring and the doorbell alone, and only goes on. -/
structure Engine.Goes (e e' : Engine) : Prop where
  ring : e'.ring = e.ring
  consumed : e.consumed.length ≤ e'.consumed.length
  performed : e.performed.length ≤ e'.performed.length

theorem Engine.goes_step (e : Engine) (s : EngineStep) : e.Goes (e.step s) := by
  cases s with
  | fetch =>
      unfold Engine.step
      dsimp only
      split
      · exact ⟨rfl, Nat.le_refl _, Nat.le_refl _⟩
      · refine ⟨rfl, ?_, Nat.le_refl _⟩
        unfold Engine.consumed
        simp only [List.length_append]
        omega
  | perform =>
      unfold Engine.step
      dsimp only
      split
      · exact ⟨rfl, Nat.le_refl _, Nat.le_refl _⟩
      · next d ds hds =>
          refine ⟨rfl, ?_, ?_⟩
          · unfold Engine.consumed
            rw [hds]
            simp only [List.length_append, List.length_cons, List.length_nil]
            omega
          · simp

theorem Engine.goes_run (e : Engine) (p : List EngineStep) : e.Goes (Phi.run Engine.step e p) := by
  induction p generalizing e with
  | nil => exact ⟨rfl, Nat.le_refl _, Nat.le_refl _⟩
  | cons s p ih =>
      obtain ⟨hring, hconsumed, hperformed⟩ := e.goes_step s
      obtain ⟨hring', hconsumed', hperformed'⟩ := ih (e.step s)
      exact ⟨hring'.trans hring, Nat.le_trans hconsumed hconsumed',
        Nat.le_trans hperformed hperformed'⟩

end engine

/-! ## the invariant -/

/-- The engine keeps in step with what was given to it, and the host's counts
with what the engine did. -/
structure Machine.Ok (m : Machine) : Prop where
  blocks : Blocks m.given m.asked
  engine : m.engine.Ok m.base m.given m.asked (m.chan.hostSlot &&& busMask)
    (m.chan.statusCard &&& busMask)
  head : m.chan.head = (m.base + m.given.length) % ringDescriptors
  aligned : m.base % 4 = 0
  submitted : m.chan.submitted = BitVec.ofNat 64 m.asked.length
  completed : m.chan.completed.toNat ≤ (m.engine.performed.length + 2) / 4
  window : m.asked.length ≤ m.chan.completed.toNat + maxInFlight

section machine

variable {m m' : Machine}

/-- No more copies are complete than were submitted. -/
theorem Machine.Ok.completed_le (h : m.Ok) : m.chan.completed.toNat ≤ m.asked.length := by
  have hle := h.completed
  have hlen := h.engine.length_le
  rw [h.blocks.length] at hlen
  omega

/-- What the host takes to be in flight is. -/
theorem Machine.Ok.inFlight (h : m.Ok) :
    m.chan.inFlight.toNat = m.asked.length - m.chan.completed.toNat := by
  have hwindow := h.window
  have hlt : m.asked.length - m.chan.completed.toNat < 2 ^ 64 := by
    unfold maxInFlight at hwindow
    omega
  have hword : m.chan.completed = BitVec.ofNat 64 m.chan.completed.toNat := by
    rw [BitVec.ofNat_toNat, BitVec.setWidth_eq]
  have hdiff := Modular.toNat_ofNat_sub 64 h.completed_le hlt
  unfold Channel.inFlight
  rw [h.submitted]
  rw [← hword] at hdiff
  exact hdiff

theorem Machine.Ok.advance (h : m.Ok) (p : List EngineStep) : (m.advance p).Ok where
  blocks := h.blocks
  engine := h.engine.run h.blocks p
  head := h.head
  aligned := h.aligned
  submitted := h.submitted
  completed := by
    have hgoes := (m.engine.goes_run p).performed
    have hle := h.completed
    show m.chan.completed.toNat ≤ ((run Engine.step m.engine p).performed.length + 2) / 4
    omega
  window := h.window

/-- A look changes only the counts, and reports what is complete. -/
theorem Machine.Ok.dmaPoll (h : m.Ok) {l : Look} {res : Option W64}
    (hp : m.dmaPoll l = (m', res)) :
    m'.Ok ∧ m'.asked = m.asked ∧ ∀ done, res = some done → done = m'.chan.completed := by
  unfold Machine.dmaPoll at hp
  dsimp only at hp
  split at hp
  · cases hp
    exact ⟨⟨h.blocks, h.engine, h.head, h.aligned, h.submitted, h.completed, h.window⟩, rfl,
      by simp⟩
  · have hadv := h.advance l.between
    generalize hword : (if m.chan.pending ≤ m.engine.words (m.chan.hostSlot &&& busMask) ∨
      (m.advance l.between).engine.words (m.chan.statusCard &&& busMask) ≤
        m.engine.words (m.chan.hostSlot &&& busMask) then
      m.engine.words (m.chan.hostSlot &&& busMask)
      else (m.advance l.between).engine.words (m.chan.statusCard &&& busMask)) = word at hp
    have hle : word.toNat ≤ ((m.advance l.between).engine.performed.length + 2) / 4 := by
      have hgoes : m.engine.performed.length ≤ (m.advance l.between).engine.performed.length :=
        (m.engine.goes_run l.between).performed
      have hhost := h.engine.host
      have hcard : ((m.advance l.between).engine.words (m.chan.statusCard &&& busMask)).toNat ≤ _ :=
        hadv.engine.card
      rw [← hword]
      split
      · omega
      · exact hcard
    split at hp
    · cases hp
      exact ⟨hadv, rfl, by simp⟩
    · split at hp
      · split at hp
        · cases hp
          exact ⟨hadv, rfl, by simp⟩
        · cases hp
          exact ⟨hadv, rfl, by simp [Machine.advance]⟩
      · next hnew =>
          cases hp
          have hlt : m.chan.completed.toNat < word.toNat := by
            rw [BitVec.le_def] at hnew
            omega
          have hwindow := h.window
          refine ⟨⟨h.blocks, hadv.engine, h.head, h.aligned, h.submitted, hle, ?_⟩, rfl, by simp⟩
          show m.asked.length ≤ word.toNat + maxInFlight
          omega

theorem Machine.Ok.waitRoom {waits : List (Look × List EngineStep)} (h : m.Ok) {ok : Bool}
    (hw : waitRoom waits m = some (m', ok)) :
    m'.Ok ∧ m'.asked = m.asked ∧ (ok = true → m'.chan.inFlight.toNat < maxInFlight) := by
  induction waits generalizing m with
  | nil =>
      unfold Machine.waitRoom at hw
      split at hw
      · next hroom =>
          cases hw
          exact ⟨h, rfl, fun _ => hroom⟩
      · cases hw
  | cons w waits ih =>
      unfold Machine.waitRoom at hw
      split at hw
      · next hroom =>
          cases hw
          exact ⟨h, rfl, fun _ => hroom⟩
      · split at hw
        · next hp =>
            cases hw
            obtain ⟨hok, hasked, -⟩ := h.dmaPoll hp
            exact ⟨hok, hasked, by simp⟩
        · next hp =>
            obtain ⟨hok, hasked, -⟩ := h.dmaPoll hp
            split at hw
            · cases hw
              exact ⟨hok, hasked, by simp⟩
            · obtain ⟨hok', hasked', hroom⟩ := ih (hok.advance w.2) hw
              exact ⟨hok', hasked'.trans hasked, hroom⟩

/-- With room for a copy, the cells at the head are free: of what was given, at
most two descriptors behind a finished copy are not known to be consumed. -/
theorem Machine.Ok.headFree (h : m.Ok) (hroom : m.chan.inFlight.toNat < maxInFlight) :
    m.HeadFree := by
  have hin := h.inFlight
  have hle := h.completed
  have hbound := h.completed_le
  have hgiven := h.blocks.length
  have hperf := h.engine.length_le.1
  have hal := h.aligned
  unfold maxInFlight at hroom
  refine ⟨?_, fun r hr k hk hk' heq => ?_⟩
  · rw [h.head]
    unfold ringDescriptors
    omega
  · have hlt : m.base + m.given.length + r < m.base + k + ringDescriptors := by
      unfold ringDescriptors
      omega
    have hne := mod_ne_of_lt (by omega) hlt
    have hcell : (m.base + m.given.length + r) % ringDescriptors = m.chan.head + r := by
      rw [h.head]
      unfold ringDescriptors
      omega
    exact hne (heq.symm.trans hcell.symm)

/-- The ring after the descriptors were written still holds what was not
consumed, and then the new ones. -/
theorem Machine.Ok.holds_written (h : m.Ok) (hroom : m.chan.inFlight.toNat < maxInFlight)
    {ds : List Descriptor} (hds : ds.length = 4) :
    Holds (write m.engine.ring m.chan.head ds) ringDescriptors
      (m.base + m.engine.consumed.length) ((m.given ++ ds).drop m.engine.consumed.length) := by
  have hin := h.inFlight
  have hle := h.completed
  have hgiven := h.blocks.length
  obtain ⟨hperf, hcons⟩ := h.engine.length_le
  have hal := h.aligned
  have hstart : (m.base + m.engine.consumed.length +
      (m.given.drop m.engine.consumed.length).length) = m.base + m.given.length := by
    rw [List.length_drop]
    omega
  have hedge : (m.base + m.given.length) % ringDescriptors + ds.length ≤ ringDescriptors := by
    unfold ringDescriptors
    omega
  unfold maxInFlight at hroom
  rw [h.head, write_eq_writeWrap _ hedge, ← hstart, List.drop_append_of_le_length hcons]
  refine h.engine.holds.writeWrap ?_
  rw [List.length_drop]
  unfold ringDescriptors
  omega

/-- A copy put into the ring. -/
theorem Machine.Ok.putCopy (h : m.Ok) (hroom : m.chan.inFlight.toNat < maxInFlight)
    (mid : List EngineStep) (now : W64) {src dst : W64} {len : Nat}
    (hgran : granular src dst len = true) : (m.putCopy mid now src dst len).Ok := by
  have hin := h.inFlight
  have hfour :
      (block src dst len (m.chan.submitted + 1#64) (m.chan.statusAddr dst)).length = 4 := rfl
  have hwritten := h.holds_written hroom hfour
  have hblocks := h.blocks.append hgran (m.chan.statusAddr dst)
  rw [BitVec.ofNat_add, ← h.submitted] at hblocks
  -- the engine goes on with the old doorbell while the descriptors are written
  generalize hring : write m.engine.ring m.chan.head
    (block src dst len (m.chan.submitted + 1#64) (m.chan.statusAddr dst)) = ring at hwritten
  have hbefore : ({ m.engine with ring := ring } : Engine).Ok m.base m.given m.asked
      (m.chan.hostSlot &&& busMask) (m.chan.statusCard &&& busMask) := by
    obtain ⟨hconsumed, htail, hbell, -, hcopies, hhost, hcard⟩ := h.engine
    refine ⟨hconsumed, htail, hbell, ?_, hcopies, hhost, hcard⟩
    rw [List.drop_append_of_le_length h.engine.length_le.2] at hwritten
    exact hwritten.left
  have hmid := hbefore.run h.blocks mid
  have hgoes := Engine.goes_run { m.engine with ring := ring } mid
  unfold Machine.putCopy
  dsimp only
  rw [hring]
  generalize run Engine.step { m.engine with ring := ring } mid = e at hmid hgoes
  obtain ⟨hperf, hcons⟩ := hmid.length_le
  have hgiven := h.blocks.length
  have hhead : (m.chan.head + 4) % ringDescriptors =
      (m.base + (m.given ++ block src dst len (m.chan.submitted + 1#64)
        (m.chan.statusAddr dst)).length) % ringDescriptors := by
    rw [h.head, Nat.mod_add_mod, List.length_append, Nat.add_assoc]
    rfl
  refine ⟨hblocks, ?_, hhead, h.aligned, ?_, ?_, ?_⟩
  · refine ⟨hmid.consumed.trans (List.prefix_append _ _), hmid.tail, hhead, ?_, ?_, hmid.host,
      hmid.card⟩
    · have hlater := hwritten.drop (n := e.consumed.length - m.engine.consumed.length)
      have hgo : m.engine.consumed.length ≤ e.consumed.length := hgoes.consumed
      have hsum : m.engine.consumed.length + (e.consumed.length - m.engine.consumed.length) =
          e.consumed.length := by omega
      rw [List.drop_drop, Nat.add_assoc, hsum] at hlater
      show Holds e.ring _ _ _
      rw [hgoes.ring]
      exact hlater
    · show e.copies = (m.asked ++ [_]).take ((e.performed.length + 3) / 4)
      rw [hmid.copies, List.take_append_of_le_length (by omega)]
  · show m.chan.submitted + 1#64 = BitVec.ofNat 64 (m.asked ++ [_]).length
    rw [h.submitted, List.length_append, BitVec.ofNat_add]
    rfl
  · have hgo : m.engine.performed.length ≤ e.performed.length := hgoes.performed
    have hle := h.completed
    show m.chan.completed.toNat ≤ (e.performed.length + 2) / 4
    omega
  · show (m.asked ++ [_]).length ≤ m.chan.completed.toNat + maxInFlight
    have hbound := h.completed_le
    rw [List.length_append, List.length_singleton]
    omega

/-- What a submission that returned did. -/
theorem Machine.Ok.dmaSubmit (h : m.Ok) {waits : List (Look × List EngineStep)}
    {mid : List EngineStep} {now src dst seq : W64} {len : Nat}
    (hs : m.dmaSubmit waits mid now src dst len = some (m', seq)) :
    m'.Ok ∧ (m'.asked = m.asked ∨
      m'.asked = m.asked ++ [⟨src &&& busMask, dst &&& busMask, len⟩] ∧
        seq = BitVec.ofNat 64 m'.asked.length) := by
  unfold Machine.dmaSubmit at hs
  split at hs
  · cases hs
    exact ⟨h, .inl rfl⟩
  · next hgran =>
      split at hs
      · cases hs
      · next hw =>
          cases hs
          obtain ⟨hok, hasked, -⟩ := h.waitRoom hw
          exact ⟨hok, .inl hasked⟩
      · next m1 hw =>
          cases hs
          obtain ⟨hok, hasked, hroom⟩ := h.waitRoom hw
          have hput := hok.putCopy (hroom rfl) mid now (by simpa using hgran)
          refine ⟨hput, .inr ⟨?_, hput.submitted⟩⟩
          show m1.asked ++ [_] = _
          rw [hasked]

theorem Machine.Ok.step (h : m.Ok) (e : MachineEvent) : (m.step e).Ok := by
  cases e with
  | engine s => exact h.advance [s]
  | poll l => exact (h.dmaPoll rfl).1
  | submit waits mid now src dst len =>
      unfold Machine.step
      dsimp only
      split
      · exact h
      · next hs => exact (h.dmaSubmit hs).1

/-- The copies that are complete have been made. -/
theorem Machine.Ok.done (h : m.Ok) : m.Done m.chan.completed := by
  refine ⟨h.completed_le, ?_⟩
  have hle := h.completed
  rw [h.engine.copies]
  exact List.take_prefix_take_left (by omega)

theorem Machine.Ok.safe (h : m.Ok) (e : MachineEvent) : m.Safe e := by
  cases e with
  | engine s => trivial
  | poll l =>
      intro done hdone
      obtain ⟨hok, -, hres⟩ := h.dmaPoll (rfl : m.dmaPoll l = ((m.dmaPoll l).1, (m.dmaPoll l).2))
      rw [hres done hdone]
      exact hok.done
  | submit waits mid now src dst len =>
      refine ⟨fun m1 hw => ?_, fun m1 seq hs hne => ?_⟩
      · obtain ⟨hok, -, hroom⟩ := h.waitRoom hw
        exact hok.headFree (hroom rfl)
      · obtain ⟨-, hsame | hnew⟩ := h.dmaSubmit hs
        · exact absurd hsame hne
        · exact hnew

end machine

theorem Machine.ok_dmaOpen (ringCard statusCard : W64) (tail : Nat) (now : W64)
    (ring : Nat → Descriptor) (words : W64 → W64) :
    (Machine.dmaOpen ringCard statusCard tail now ring words).Ok where
  blocks := blocks_nil
  engine := by
    refine ⟨List.prefix_refl _, ?_, ?_, holds_nil _ _ _, List.take_nil.symm, ?_, ?_⟩
    · exact (Nat.mod_mod _ _).symm
    · exact (Nat.mod_mod _ _).symm
    · simp [Machine.dmaOpen, Channel.hostSlot]
    · simp [Machine.dmaOpen]
  head := (Nat.mod_mod _ _).symm
  aligned := by
    show (tail + 3) / 4 * 4 % ringDescriptors % 4 = 0
    unfold ringDescriptors
    omega
  submitted := rfl
  completed := Nat.zero_le _
  window := Nat.zero_le _

/-- **The descriptor ring is safe**: however the engine goes on, every
submission writes over consumed descriptors only, every number reported is of
copies that were made, and the engine consumes what was submitted, in order. -/
theorem ring_safe (ringCard statusCard : W64) (tail : Nat) (now : W64) (ring : Nat → Descriptor)
    (words : W64 → W64) (es : List MachineEvent) :
    Along Machine.step Machine.Safe (.dmaOpen ringCard statusCard tail now ring words) es ∧
      (run Machine.step (.dmaOpen ringCard statusCard tail now ring words) es).engine.consumed <+:
        (run Machine.step (.dmaOpen ringCard statusCard tail now ring words) es).given := by
  have hopen := Machine.ok_dmaOpen ringCard statusCard tail now ring words
  constructor
  · refine along_of_inv (fun m e (h : m.Ok) => ⟨h.safe e, h.step e⟩) es hopen
  · exact (run_inv_all (fun m e (h : m.Ok) => h.step e) hopen es).engine.consumed

/-! ## the counts -/

/-- The counts a channel's words stand for. -/
def Channel.counts (c : Channel) : Chan :=
  ⟨c.submitted.toNat, c.completed.toNat, c.pending.toNat, c.progress⟩

/-- What a look at the engine reads. -/
def Machine.reading (l : Look) (m : Machine) : Reading where
  hostWord := (m.engine.words (m.chan.hostSlot &&& busMask)).toNat
  cardWord := ((m.advance l.between).engine.words (m.chan.statusCard &&& busMask)).toNat
  now := l.now

/-- A look at the engine is one at the counts, as long as no more is complete
than was submitted. -/
theorem Machine.counts_dmaPoll (l : Look) {m : Machine}
    (h : m.chan.completed.toNat ≤ m.chan.submitted.toNat) :
    ((m.dmaPoll l).1.chan.counts, (m.dmaPoll l).2.map BitVec.toNat) =
      Disk.dmaPoll (m.reading l) m.chan.counts := by
  have hfly : m.chan.inFlight.toNat = m.chan.counts.inFlight := by
    have hle : m.chan.completed ≤ m.chan.submitted := h
    exact BitVec.toNat_sub_of_le hle
  have hidle : m.chan.inFlight = 0#64 ↔ m.chan.counts.inFlight = 0 := by
    rw [← hfly, ← BitVec.toNat_inj]
    rfl
  unfold Machine.dmaPoll Disk.dmaPoll
  dsimp only
  by_cases h0 : m.chan.inFlight = 0#64
  · rw [if_pos h0, if_pos (hidle.mp h0)]
    rfl
  · rw [if_neg h0, if_neg fun hc => h0 (hidle.mpr hc)]
    generalize hword : (if m.chan.pending ≤ m.engine.words (m.chan.hostSlot &&& busMask) ∨
      (m.advance l.between).engine.words (m.chan.statusCard &&& busMask) ≤
        m.engine.words (m.chan.hostSlot &&& busMask) then
      m.engine.words (m.chan.hostSlot &&& busMask)
      else (m.advance l.between).engine.words (m.chan.statusCard &&& busMask)) = word
    have hcount : (if m.chan.counts.pending ≤ (m.reading l).hostWord ∨
        (m.reading l).cardWord ≤ (m.reading l).hostWord then (m.reading l).hostWord
        else (m.reading l).cardWord) = word.toNat := by
      rw [← hword, apply_ite BitVec.toNat]
      rfl
    rw [hcount]
    by_cases hahead : m.chan.submitted < word
    · rw [if_pos hahead, if_pos (show m.chan.counts.submitted < word.toNat from hahead)]
      rfl
    · rw [if_neg hahead, if_neg (show ¬ m.chan.counts.submitted < word.toNat from hahead)]
      by_cases hold : word ≤ m.chan.completed
      · rw [if_pos hold, if_pos (show word.toNat ≤ m.chan.counts.completed from hold)]
        show _ = if copyTimeoutMs < (l.now - m.chan.progress).toNat then _ else _
        split
        · rfl
        · rfl
      · rw [if_neg hold, if_neg (show ¬ word.toNat ≤ m.chan.counts.completed from hold)]
        have hpending : (if word < m.chan.pending then m.chan.pending else 0#64).toNat =
            if word.toNat < m.chan.counts.pending then m.chan.counts.pending else 0 := by
          rw [apply_ite BitVec.toNat]
          rfl
        unfold Channel.counts at hpending ⊢
        dsimp only at hpending ⊢
        rw [hpending]
        rfl

/-- A submission is one of the counts, as long as they fit their words. -/
theorem Channel.counts_put (now dst : W64) {c : Channel}
    (h : c.completed.toNat ≤ c.submitted.toNat) (hfit : c.submitted.toNat + 1 < 2 ^ 64) :
    (c.put now dst).counts = { c.counts with
      progress := if c.counts.inFlight = 0 then now else c.progress
      submitted := c.counts.submitted + 1
      pending := if dst.toNat < smptBase then c.counts.submitted + 1 else c.counts.pending } := by
  have hseq : (c.submitted + 1#64).toNat = c.submitted.toNat + 1 := by
    rw [BitVec.toNat_add]
    exact Nat.mod_eq_of_lt hfit
  have hidle : c.inFlight = 0#64 ↔ c.counts.inFlight = 0 := by
    have hfly : c.inFlight.toNat = c.counts.inFlight :=
      BitVec.toNat_sub_of_le (show c.completed ≤ c.submitted from h)
    rw [← hfly, ← BitVec.toNat_inj]
    rfl
  unfold Channel.put Channel.counts at *
  dsimp only
  rw [apply_ite BitVec.toNat, hseq]
  simp only [hidle]

end Phi.Disk
