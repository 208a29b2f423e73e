import Mathlib.Data.List.Find
import Phi.Ring.Layout

/-!
# Phi.Dev.Attach

How the card's console finds its ring (`knc_earlycon.c`): the search of the
region header for the console channel and the look at the ring's own header.

Both go by words that nobody writes once the region is formatted, so a search
through another mapping, at any later time, comes to the same ring.
-/

namespace Phi.Dev.Console

open Ring

/-! ## knc_find_console -/

def channelConsole : W32 := 1#32
def maxConSize : W32 := 0x20000#32

/-- The rings of the console channel. -/
structure Ends where
  h2c : W32
  h2cSize : W32
  c2h : W32
  c2hSize : W32
deriving DecidableEq, Repr

/-- The words of the descriptor. -/
def endsAt (m : Memory) (i : Nat) : Ends :=
  let d := descOffset i
  ⟨rmRead32 m (d + 8), rmRead32 m (d + 12), rmRead32 m (d + 16), rmRead32 m (d + 20)⟩

/-- A size, not checked against zero, that is a power of two. -/
def isPow2 (size : W32) : Bool := size &&& (size - 1#32) = 0#32

/-- The checks on the descriptor: the card-to-host ring must be there and
small, the other one may be missing. -/
def Ends.fit (e : Ends) (regionSize : Nat) : Bool :=
  e.c2hSize ≠ 0#32 && isPow2 e.c2hSize && e.c2hSize ≤ maxConSize &&
    e.c2h.toNat + ringHdrSize + e.c2hSize.toNat ≤ regionSize &&
    (e.h2cSize = 0#32 || isPow2 e.h2cSize &&
      e.h2c.toNat + ringHdrSize + e.h2cSize.toNat ≤ regionSize)

/-- The index of the first descriptor of the console. -/
def consoleDesc (m : Memory) : Option Nat :=
  (List.range (channelCount m)).find? fun i => rmRead32 m (descOffset i) = channelConsole

/-- `knc_find_console`. -/
def findConsole (m : Memory) (regionSize : Nat) : Option Ends :=
  if rmRead32 m 0 = regionMagic ∧ rmRead32 m 4 = ringVersion ∧ channelCount m ≤ 16 then
    match consoleDesc m with
    | some i => if (endsAt m i).fit regionSize then some (endsAt m i) else none
    | none => none
  else none

/-- `knc_ring_ok`. -/
def ringOk (m : Memory) (off : Nat) (size : W32) : Bool :=
  rmRead32 m off = ringMagic && rmRead32 m (off + 4) = size

/-! ## what they go by -/

theorem rmRead32_congr {m m' : Memory} {a : Nat} (h : ∀ k < 4, m' (a + k) = m (a + k)) :
    rmRead32 m' a = rmRead32 m a := by
  have h0 := h 0 (by decide)
  rw [Nat.add_zero] at h0
  simp [rmRead32, h0, h 1, h 2, h 3]

/-- The byte is in the header or the channel table, and not in the boot flags
that the card writes. -/
def InTable (m : Memory) (a : Nat) : Prop := a < descOffset (channelCount m) ∧ (a < 24 ∨ 32 ≤ a)

instance (m : Memory) (a : Nat) : Decidable (InTable m a) := inferInstanceAs (Decidable (_ ∧ _))

section congr

variable {m m' : Memory} (h : ∀ a, InTable m a → m' a = m a)

include h

theorem read_header {a : Nat} (ha : a + 4 ≤ 24) : rmRead32 m' a = rmRead32 m a :=
  rmRead32_congr fun k hk => h _ ⟨by simp only [descOffset, regionHdrSize]; omega, by omega⟩

theorem channelCount_congr : channelCount m' = channelCount m := by
  rw [channelCount, channelCount, read_header h (by decide)]

theorem read_desc {i o : Nat} (hi : i < channelCount m) (ho : o + 4 ≤ 64) :
    rmRead32 m' (descOffset i + o) = rmRead32 m (descOffset i + o) := by
  have hd := descOffset_add_le hi
  have h32 : 64 ≤ descOffset i := Nat.le_add_right _ _
  exact rmRead32_congr fun k hk => h _ ⟨by omega, by omega⟩

/-- The search comes to the same whatever else changed. -/
theorem findConsole_congr (regionSize : Nat) :
    findConsole m' regionSize = findConsole m regionSize := by
  have hkind : ∀ i ∈ List.range (channelCount m), rmRead32 m' (descOffset i) =
      rmRead32 m (descOffset i) := fun i hi => by
    have := read_desc (o := 0) h (List.mem_range.mp hi) (by decide)
    rwa [Nat.add_zero] at this
  have hdesc : consoleDesc m' = consoleDesc m := by
    rw [consoleDesc, consoleDesc, channelCount_congr h]
    exact List.find?_congr fun i hi => by rw [hkind i hi]
  rw [findConsole, findConsole, read_header h (by decide), read_header h (by decide),
    channelCount_congr h, hdesc]
  cases hc : consoleDesc m with
  | none => rfl
  | some i =>
      have hi : i < channelCount m := List.mem_range.mp (List.mem_of_find?_eq_some hc)
      have hends : endsAt m' i = endsAt m i := by
        simp only [endsAt, read_desc h hi (show 8 + 4 ≤ 64 by decide),
          read_desc h hi (show 12 + 4 ≤ 64 by decide), read_desc h hi (show 16 + 4 ≤ 64 by decide),
          read_desc h hi (show 20 + 4 ≤ 64 by decide)]
      simp only [hends]

end congr

/-! ## in a formatted region -/

/-- The console's ring lies behind the channel table, is of a power of two and
still empty. -/
structure Fresh (m : Memory) (e : Ends) : Prop where
  behind : descOffset (channelCount m) ≤ e.c2h.toNat
  pow : IsPow e.c2hSize
  ring : RingAt m e.c2h.toNat e.c2hSize

theorem fresh_of_format {p : Plan} {regionSize stop : Nat} {info : HostInfo} {m : Memory}
    (hsize : regionSize < 2 ^ 32) (h : regionFormat p regionSize info = some (stop, m)) {e : Ends}
    (he : findConsole m regionSize = some e) : Fresh m e := by
  have hfit := planEnd_le_of_format h
  obtain ⟨m', hm', hf⟩ := regionFormat_eq_some info hfit
  obtain rfl : m = m' := congrArg Prod.snd (Option.some.inj (h.symm.trans hm'))
  unfold findConsole at he
  split at he
  · cases hc : consoleDesc m with
    | none => simp [hc] at he
    | some i =>
        have hi : i < p.entries.length := by
          rw [← hf.channelCount]
          exact List.mem_range.mp (List.mem_of_find?_eq_some hc)
        obtain ⟨q, hq, hqi⟩ := exists_placed hi
        have hr := hf.rings hqi
        have hends : e = endsAt m i := by
          rw [hc] at he
          dsimp only at he
          split at he
          · exact (Option.some.inj he).symm
          · cases he
        obtain ⟨hlow, hmid, hhigh⟩ := place_rings hq
        have hstop : ringsEnd p.entries p.start ≤ planEnd p := dataEnd_ge _ _
        have hoff : (low q.c2h).toNat = q.c2h := toNat_low (by omega)
        have hc2h : e.c2h = low q.c2h := by rw [hends]; exact hr.c2hOff
        have hc2hSize : e.c2hSize = q.entry.c2h := by rw [hends]; exact hr.c2hSize
        rw [← hoff, ← hc2h, ← hc2hSize] at hhigh
        refine ⟨?_, ?_, ?_⟩
        · have htable := table_le_start p
          rw [hf.channelCount, hc2h, hoff]
          omega
        · rw [hc2hSize]
          exact (layout_wf hq).c2hPow
        · rw [hc2h, hoff, hc2hSize]
          exact hr.c2h
  · cases he

end Phi.Dev.Console
