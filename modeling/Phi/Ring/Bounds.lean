import Mathlib.Data.List.TakeWhile
import Phi.Ring.Region

/-!
# Phi.Ring.Bounds

When every access of the host's ring operations stays in the region it opened.

The scan of `region_open` bounds each ring by the sizes in the channel table,
so the two ways out are the ones it does not look at: more known descriptors
than the host's table has entries, and a ring header whose own size word,
which is the one `endpoints_of` goes by, reaches past the end of the region.
-/

namespace Phi.Ring

/-! ## the condition on the contents -/

/-- The descriptor that `channel_of` finds for a kind: the last one of it. -/
def lastOfKind (m : Memory) (kind : W32) : Option Nat :=
  (List.range (channelCount m)).reverse.find? fun i =>
    knownKind m i && rmRead32 m (descOffset i) = kind

/-- The scan gets past at most as many known descriptors as the host's table
of channels has entries. -/
def TableFits (m : Memory) (mapped : Nat) : Prop :=
  headerOk m mapped = true →
    ((scanned m (recordedSize m) (channelCount m) 0).filter (knownKind m)).length ≤ channelSlots

/-- The size words of the two ring headers, where both are valid, keep the
rings of descriptor `i` inside the region. -/
def HeadersFit (m m' : Memory) (i : Nat) : Prop :=
  ∀ h2cSize c2hSize,
    ringSizeOf m' (channelAt m i).h2c.toNat = some h2cSize →
    ringSizeOf m' (channelAt m i).c2h.toNat = some c2hSize →
    (channelAt m i).h2c.toNat + ringHdrSize + h2cSize.toNat ≤ recordedSize m ∧
      (channelAt m i).c2h.toNat + ringHdrSize + c2hSize.toNat ≤ recordedSize m

/-- Every descriptor of the channel table is unknown to the host or fits. -/
def DescriptorsFit (m : Memory) : Prop :=
  ∀ i < channelCount m, knownKind m i = true → descFits m (recordedSize m) i = true

/-- The contents overrun neither the host's table nor the region. -/
def ContentsFit (m m' : Memory) (mapped : Nat) : Prop :=
  TableFits m mapped ∧
    (headerOk m mapped = true → DescriptorsFit m →
      ∀ kind i, lastOfKind m kind = some i → HeadersFit m m' i)

/-! ## what opening accepts and records -/

/-- Contents are accepted when the header is and every descriptor passes. -/
theorem regionOpen_accepts_iff (m : Memory) (mapped : Nat) :
    (regionOpen m mapped).1 = true ↔ headerOk m mapped = true ∧ DescriptorsFit m := by
  unfold regionOpen DescriptorsFit
  by_cases hh : headerOk m mapped = true
  · rw [if_pos hh, scanChannels_eq]
    simp only [hh, true_and, List.all_eq_true, List.mem_range'_1, descPasses, Bool.or_eq_true,
      Bool.not_eq_true']
    constructor
    · intro h i hi hk
      have hpass := h i (by omega)
      simpa [hk] using hpass
    · intro h i hi
      cases hk : knownKind m i with
      | false => exact .inl rfl
      | true => exact .inr (h i (by omega) hk)
  · rw [if_neg hh]
    simp [hh]

/-- The table overruns its entries only where the scan records too many. -/
theorem regionOpen_length (m : Memory) (mapped : Nat) :
    (regionOpen m mapped).2.length ≤ channelSlots ↔ TableFits m mapped := by
  unfold regionOpen TableFits
  by_cases hh : headerOk m mapped = true
  · rw [if_pos hh, scanChannels_eq]
    simp [hh]
  · rw [if_neg hh]
    simp [hh]

/-- The channels recorded from accepted contents: the known descriptors. -/
theorem regionOpen_channels {m : Memory} {mapped : Nat} (hh : headerOk m mapped = true)
    (hd : DescriptorsFit m) :
    (regionOpen m mapped).2 =
      ((List.range (channelCount m)).filter (knownKind m)).map (channelAt m) := by
  have hall : ∀ i ∈ List.range' 0 (channelCount m),
      descPasses m (recordedSize m) i = true := by
    intro i hi
    rw [List.mem_range'_1] at hi
    cases hk : knownKind m i with
    | false => simp [descPasses, hk]
    | true => simp [descPasses, hd i (by omega) hk]
  unfold regionOpen
  rw [if_pos hh, scanChannels_eq, scanned, List.takeWhile_eq_self_iff.mpr hall,
    List.range_eq_range', List.nil_append]

/-- The channel found for a kind is the one its last descriptor describes. -/
theorem channelOf_eq {m : Memory} {mapped : Nat} (hh : headerOk m mapped = true)
    (hd : DescriptorsFit m) (kind : W32) :
    channelOf (regionOpen m mapped).2 kind = (lastOfKind m kind).map (channelAt m) := by
  unfold channelOf lastOfKind
  rw [regionOpen_channels hh hd, ← List.map_reverse, ← List.filter_reverse, List.find?_map,
    List.find?_filter]
  congr 2
  funext i
  rw [Bool.eq_iff_iff, decide_eq_true_iff, Bool.and_eq_true]
  rfl

/-- A ring header that is taken has a positive size. -/
theorem ringSizeOf_pos {m : Memory} {off : Nat} {size : W32} (h : ringSizeOf m off = some size) :
    0 < size.toNat := by
  simp only [ringSizeOf] at h
  split at h
  · next hc =>
      obtain ⟨_, hne, _⟩ := hc
      have heq := Option.some.inj h
      rw [heq] at hne
      exact Nat.pos_of_ne_zero fun hz => hne (BitVec.eq_of_toNat_eq (by simpa using hz))
  · contradiction

/-- The endpoints found for a kind, through its last descriptor. -/
theorem endpointsOf_eq_some_iff {m m' : Memory} {mapped : Nat} (hh : headerOk m mapped = true)
    (hd : DescriptorsFit m) (kind : W32) (e : Endpoints) :
    endpointsOf m' (regionOpen m mapped).2 kind = some e ↔
      ∃ i, lastOfKind m kind = some i ∧
        e.h2c = (channelAt m i).h2c ∧ e.c2h = (channelAt m i).c2h ∧
        ringSizeOf m' (channelAt m i).h2c.toNat = some e.h2cSize ∧
        ringSizeOf m' (channelAt m i).c2h.toNat = some e.c2hSize := by
  obtain ⟨h2c, h2cSize, c2h, c2hSize⟩ := e
  simp only [endpointsOf, channelOf_eq hh hd, Option.bind_eq_bind, Option.bind_eq_some_iff,
    Option.map_eq_some_iff, Option.pure_def, Option.some.injEq, Endpoints.mk.injEq]
  constructor
  · rintro ⟨_, ⟨i, hi, rfl⟩, s, hs, s', hs', rfl, rfl, rfl, rfl⟩
    exact ⟨i, hi, rfl, rfl, hs, hs'⟩
  · rintro ⟨i, hi, rfl, rfl, hs, hs'⟩
    exact ⟨_, ⟨i, hi, rfl⟩, h2cSize, hs, c2hSize, hs', rfl, rfl, rfl, rfl⟩

/-! ## the bound -/

/-- **Every access stays in the region exactly when the contents fit**: the
host's table of channels is not overrun, and no header of a ring it will use
carries a size that reaches past the end. -/
theorem accessesInside_iff (m m' : Memory) (mapped : Nat) :
    AccessesInside m m' mapped ↔ ContentsFit m m' mapped := by
  unfold AccessesInside ContentsFit
  rw [regionOpen_length, regionOpen_accepts_iff]
  refine and_congr_right fun _ => ?_
  constructor
  · intro h hh hd kind i hi s s' hs hs'
    have he : endpointsOf m' (regionOpen m mapped).2 kind =
        some ⟨(channelAt m i).h2c, s, (channelAt m i).c2h, s'⟩ :=
      (endpointsOf_eq_some_iff hh hd kind _).mpr ⟨i, hi, rfl, rfl, hs, hs'⟩
    have hsafe := h ⟨hh, hd⟩ kind _ he
    exact (endpoints_safe_iff _ (ringSizeOf_pos hs) (ringSizeOf_pos hs')).mp hsafe
  · rintro h ⟨hh, hd⟩ kind e he
    obtain ⟨i, hi, hh2c, hc2h, hs, hs'⟩ := (endpointsOf_eq_some_iff hh hd kind e).mp he
    have hfit := h hh hd kind i hi _ _ hs hs'
    rw [← hh2c, ← hc2h] at hfit
    exact (endpoints_safe_iff _ (ringSizeOf_pos hs) (ringSizeOf_pos hs')).mpr hfit

/-! ## contents that break the bound -/

/-- A region of 4096 bytes with one rpc channel of two 64-byte rings, the
header of the first of which claims 64 KiB. -/
def oversizedHeader : Memory := Memory.ofWords [
  (0, regionMagic), (4, ringVersion), (8, 4096#32), (12, 1#32),
  (64, 3#32), (72, 128#32), (76, 64#32), (80, 512#32), (84, 64#32),
  (128, ringMagic), (132, 65536#32), (512, ringMagic), (516, 64#32)]

/-- A region of 4096 bytes whose table lists eleven rpc channels. -/
def elevenChannels : Memory := Memory.ofWords <|
  [(0, regionMagic), (4, ringVersion), (8, 4096#32), (12, 11#32)] ++
    (List.range 11).flatMap fun i =>
      [(descOffset i, 3#32), (descOffset i + 8, 1024#32), (descOffset i + 12, 64#32),
        (descOffset i + 16, 1536#32), (descOffset i + 20, 64#32)]

/-- Both contents are accepted; the first lets a push write 65536 bytes past
offset 320 of a 4096-byte region, the second fills eleven entries of ten. -/
theorem accesses_escape :
    ¬ AccessesInside oversizedHeader oversizedHeader 4096 ∧
      ¬ AccessesInside elevenChannels elevenChannels 4096 := by
  constructor
  · rintro ⟨_, h⟩
    have hopen : (regionOpen oversizedHeader 4096).1 = true := by decide
    have hend : endpointsOf oversizedHeader (regionOpen oversizedHeader 4096).2 3#32 =
        some ⟨128#32, 65536#32, 512#32, 64#32⟩ := by decide
    have hpush := (h hopen _ _ hend 0#32 0#32 65536).1
    have hout : ¬ ∀ a ∈ pushAccesses 128#32 65536#32 0#32 0#32 65536,
        a.Inside (recordedSize oversizedHeader) := by decide
    exact hout hpush
  · rintro ⟨h, _⟩
    have hlen : (regionOpen elevenChannels 4096).2.length = 11 := by
      decide +kernel
    rw [hlen] at h
    exact absurd h (by decide)

end Phi.Ring
