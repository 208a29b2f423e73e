import Mathlib.Data.List.Forall2
import Phi.Ring.Bounds
import Phi.Ring.Format

/-!
# Phi.Ring.Layout

Host and card read one region alike, when its size is what the header says.

The areas of a plan follow one another, inside the length of `planEnd`.  The
checks of `regionOpen` are against the size in the header, so a formatted
region is accepted exactly when the areas end within the low 32 bits of the
size it was formatted for.  Then the table, the descriptors and the ring
headers say the same, and the card's search comes to the host's endpoints.
-/

namespace Phi.Ring

/-! ## the areas -/

/-- A placed entry: aligned, with rings of a power of two, and at 0 where it
has no data area. -/
structure Placed.Wf (q : Placed) : Prop where
  h2c : line ∣ q.h2c
  c2h : line ∣ q.c2h
  data : dataAlign ∣ q.data
  absent : q.entry.data = 0#32 → q.data = 0
  h2cPow : IsPow q.entry.h2c
  c2hPow : IsPow q.entry.c2h

theorem place_wf {es : List PlanEntry} {c d : Nat} {q : Placed}
    (hp : ∀ e ∈ es, IsPow e.h2c ∧ IsPow e.c2h) (hc : line ∣ c) (hq : q ∈ place es c d) : q.Wf := by
  induction es generalizing c d with
  | nil => simp [place] at hq
  | cons e es ih =>
      rw [place, List.mem_cons] at hq
      cases hq with
      | inl h =>
          subst h
          obtain ⟨hh, hc2h⟩ := hp e (by simp)
          have hdata : dataAlign ∣ dataOff e d := by
            rw [dataOff]
            split
            · exact Nat.dvd_zero _
            · exact alignTo_dvd _ _
          exact ⟨hc, alignTo_dvd _ _, hdata, fun h0 => if_pos h0, hh, hc2h⟩
      | inr h => exact ih (fun e he => hp e (List.mem_cons_of_mem _ he)) (alignTo_dvd _ _) h

theorem layout_wf {p : Plan} {q : Placed} (hq : q ∈ p.layout) : q.Wf :=
  place_wf p.pows (alignTo_dvd _ _) hq

theorem dataNext_ge (e : PlanEntry) (cursor : Nat) : cursor ≤ dataNext e cursor := by
  have h1 := alignTo_ge (a := dataAlign) (by decide) cursor
  have h2 := alignTo_ge (a := dataAlign) (by decide) (alignTo dataAlign cursor + e.data.toNat)
  unfold dataNext
  split <;> omega

theorem dataEnd_cons (e : PlanEntry) (es : List PlanEntry) (cursor : Nat) :
    dataEnd (e :: es) cursor = dataEnd es (dataNext e cursor) := by
  rw [dataEnd, dataNext]
  split <;> rfl

theorem dataEnd_ge (es : List PlanEntry) (cursor : Nat) : cursor ≤ dataEnd es cursor := by
  induction es generalizing cursor with
  | nil => exact Nat.le_refl _
  | cons e es ih => rw [dataEnd_cons]; exact Nat.le_trans (dataNext_ge e cursor) (ih _)

/-- Areas that follow one another between two offsets. -/
structure Follow (c : Nat) (as : List Access) (stop : Nat) : Prop where
  ordered : as.Pairwise Access.Before
  low : ∀ a ∈ as, c ≤ a.off
  high : ∀ a ∈ as, a.Inside stop

theorem Follow.nil (c stop : Nat) : Follow c [] stop := ⟨.nil, by simp, by simp⟩

theorem Follow.mono {c c' stop stop' : Nat} {as : List Access} (h : Follow c as stop)
    (hc : c' ≤ c) (hs : stop ≤ stop') : Follow c' as stop' :=
  ⟨h.ordered, fun a ha => Nat.le_trans hc (h.low a ha),
    fun a ha => Nat.le_trans (h.high a ha) hs⟩

theorem Follow.append {c mid stop : Nat} {as bs : List Access} (h : Follow c as mid)
    (h' : Follow mid bs stop) (hc : c ≤ mid) (hs : mid ≤ stop) : Follow c (as ++ bs) stop where
  ordered := List.pairwise_append.mpr
    ⟨h.ordered, h'.ordered, fun a ha b hb => Nat.le_trans (h.high a ha) (h'.low b hb)⟩
  low a ha := (List.mem_append.mp ha).elim (h.low a) fun hb => Nat.le_trans hc (h'.low a hb)
  high a ha := (List.mem_append.mp ha).elim (fun hb => Nat.le_trans (h.high a hb) hs) (h'.high a)

theorem Follow.singleton {c stop : Nat} {a : Access} (hc : c ≤ a.off) (hs : a.Inside stop) :
    Follow c [a] stop := ⟨by simp, by simpa using hc, by simpa using hs⟩

theorem follow_rings (es : List PlanEntry) (c d : Nat) :
    Follow c ((place es c d).flatMap Placed.rings) (ringsEnd es c) := by
  induction es generalizing c d with
  | nil => exact .nil ..
  | cons e es ih =>
      have h1 := ringEnd_ge c e.h2c
      have h2 := ringEnd_ge (ringEnd c e.h2c) e.c2h
      have hh : Follow c [⟨c, ringHdrSize + e.h2c.toNat⟩] (ringEnd c e.h2c) :=
        .singleton (Nat.le_refl _) (by simp only [Access.Inside]; omega)
      have hc : Follow (ringEnd c e.h2c) [⟨ringEnd c e.h2c, ringHdrSize + e.c2h.toNat⟩]
          (ringEnd (ringEnd c e.h2c) e.c2h) :=
        .singleton (Nat.le_refl _) (by simp only [Access.Inside]; omega)
      have hrings := hh.append hc (by omega) (by omega)
      exact hrings.append (ih _ _) (by omega) (ringsEnd_ge _ _)

theorem follow_data (es : List PlanEntry) (c d : Nat) :
    Follow d ((place es c d).flatMap Placed.area) (dataEnd es d) := by
  induction es generalizing c d with
  | nil => exact .nil ..
  | cons e es ih =>
      have hd := alignTo_ge (a := dataAlign) (by decide) d
      have hn := alignTo_ge (a := dataAlign) (by decide) (alignTo dataAlign d + e.data.toNat)
      have harea : Follow d (Placed.area ⟨e, c, ringEnd c e.h2c, dataOff e d⟩) (dataNext e d) := by
        simp only [Placed.area, dataOff, dataNext]
        split
        · exact .nil ..
        · exact .singleton hd (by simp only [Access.Inside]; omega)
      rw [dataEnd_cons]
      exact harea.append (ih _ _) (dataNext_ge e d) (dataEnd_ge _ _)

/-- The areas of a plan follow one another inside the length of `plan_end`. -/
theorem follow_areas (p : Plan) : Follow 0 p.areas (planEnd p) := by
  have hrings := follow_rings p.entries p.start (ringsEnd p.entries p.start)
  have hdata := follow_data p.entries p.start (ringsEnd p.entries p.start)
  have hstart : p.table.Inside p.start := by
    have := alignTo_ge (a := line) (by decide) (regionHdrSize + p.entries.length * channelDescSize)
    simpa [Access.Inside, Plan.table, Plan.start, ringsStart] using this
  have htable : Follow 0 [p.table] p.start := .singleton (Nat.zero_le _) hstart
  have hr := ringsEnd_ge p.entries p.start
  have hd := dataEnd_ge p.entries (ringsEnd p.entries p.start)
  exact htable.append (hrings.append hdata hr hd) (Nat.zero_le _) (Nat.le_trans hr hd)

/-! ## the checks on a formatted region -/

theorem IsPow.ne_zero {size : W32} (h : IsPow size) : size ≠ 0#32 := by
  obtain ⟨k, hk⟩ := h
  intro h0
  rw [h0] at hk
  exact Nat.ne_of_lt (Nat.two_pow_pos k) hk

theorem IsPow.and_pred {size : W32} (h : IsPow size) : size &&& (size - 1#32) = 0#32 := by
  obtain ⟨k, hk⟩ := id h
  have hpos := Nat.two_pow_pos k
  have hpred : (size - 1#32).toNat = 2 ^ k - 1 := by
    rw [BitVec.toNat_sub_of_le (by rw [BitVec.le_def]; simp; omega), hk]
    rfl
  apply BitVec.eq_of_toNat_eq
  rw [BitVec.toNat_and, hpred, hk, Nat.and_two_pow_sub_one_eq_mod, Nat.mod_self]
  rfl

theorem toNat_low {n : Nat} (h : n < 2 ^ 32) : (low n).toNat = n := by
  rw [low, BitVec.toNat_ofNat, Nat.mod_eq_of_lt h]

/-- The low bits of an aligned offset are clear. -/
theorem low_and_pred {n k : Nat} (hk : k ≤ 32) (h : 2 ^ k ∣ n) :
    low n &&& BitVec.ofNat 32 (2 ^ k - 1) = 0#32 := by
  have hpow : 2 ^ k ≤ 2 ^ 32 := Nat.pow_le_pow_right (by decide) hk
  have hpos := Nat.two_pow_pos k
  apply BitVec.eq_of_toNat_eq
  rw [BitVec.toNat_and, low, BitVec.toNat_ofNat, BitVec.toNat_ofNat,
    Nat.mod_eq_of_lt (a := 2 ^ k - 1) (by omega), Nat.and_two_pow_sub_one_eq_mod,
    Nat.mod_mod_of_dvd _ (Nat.pow_dvd_pow 2 hk), Nat.mod_eq_zero_of_dvd h]
  rfl

/-- A kind the host knows. -/
def Known (kind : W32) : Prop := 1#32 ≤ kind ∧ kind ≤ 5#32

instance (kind : W32) : Decidable (Known kind) := inferInstanceAs (Decidable (_ ∧ _))

section formatted

variable {m : Memory} {regionSize : Nat} {p : Plan} {i : Nat} {q : Placed}

theorem knownKind_iff (hr : RingsAt m i q) : knownKind m i = true ↔ Known q.entry.kind := by
  simp [knownKind, hr.kind, Known]

/-- The table's entry for a placed channel. -/
def Placed.channel (q : Placed) : Channel :=
  ⟨q.entry.kind, low q.h2c, low q.c2h, low q.data, q.entry.data⟩

theorem channelAt_eq (hr : RingsAt m i q) (hd : DataAt m i q) : channelAt m i = q.channel := by
  simp [channelAt, Placed.channel, hr.kind, hr.h2cOff, hr.c2hOff, hd.off, hd.size]

/-- The rings and the data area of a placed channel. -/
def Placed.areas (q : Placed) : List Access := q.rings ++ q.area

/-- A ring passes the check against a size below 2^32 exactly when the whole
of it lies inside, given the alignment and the size it has. -/
theorem ringFits_low {off : Nat} {size : W32} {limit : Nat} (hoff : line ∣ off) (hp : IsPow size)
    (hlt : off < 2 ^ 32) :
    ringFits (low off) size limit = true ↔ off + ringHdrSize + size.toNat ≤ limit := by
  have ha : low off &&& 63#32 = 0#32 := low_and_pred (k := 6) (by decide) hoff
  have hpred := hp.and_pred
  rw [BitVec.and_comm] at hpred
  simp [ringFits, ha, hp.ne_zero, hpred, toNat_low hlt]

theorem dataFits_low {off : Nat} {size : W32} {limit : Nat} (hoff : dataAlign ∣ off)
    (hsize : size ≠ 0#32) (hlt : off < 2 ^ 32) :
    dataFits (low off) size limit = true ↔ off + size.toNat ≤ limit := by
  have ha : low off &&& 4095#32 = 0#32 := low_and_pred (k := 12) (by decide) hoff
  have hor : low off ||| size ≠ 0#32 := by
    intro h
    have := BitVec.or_eq_zero_iff.mp h
    exact hsize this.2
  simp [dataFits, ha, hsize, hor, toNat_low hlt]

/-- The scan gets past a descriptor of a known kind exactly when what it names
lies inside. -/
theorem descFits_iff (hr : RingsAt m i q) (hd : DataAt m i q) (hw : q.Wf)
    (hh : q.h2c < 2 ^ 32) (hc : q.c2h < 2 ^ 32) (hdata : q.data < 2 ^ 32) {limit : Nat} :
    descFits m limit i = true ↔ ∀ a ∈ q.areas, a.Inside limit := by
  have hfits : q.entry.data ≠ 0#32 → (dataFits (low q.data) q.entry.data limit = true ↔
      q.data + q.entry.data.toNat ≤ limit) := fun h0 => dataFits_low hw.data h0 hdata
  simp only [descFits, hr.h2cOff, hr.h2cSize, hr.c2hOff, hr.c2hSize, hd.off, hd.size,
    Bool.and_eq_true, ringFits_low hw.h2c hw.h2cPow hh, ringFits_low hw.c2h hw.c2hPow hc]
  by_cases h0 : q.entry.data = 0#32
  · have hnone : dataFits (low q.data) 0#32 limit = true := by
      simp [dataFits, hw.absent h0, low]
    simp [hnone, Placed.areas, Placed.rings, Placed.area, h0, Access.Inside, Nat.add_assoc]
  · simp [hfits h0, Placed.areas, Placed.rings, Placed.area, h0, Access.Inside,
      Nat.add_assoc, and_assoc]

end formatted

/-! ## the host's table -/

theorem place_entries (es : List PlanEntry) (c d : Nat) :
    (place es c d).map Placed.entry = es := by
  induction es generalizing c d with
  | nil => rfl
  | cons e es ih => simp [place, ih]

theorem layout_entries (p : Plan) : p.layout.map Placed.entry = p.entries := place_entries ..

/-- Every placed area is one of the plan's. -/
theorem areas_of_layout {p : Plan} {q : Placed} (hq : q ∈ p.layout) {a : Access}
    (ha : a ∈ q.areas) : a ∈ p.areas := by
  rw [Placed.areas, List.mem_append] at ha
  exact List.mem_cons_of_mem _ (List.mem_append.mpr (ha.imp
    (fun h => List.mem_flatMap.mpr ⟨q, hq, h⟩) fun h => List.mem_flatMap.mpr ⟨q, hq, h⟩))

theorem mem_areas_iff {p : Plan} {a : Access} :
    a ∈ p.areas ↔ a = p.table ∨ ∃ q ∈ p.layout, a ∈ q.areas := by
  constructor
  · intro h
    simp only [Plan.areas, areasOf, List.mem_cons, List.mem_append, List.mem_flatMap] at h
    simp only [Placed.areas, List.mem_append]
    grind
  · rintro (h | ⟨q, hq, h⟩)
    · simp [Plan.areas, h]
    · exact areas_of_layout hq h

/-- The sizes of the region on which the two sides agree: every kind is one the
host knows, and everything lies within the size that the header records. -/
def Plan.Agrees (p : Plan) (regionSize : Nat) : Prop :=
  (∀ e ∈ p.entries, Known e.kind) ∧ ∀ a ∈ p.areas, a.Inside (regionSize % 2 ^ 32)

instance (p : Plan) (regionSize : Nat) : Decidable (p.Agrees regionSize) :=
  inferInstanceAs (Decidable ((∀ _ ∈ _, _) ∧ ∀ a ∈ _, Access.Inside _ a))

/-- Offsets within the recorded size are within 32 bits. -/
theorem Plan.Agrees.offsets {p : Plan} {regionSize : Nat} (h : p.Agrees regionSize) {q : Placed}
    (hq : q ∈ p.layout) : q.h2c < 2 ^ 32 ∧ q.c2h < 2 ^ 32 ∧ q.data < 2 ^ 32 := by
  have hlt : regionSize % 2 ^ 32 < 2 ^ 32 := Nat.mod_lt _ (by decide)
  have hin : ∀ a ∈ q.areas, a.off + a.len ≤ regionSize % 2 ^ 32 :=
    fun a ha => h.2 a (areas_of_layout hq ha)
  have hh := hin ⟨q.h2c, ringHdrSize + q.entry.h2c.toNat⟩ (by simp [Placed.areas, Placed.rings])
  have hc := hin ⟨q.c2h, ringHdrSize + q.entry.c2h.toNat⟩ (by simp [Placed.areas, Placed.rings])
  refine ⟨by simp only at hh; omega, by simp only at hc; omega, ?_⟩
  by_cases h0 : q.entry.data = 0#32
  · simp [(layout_wf hq).absent h0]
  · have hd := hin ⟨q.data, q.entry.data.toNat⟩ (by simp [Placed.areas, Placed.area, h0])
    simp only at hd
    omega

section opened

variable {m : Memory} {regionSize : Nat} {p : Plan}

theorem Formatted.recordedSize (h : Formatted m regionSize p) :
    recordedSize m = regionSize % 2 ^ 32 := by
  rw [Ring.recordedSize, h.header.size, low, BitVec.toNat_ofNat]

theorem Formatted.channelCount (h : Formatted m regionSize p) :
    channelCount m = p.entries.length := by
  have := p.few
  rw [Ring.channelCount, h.header.count, toNat_low (by omega)]

theorem headerOk_iff (h : Formatted m regionSize p) :
    headerOk m regionSize = true ↔ p.table.Inside (regionSize % 2 ^ 32) := by
  simp [headerOk, h.header.magic, h.header.version, h.recordedSize, h.channelCount, Nat.mod_le,
    Access.Inside, Plan.table, Nat.mul_comm]

/-- The entry at an index below the length of the plan. -/
theorem exists_placed {i : Nat} (hi : i < p.entries.length) :
    ∃ q ∈ p.layout, p.layout[i]? = some q := by
  have hlen : i < p.layout.length := by simpa using hi
  exact ⟨p.layout[i], List.getElem_mem hlen, List.getElem?_eq_getElem hlen⟩

theorem known_of_layout (h : ∀ e ∈ p.entries, Known e.kind) {q : Placed} (hq : q ∈ p.layout) :
    Known q.entry.kind := by
  apply h
  rw [← layout_entries p]
  exact List.mem_map_of_mem hq

/-- The descriptors in order, as the host records them. -/
theorem map_channelAt (h : Formatted m regionSize p) :
    (List.range p.entries.length).map (channelAt m) = p.layout.map Placed.channel := by
  apply List.ext_getElem
  · simp
  · intro i hi hi'
    have hlen : i < p.layout.length := by simpa using hi
    have hq : p.layout[i]? = some p.layout[i] := List.getElem?_eq_getElem hlen
    simpa using channelAt_eq (h.rings hq) (h.data hq)

/-- The table the host makes of a region whose size it agrees with. -/
theorem regionOpen_of_agrees (h : Formatted m regionSize p) (ha : p.Agrees regionSize) :
    regionOpen m regionSize = (true, p.layout.map Placed.channel) := by
  have hok : headerOk m regionSize = true := (headerOk_iff h).mpr (ha.2 _ (by simp [Plan.areas]))
  have hfit : DescriptorsFit m := by
    intro i hi _
    rw [h.channelCount] at hi
    rw [h.recordedSize]
    obtain ⟨q, hq, hqi⟩ := exists_placed hi
    obtain ⟨hh, hc, hd⟩ := ha.offsets hq
    exact (descFits_iff (h.rings hqi) (h.data hqi) (layout_wf hq) hh hc hd).mpr
      fun a haq => ha.2 a (areas_of_layout hq haq)
  have hknown : ∀ i ∈ List.range p.entries.length, knownKind m i = true := by
    intro i hi
    obtain ⟨q, hq, hqi⟩ := exists_placed (List.mem_range.mp hi)
    exact (knownKind_iff (h.rings hqi)).mpr (known_of_layout ha.1 hq)
  apply Prod.ext
  · exact (regionOpen_accepts_iff m regionSize).mpr ⟨hok, hfit⟩
  · rw [regionOpen_channels hok hfit, h.channelCount, List.filter_eq_self.mpr hknown]
    exact map_channelAt h

end opened

/-! ## finding a channel -/

/-- A search that only one element can end. -/
theorem find_eq_some {α : Type} {l : List α} {f : α → Bool} {a : α} (ha : a ∈ l) (hf : f a = true)
    (hone : ∀ b ∈ l, f b = true → b = a) : l.find? f = some a := by
  cases hb : l.find? f with
  | none => exact absurd hf (by simpa using List.find?_eq_none.mp hb a ha)
  | some b => rw [hone b (List.mem_of_find?_eq_some hb) (List.find?_some hb)]

section found

variable {m : Memory} {regionSize : Nat} {p : Plan}

/-- Two entries of one kind are the same. -/
theorem placed_unique {i j : Nat} {q r : Placed} (hq : p.layout[i]? = some q)
    (hr : p.layout[j]? = some r) (hk : q.entry.kind = r.entry.kind) : i = j := by
  have hnodup : (p.layout.map (·.entry.kind)).Nodup := by
    have := p.distinct
    rw [← layout_entries p, List.map_map] at this
    exact this
  obtain ⟨hi, hqi⟩ := List.getElem?_eq_some_iff.mp hq
  obtain ⟨hj, hrj⟩ := List.getElem?_eq_some_iff.mp hr
  have hi' : i < (p.layout.map (·.entry.kind)).length := by simpa using hi
  have hj' : j < (p.layout.map (·.entry.kind)).length := by simpa using hj
  have hkinds : (p.layout.map (·.entry.kind))[i] = (p.layout.map (·.entry.kind))[j] := by
    simp only [List.getElem_map, hqi, hrj, hk]
  exact (List.getElem_inj hnodup).mp hkinds

/-- A ring's header gives the size it was formatted with. -/
theorem ringSizeOf_ringAt {off : Nat} {size : W32} (h : RingAt m off size) (hp : IsPow size) :
    ringSizeOf m off = some size := by
  simp [ringSizeOf, h.magic, h.recorded, hp.ne_zero, hp.and_pred]

theorem kncRingValid_ringAt {off : Nat} {size : W32} (h : RingAt m off size) (hp : IsPow size) :
    kncRingValid m off size = true := by
  simp [kncRingValid, h.magic, h.recorded, hp.ne_zero, hp.and_pred]

/-- What the host and the card should both find for a placed channel. -/
def Placed.endpoints (q : Placed) : Endpoints := ⟨low q.h2c, q.entry.h2c, low q.c2h, q.entry.c2h⟩

theorem endpointsOf_placed (h : Formatted m regionSize p) (ha : p.Agrees regionSize) {i : Nat}
    {q : Placed} (hq : p.layout[i]? = some q) :
    endpointsOf m (p.layout.map Placed.channel) q.entry.kind = some q.endpoints := by
  have hmem := List.mem_of_getElem? hq
  obtain ⟨hh, hc, -⟩ := ha.offsets hmem
  have hw := layout_wf hmem
  have hat := h.rings hq
  have hfind : channelOf (p.layout.map Placed.channel) q.entry.kind = some q.channel := by
    apply find_eq_some
    · simpa using ⟨q, hmem, rfl⟩
    · simp [Placed.channel]
    · intro c hc hk
      rw [List.mem_reverse, List.mem_map] at hc
      obtain ⟨r, hr, rfl⟩ := hc
      obtain ⟨j, hj, hrj⟩ := List.getElem_of_mem hr
      have hrj' := List.getElem?_eq_some_iff.mpr ⟨hj, hrj⟩
      obtain rfl := placed_unique hrj' hq (of_decide_eq_true hk)
      rw [Option.some.inj (hrj'.symm.trans hq)]
  simp [endpointsOf, hfind, Placed.channel, Placed.endpoints, toNat_low hh, toNat_low hc,
    ringSizeOf_ringAt hat.h2c hw.h2cPow, ringSizeOf_ringAt hat.c2h hw.c2hPow]

theorem kncRingFind_placed (h : Formatted m regionSize p) (ha : p.Agrees regionSize) {i : Nat}
    {q : Placed} (hq : p.layout[i]? = some q) :
    kncRingFind m regionSize q.entry.kind = some q.endpoints.exchanged := by
  have hmem := List.mem_of_getElem? hq
  obtain ⟨hh, hc, -⟩ := ha.offsets hmem
  have hw := layout_wf hmem
  have hat := h.rings hq
  have hlt : i < p.entries.length := by simpa using (List.getElem?_eq_some_iff.mp hq).1
  have hfew := p.few
  have hfind : (List.range (min (channelCount m) 8)).find?
      (fun i => rmRead32 m (descOffset i) = q.entry.kind) = some i := by
    apply find_eq_some
    · rw [h.channelCount, List.mem_range]
      omega
    · simp [hat.kind]
    · intro j hj hk
      rw [h.channelCount, List.mem_range] at hj
      obtain ⟨r, -, hr⟩ := exists_placed (p := p) (i := j) (by omega)
      rw [(h.rings hr).kind] at hk
      exact placed_unique hr hq (by simpa using hk)
  have hin : ∀ a ∈ q.areas, a.off + a.len ≤ regionSize := fun a haq =>
    Nat.le_trans (ha.2 a (areas_of_layout hmem haq)) (Nat.mod_le _ _)
  have hinh : q.h2c + (ringHdrSize + q.entry.h2c.toNat) ≤ regionSize :=
    hin ⟨q.h2c, _⟩ (by simp [Placed.areas, Placed.rings])
  have hinc : q.c2h + (ringHdrSize + q.entry.c2h.toNat) ≤ regionSize :=
    hin ⟨q.c2h, _⟩ (by simp [Placed.areas, Placed.rings])
  simp [kncRingFind, h.header.magic, hfind, cardEndsAt, hat.h2cOff, hat.h2cSize, hat.c2hOff,
    hat.c2hSize, toNat_low hh, toNat_low hc, hw.h2cPow.ne_zero, hw.c2hPow.ne_zero,
    kncRingValid_ringAt hat.h2c hw.h2cPow, kncRingValid_ringAt hat.c2h hw.c2hPow, Nat.add_assoc,
    hinh, hinc, Placed.endpoints, Endpoints.exchanged]

/-- A kind that the plan does not have is found by neither side. -/
theorem endpointsOf_absent {kind : W32} (hno : ∀ q ∈ p.layout, q.entry.kind ≠ kind) :
    endpointsOf m (p.layout.map Placed.channel) kind = none := by
  have hfind : channelOf (p.layout.map Placed.channel) kind = none := by
    simpa [channelOf, Placed.channel] using hno
  simp [endpointsOf, hfind]

theorem kncRingFind_absent (h : Formatted m regionSize p) {kind : W32}
    (hno : ∀ q ∈ p.layout, q.entry.kind ≠ kind) : kncRingFind m regionSize kind = none := by
  have hfind : (List.range (min (channelCount m) 8)).find?
      (fun i => rmRead32 m (descOffset i) = kind) = none := by
    rw [List.find?_eq_none, h.channelCount]
    intro i hi
    rw [List.mem_range] at hi
    obtain ⟨q, hq, hqi⟩ := exists_placed (p := p) (i := i) (by omega)
    simpa [(h.rings hqi).kind] using hno q hq
  simp [kncRingFind, hfind]

/-- The two searches come to the same rings, for every kind. -/
theorem kncRingFind_eq (h : Formatted m regionSize p) (ha : p.Agrees regionSize) (kind : W32) :
    kncRingFind m regionSize kind =
      (endpointsOf m (p.layout.map Placed.channel) kind).map Endpoints.exchanged := by
  by_cases hex : ∃ q ∈ p.layout, q.entry.kind = kind
  · obtain ⟨q, hq, rfl⟩ := hex
    obtain ⟨i, hi, hqi⟩ := List.getElem_of_mem hq
    have hqi' := List.getElem?_eq_some_iff.mpr ⟨hi, hqi⟩
    rw [kncRingFind_placed h ha hqi', endpointsOf_placed h ha hqi', Option.map_some]
  · have hno : ∀ q ∈ p.layout, q.entry.kind ≠ kind := fun q hq hk => hex ⟨q, hq, hk⟩
    rw [kncRingFind_absent h hno, endpointsOf_absent hno, Option.map_none]

end found

/-! ## one region, two readers -/

/-- The plan's rings and data areas are apart, aligned and inside the length
`planEnd` computes, which is the one the formatting returns, and the ring
headers lie where the layout says. -/
structure LaidOut (p : Plan) (stop : Nat) (m : Memory) : Prop where
  stop_eq : stop = planEnd p
  apart : p.areas.Pairwise Access.Before
  inside : ∀ a ∈ p.areas, a.Inside stop
  aligned : ∀ q ∈ p.layout, line ∣ q.h2c ∧ line ∣ q.c2h ∧ dataAlign ∣ q.data
  rings : ∀ q ∈ p.layout, RingAt m q.h2c q.entry.h2c ∧ RingAt m q.c2h q.entry.c2h

/-- The host's table says of a channel what the plan gave it. -/
structure Recovers (q : Placed) (c : Channel) : Prop where
  kind : c.kind = q.entry.kind
  h2c : c.h2c.toNat = q.h2c
  c2h : c.c2h.toNat = q.c2h
  dataOffset : c.dataOffset.toNat = q.data
  dataSize : c.dataSize = q.entry.data

/-- The endpoints of a channel are the rings the plan gave it. -/
structure Connects (q : Placed) (e : Endpoints) : Prop where
  h2c : e.h2c.toNat = q.h2c
  h2cSize : e.h2cSize = q.entry.h2c
  c2h : e.c2h.toNat = q.c2h
  c2hSize : e.c2hSize = q.entry.c2h

/-- **Host and card read one region alike**: the region that formatting the
plan leaves is laid out well, opening it accepts it and recovers every
channel, and for every kind the card finds the host's two rings with the
directions exchanged. -/
def ReadAlike (p : Plan) (regionSize : Nat) : Prop :=
  ∀ info, ∃ stop m, regionFormat p regionSize info = some (stop, m) ∧ LaidOut p stop m ∧
    ∃ cs, regionOpen m regionSize = (true, cs) ∧ List.Forall₂ Recovers p.layout cs ∧
      (∀ q ∈ p.layout, ∃ e, endpointsOf m cs q.entry.kind = some e ∧ Connects q e) ∧
      ∀ kind, kncRingFind m regionSize kind = (endpointsOf m cs kind).map Endpoints.exchanged

theorem laidOut_of_formatted {p : Plan} {m : Memory} {regionSize : Nat}
    (h : Formatted m regionSize p) : LaidOut p (planEnd p) m where
  stop_eq := rfl
  apart := (follow_areas p).ordered
  inside := (follow_areas p).high
  aligned q hq := ⟨(layout_wf hq).h2c, (layout_wf hq).c2h, (layout_wf hq).data⟩
  rings q hq := by
    obtain ⟨i, hi, hqi⟩ := List.getElem_of_mem hq
    have hat := h.rings (List.getElem?_eq_some_iff.mpr ⟨hi, hqi⟩)
    exact ⟨hat.h2c, hat.c2h⟩

theorem recovers_channel {p : Plan} {regionSize : Nat} (ha : p.Agrees regionSize) {q : Placed}
    (hq : q ∈ p.layout) : Recovers q q.channel := by
  obtain ⟨hh, hc, hd⟩ := ha.offsets hq
  exact ⟨rfl, toNat_low hh, toNat_low hc, toNat_low hd, rfl⟩

theorem connects_endpoints {p : Plan} {regionSize : Nat} (ha : p.Agrees regionSize) {q : Placed}
    (hq : q ∈ p.layout) : Connects q q.endpoints := by
  obtain ⟨hh, hc, -⟩ := ha.offsets hq
  exact ⟨toNat_low hh, rfl, toNat_low hc, rfl⟩

theorem readAlike_of_agrees {p : Plan} {regionSize : Nat} (hfit : planEnd p ≤ regionSize)
    (ha : p.Agrees regionSize) : ReadAlike p regionSize := by
  intro info
  obtain ⟨m, hm, h⟩ := regionFormat_eq_some info hfit
  refine ⟨_, m, hm, laidOut_of_formatted h, _, regionOpen_of_agrees h ha, ?_, ?_,
    kncRingFind_eq h ha⟩
  · rw [List.forall₂_map_right_iff, List.forall₂_same]
    exact fun q hq => recovers_channel ha hq
  · intro q hq
    obtain ⟨i, hi, hqi⟩ := List.getElem_of_mem hq
    exact ⟨_, endpointsOf_placed h ha (List.getElem?_eq_some_iff.mpr ⟨hi, hqi⟩),
      connects_endpoints ha hq⟩

/-- An accepted region with a channel for every entry has only kinds the host
knows. -/
theorem known_of_length {p : Plan} {m : Memory}
    (hlen : ((List.range p.entries.length).filter (knownKind m)).length = p.entries.length) :
    ∀ i < p.entries.length, knownKind m i = true := by
  have hall := List.length_filter_eq_length_iff.mp (hlen.trans List.length_range.symm)
  exact fun i hi => hall i (List.mem_range.mpr hi)

theorem agrees_of_readAlike {p : Plan} {regionSize : Nat} (hfit : planEnd p ≤ regionSize)
    (ha : ReadAlike p regionSize) : p.Agrees regionSize := by
  obtain ⟨stop, m, hm, -, cs, hopen, hrec, -⟩ := ha ⟨0, 0, 0⟩
  obtain ⟨m', hm', h⟩ := regionFormat_eq_some ⟨0, 0, 0⟩ hfit
  obtain ⟨-, rfl⟩ := Prod.mk.inj (Option.some.inj (hm.symm.trans hm'))
  obtain ⟨hok, hdesc⟩ := (regionOpen_accepts_iff m regionSize).mp (by rw [hopen])
  have hcs : cs = ((List.range p.entries.length).filter (knownKind m)).map (channelAt m) := by
    have := regionOpen_channels hok hdesc
    rw [hopen, h.channelCount] at this
    exact this
  have hknown : ∀ i < p.entries.length, knownKind m i = true := by
    apply known_of_length
    have := hrec.length_eq
    rw [hcs, List.length_map, length_layout] at this
    exact this.symm
  have hcs' : cs = p.layout.map Placed.channel := by
    rw [hcs, List.filter_eq_self.mpr fun i hi => hknown i (List.mem_range.mp hi), map_channelAt h]
  rw [hcs', List.forall₂_map_right_iff, List.forall₂_same] at hrec
  constructor
  · intro e he
    rw [← layout_entries p, List.mem_map] at he
    obtain ⟨q, hq, rfl⟩ := he
    obtain ⟨i, hi, hqi⟩ := List.getElem_of_mem hq
    exact (knownKind_iff (h.rings (List.getElem?_eq_some_iff.mpr ⟨hi, hqi⟩))).mp
      (hknown i (by simpa using hi))
  · intro a haq
    rcases mem_areas_iff.mp haq with rfl | ⟨q, hq, haq⟩
    · exact (headerOk_iff h).mp hok
    · obtain ⟨i, hi, hqi⟩ := List.getElem_of_mem hq
      have hqi' := List.getElem?_eq_some_iff.mpr ⟨hi, hqi⟩
      have hlt : i < p.entries.length := by simpa using hi
      have hr := hrec q hq
      have hlow : ∀ (w : W32) {n : Nat}, w.toNat = n → n < 2 ^ 32 := fun w _ hw => hw ▸ w.isLt
      have hfits := hdesc i (by rw [h.channelCount]; exact hlt) (hknown i hlt)
      rw [h.recordedSize] at hfits
      exact (descFits_iff (h.rings hqi') (h.data hqi') (layout_wf hq) (hlow _ hr.h2c)
        (hlow _ hr.c2h) (hlow _ hr.dataOffset)).mp hfits a haq

/-- Host and card read a plan's region alike exactly when the host knows every
kind of the plan and every area ends within the low 32 bits of the size. -/
theorem readAlike_iff {p : Plan} {regionSize : Nat} (hfit : planEnd p ≤ regionSize) :
    ReadAlike p regionSize ↔ p.Agrees regionSize :=
  ⟨agrees_of_readAlike hfit, readAlike_of_agrees hfit⟩

/-- The default plan in the default 16 MiB. -/
theorem readAlike_default : ReadAlike defaultPlan 16777216 :=
  (readAlike_iff (by decide)).mpr (by decide)

/-- The default plan in 4 GiB: it fits, and the header says 0. -/
theorem unread_4g : planEnd defaultPlan ≤ 4294967296 ∧ ¬ ReadAlike defaultPlan 4294967296 :=
  ⟨by decide, fun h => absurd (agrees_of_readAlike (by decide) h) (by decide)⟩

end Phi.Ring
