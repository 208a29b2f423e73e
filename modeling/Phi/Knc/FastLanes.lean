import Phi.Knc.Unpack

/-!
# Phi.Knc.FastLanes

The `unffor` kernels of the FastLanes layout.

A block has 32 lanes and a row of it is two vectors, so a kernel is the unpack
kernel's group of lines for the left half of the rows and once more for the
right half.  The packed block lies anywhere on a 4-byte boundary: each vector of
it is loaded in two parts.  The base is one value for all lanes.
-/

namespace Phi.Knc

open Mvex Fields

/-! ## the layout -/

/-- `KNC_FLS_LANES`. -/
def kncFlsLanes : Nat := 32

/-- `KNC_FLS_BLOCK`. -/
def kncFlsBlock : Nat := 1024

/-- `FLS_POSITIONS`. -/
def flsPositions : Nat := 32

/-- The scalar decoding of a block: value `i` is in lane `i % 32` at position
`i / 32`, and the base is added to each. -/
def scalarUnffor (bits : Nat) (p : Block) (base : BitVec 32) : Block := fun i =>
  let lane := i % kncFlsLanes
  let pos := i / kncFlsLanes
  let bit := pos * bits
  let w := bit / 32
  let s := bit % 32
  let val := p (w * kncFlsLanes + lane) >>> s
  let val := if 32 < s + bits then val ||| p ((w + 1) * kncFlsLanes + lane) <<< (32 - s) else val
  base + (val &&& lowmask bits)

/-- Half of row `w` of the packed block at `a`. -/
def flsWordsAt (ram : Ram) (a half w : Nat) : Vec := vecAt ram (a + (128 * w + 64 * half))

/-- What a half of a row decodes to. -/
def flsUnpacked (bits : Nat) (ram : Ram) (a half v : Nat) : Vec := fun l =>
  extract bits (fun w => flsWordsAt ram a half w l) v

/-- The two halves of a row are decoded alike. -/
theorem row_scalarUnffor {bits half : Nat} (h32 : bits ≤ 32) (hhalf : half < 2) (ram : Ram)
    (a v : Nat) (base : BitVec 32) :
    row (scalarUnffor bits (arrayAt ram a) base) (2 * v + half) =
      fun l => base + flsUnpacked bits ram a half v l := by
  funext l
  have hl := l.isLt
  have hlane : (lanes * (2 * v + half) + l) % kncFlsLanes = 16 * half + l := by
    unfold lanes kncFlsLanes
    omega
  have hpos : (lanes * (2 * v + half) + l) / kncFlsLanes = v := by
    unfold lanes kncFlsLanes
    omega
  have hword : ∀ w, arrayAt ram a (w * kncFlsLanes + (16 * half + l)) =
      flsWordsAt ram a half w l := by
    intro w
    show dword ram _ = dword ram _
    congr 1
    unfold kncFlsLanes
    omega
  simp only [row, scalarUnffor, hlane, hpos, hword, lowmask_eq h32, flsUnpacked, extract,
    Nat.mul_comm v bits]
  split <;> simp

/-! ## fls_unffor_kernel -/

def flsMaskSymbol (bits : Nat) : String := "knc_fls_mask_b" ++ toString bits

def flsMaskLoad (bits : Nat) : List Line :=
  if bits < 32 then
    [.leaq (flsMaskSymbol bits) .rax, .bytes (vmovapsLoad maskReg (mem .rax 0))]
  else []

def flsStoreLine (half v : Nat) (r : Zmm) : Line :=
  .bytes (vmovapsStore (mem .rsi (128 * v + 64 * half)) r)

section group

variable (bits half start : Nat)

def flsLoadLow (w : Nat) : List Line :=
  [.bytes (vloadunpackld (zmm w) (mem .rdi (128 * (firstWord bits start + w) + 64 * half)) 0)]

def flsLoadHigh (w : Nat) : List Line :=
  [.bytes (vloadunpackhd (zmm w) (mem .rdi (128 * (firstWord bits start + w) + 64 * half + 64)) 0)]

def flsFinishLines : List Line :=
  ((List.range group).flatMap fun p =>
    [.bytes (vpaddd (temp p 1) baseReg (z (result bits start p)) 0)]) ++
  (List.range group).flatMap fun p => [flsStoreLine half (start + p) (temp p 1)]

def flsGroupLines : List Line :=
  (List.range (nWords bits start)).flatMap (flsLoadLow bits half start) ++
    (List.range (nWords bits start)).flatMap (flsLoadHigh bits half start) ++
    extractLines bits start ++ flsFinishLines bits half start

end group

/-- The values of a column without bits are all the base. -/
def flsBaseLines : List Line :=
  (List.range flsPositions).flatMap fun v =>
    (List.range 2).flatMap fun half => [flsStoreLine half v baseReg]

/-- `fls_unffor_kernel`. -/
def flsUnfforKernel (bits : Nat) : List Line :=
  [.bytes (vpbroadcastd baseReg (mem .rdx 0) 0)] ++
    if bits = 0 then flsBaseLines
    else
      flsMaskLoad bits ++
        (List.range 2).flatMap fun half =>
          (List.range (flsPositions / group)).flatMap fun g => flsGroupLines bits half (group * g)

/-! ## the table of masks -/

/-- The row of `fls_mask_constants` for a width, as loaded; no bits and the whole
word have none. -/
structure FlsLoaded (symbols : String → Nat) (bits : Nat) (ram : Ram) : Prop where
  align : 0 < bits → bits < 32 → symbols (flsMaskSymbol bits) % 64 = 0
  mask : 0 < bits → bits < 32 →
    vecAt ram (symbols (flsMaskSymbol bits)) = fun _ => maskConstant bits

/-! ## vectors of an array, in any order -/

/-- The vectors of an array at `a` with these numbers are stored, and nothing else
has changed. -/
structure Filled (a : Nat) (done : Nat → Prop) (out : Nat → Vec) (ram ram' : Ram) : Prop where
  slots : ∀ u, done u → vecAt ram' (a + 64 * u) = out u
  other : ∀ x, (∀ u, done u → x < a + 64 * u ∨ a + 64 * u + 64 ≤ x) → ram' x = ram x

namespace Filled

variable {a : Nat} {done done' all : Nat → Prop} {out : Nat → Vec} {ram ram' ram'' : Ram}

theorem none (a : Nat) (out : Nat → Vec) (ram : Ram) (hnone : ∀ u, ¬ done u) :
    Filled a done out ram ram :=
  ⟨fun u hu => absurd hu (hnone u), fun _ _ => rfl⟩

theorem append (h : Filled a done out ram ram') (h' : Filled a done' out ram' ram'')
    (hall : ∀ u, all u ↔ done u ∨ done' u) : Filled a all out ram ram'' where
  slots u hu := by
    by_cases hlast : done' u
    · exact h'.slots u hlast
    · have hfirst : done u := ((hall u).mp hu).resolve_right hlast
      rw [← h.slots u hfirst]
      refine vecAt_congr fun x hx hx' => h'.other x fun v hv => ?_
      have hne : v ≠ u := by
        rintro rfl
        exact hlast hv
      omega
  other x hx := by
    rw [h'.other x fun u hu => hx u ((hall u).mpr (.inr hu)),
      h.other x fun u hu => hx u ((hall u).mpr (.inl hu))]

theorem of_iff (h : Filled a done out ram ram') (done' : Nat → Prop)
    (hiff : ∀ u, done' u ↔ done u) :
    Filled a done' out ram ram' where
  slots u hu := h.slots u ((hiff u).mp hu)
  other x hx := h.other x fun u hu => hx u ((hiff u).mpr hu)

theorem apart (h : Filled a done out ram ram') {n b : Nat} (hdone : ∀ u, done u → u < n)
    (hb : b + 64 ≤ a ∨ a + 64 * n ≤ b) : vecAt ram' b = vecAt ram b :=
  vecAt_congr fun x hx hx' => h.other x fun u hu => by
    have := hdone u hu
    omega

/-- The whole array. -/
theorem wrote {n : Nat} {v : Block} (h : Filled a (· < n) (row v) ram ram') :
    Wrote a (16 * n) v ram ram' where
  array := eq_of_rows fun u hu => by rw [row_arrayAt, h.slots u hu]
  other x hx := h.other x fun u hu => by omega

end Filled

/-! ## runs of the lines -/

section runs

variable (symbols : String → Nat) {bits half g : Nat}

theorem exec_loadLow (m : Machine) (r : Zmm) (base : Gpr) (disp : Nat) [Based base]
    (hdisp : disp < 2 ^ 31) (halign : (m.gpr base + disp) % 4 = 0) :
    (Line.bytes (vloadunpackld r (mem base disp) 0)).exec symbols m =
      some (m.setZmm r (unpackLow m.ram (m.gpr base + disp) (m.zmm r))) := by
  rw [exec_vloadunpackld, address_mem m hdisp, if_pos halign]

theorem exec_loadHigh (m : Machine) (r : Zmm) (base : Gpr) (disp : Nat) [Based base]
    (hdisp : disp < 2 ^ 31) (halign : (m.gpr base + disp) % 4 = 0) :
    (Line.bytes (vloadunpackhd r (mem base disp) 0)).exec symbols m =
      some (m.setZmm r (unpackHigh m.ram (m.gpr base + disp) (m.zmm r))) := by
  rw [exec_vloadunpackhd, address_mem m hdisp, if_pos halign]

theorem flsLastWord_lt (h0 : 0 < bits) (hg : g < 4) : lastWord bits (group * g) < bits := by
  have hlt := lastWord_lt (c := 1) h0 (g := g) (by unfold group; omega)
  rwa [Nat.one_mul] at hlt

/-- A group's words, each in two parts. -/
theorem run_flsLoad (h0 : 0 < bits) (h32 : bits ≤ 32) (hhalf : half < 2) (hg : g < 4) {m : Machine}
    (halign : m.gpr .rdi % 4 = 0) :
    ∃ t, Mvex.run symbols
        ((List.range (nWords bits (group * g))).flatMap (flsLoadLow bits half (group * g)) ++
          (List.range (nWords bits (group * g))).flatMap (flsLoadHigh bits half (group * g))) m =
        some t ∧ t.gpr = m.gpr ∧ t.ram = m.ram ∧
      (∀ w, firstWord bits (group * g) ≤ w → w ≤ lastWord bits (group * g) →
        t.zmm (wreg bits (group * g) w) = flsWordsAt m.ram (m.gpr .rdi) half w) ∧
      ∀ n, wordRegs ≤ n → n < 32 → t.zmm (zmm n) = m.zmm (zmm n) := by
  have hlast := flsLastWord_lt h0 hg
  have hfirst := (place_bounds (p := 0) (group * g) h0 (by decide)).1
  have hwords : ∀ w < nWords bits (group * g), firstWord bits (group * g) + w < 32 := by
    intro w hw
    unfold nWords at hw
    have := (place_bounds (p := 0) (group * g) h0 (by decide)).2.1
    omega
  let addr (w : Nat) : Nat := m.gpr .rdi + (128 * (firstWord bits (group * g) + w) + 64 * half)
  obtain ⟨s, hlow, hsgpr, hsram, hsval, hsother⟩ := run_shifted symbols (group * g) h32
    (flsLoadLow bits half (group * g)) (fun w => unpackLow m.ram (addr w) (m.zmm (zmm w)))
    (m := m) (by
      intro w hw s hgpr hram hsame
      have := hwords w hw
      rw [flsLoadLow, run_single symbols (exec_loadLow symbols s (zmm w) .rdi _ (by omega) (by
        rw [hgpr]
        omega)), hgpr, hram, hsame])
  obtain ⟨t, hhigh, htgpr, htram, htval, htother⟩ := run_shifted symbols (group * g) h32
    (flsLoadHigh bits half (group * g)) (fun w => vecAt m.ram (addr w))
    (m := s) (by
      intro w hw t hgpr hram hsame
      have := hwords w hw
      have haddr : m.gpr .rdi + (128 * (firstWord bits (group * g) + w) + 64 * half + 64) =
          addr w + 64 := rfl
      rw [flsLoadHigh, run_single symbols (exec_loadHigh symbols t (zmm w) .rdi _ (by omega) (by
        rw [hgpr, hsgpr]
        omega)), hgpr, hsgpr, hram, hsram, hsame, hsval w hw, haddr, unpackHigh_unpackLow])
  exact ⟨t, run_append_of symbols hlow hhigh, htgpr.trans hsgpr, htram.trans hsram,
    fun w hw hw' => words_of_regs htval hw hw',
    fun n hn hn' => (htother n hn hn').trans (hsother n hn hn')⟩

theorem run_flsStoreLine {s : Machine} {v : Nat} (hv : v < 32) (hhalf : half < 2)
    (halign : s.gpr .rsi % 64 = 0) (r : Zmm) :
    Mvex.run symbols [flsStoreLine half v r] s =
      some (s.store (s.gpr .rsi + 64 * (2 * v + half)) (s.zmm r)) := by
  have hstore := exec_store symbols s r .rsi (128 * v + 64 * half) (by omega) (by omega)
  rw [show 128 * v + 64 * half = 64 * (2 * v + half) by omega] at hstore
  rw [flsStoreLine, show 128 * v + 64 * half = 64 * (2 * v + half) by omega]
  exact run_single symbols hstore

/-- A pass of stores to vectors of an array. -/
theorem run_filled {ι : Type} (lines : ι → List Line) (slot : ι → Nat) (src : ι → Zmm)
    {ps : List ι} {a : Nat} {m : Machine} {out : Nat → Vec} (hnodup : ps.Nodup)
    (hslot : ∀ p ∈ ps, ∀ q ∈ ps, p ≠ q → slot p ≠ slot q)
    (hstep : ∀ p ∈ ps, ∀ s : Machine, s.gpr = m.gpr →
      Mvex.run symbols (lines p) s = some (s.store (a + 64 * slot p) (s.zmm (src p))))
    (hout : ∀ p ∈ ps, m.zmm (src p) = out (slot p)) :
    ∃ t, Mvex.run symbols (ps.flatMap lines) m = some t ∧ t.gpr = m.gpr ∧ t.zmm = m.zmm ∧
      Filled a (fun u => ∃ p ∈ ps, slot p = u) out m.ram t.ram := by
  obtain ⟨t, hrun, hgpr, hzmm, hval, hother⟩ := run_stores symbols lines
    (fun p => a + 64 * slot p) src hnodup
    (fun p hp q hq hne => by have := hslot p hp q hq hne; omega) hstep
  refine ⟨t, hrun, hgpr, hzmm, ?_, fun x hx => hother x fun p hp => hx (slot p) ⟨p, hp, rfl⟩⟩
  rintro u ⟨p, hp, rfl⟩
  rw [hval p hp, hout p hp]

/-- The vectors of rows `start` to `start + n` that hold a half. -/
def halfSlots (half start n u : Nat) : Prop := u % 2 = half ∧ start ≤ u / 2 ∧ u / 2 < start + n

/-- Stores to a half of rows that follow each other. -/
theorem run_flsSlots (src : Nat → Zmm) {start n : Nat} {m : Machine} (hhalf : half < 2)
    (hstart : start + n ≤ 32) (halign : m.gpr .rsi % 64 = 0) {out : Nat → Vec}
    (hout : ∀ p < n, m.zmm (src p) = out (2 * (start + p) + half)) :
    ∃ t, Mvex.run symbols
        ((List.range n).flatMap fun p => [flsStoreLine half (start + p) (src p)]) m = some t ∧
      t.gpr = m.gpr ∧ t.zmm = m.zmm ∧
      Filled (m.gpr .rsi) (halfSlots half start n) out m.ram t.ram := by
  obtain ⟨t, hrun, hgpr, hzmm, hfilled⟩ := run_filled symbols
    (fun p => [flsStoreLine half (start + p) (src p)]) (fun p => 2 * (start + p) + half) src
    (a := m.gpr .rsi) (m := m) (List.nodup_range (n := n)) (fun p _ q _ hne => by omega) (by
      intro p hp s hgpr
      have hp := List.mem_range.mp hp
      rw [run_flsStoreLine symbols (by omega) hhalf (by rw [hgpr]; exact halign), hgpr])
    (fun p hp => hout p (List.mem_range.mp hp))
  refine ⟨t, hrun, hgpr, hzmm, hfilled.of_iff _ fun u => ?_⟩
  constructor
  · rintro ⟨hmod, hge, hlt⟩
    exact ⟨u / 2 - start, List.mem_range.mpr (by omega), by omega⟩
  · rintro ⟨p, hp, rfl⟩
    have hp := List.mem_range.mp hp
    exact ⟨by omega, by omega, by omega⟩

/-- The stores of a column without bits. -/
theorem run_flsBaseLines (out : Nat → Vec) {m : Machine} (halign : m.gpr .rsi % 64 = 0)
    (hout : ∀ u, m.zmm baseReg = out u) :
    ∃ t, Mvex.run symbols flsBaseLines m = some t ∧
      Filled (m.gpr .rsi) (· < 64) out m.ram t.ram := by
  obtain ⟨t, hrun, -, -, hfilled⟩ := run_loop symbols (n := flsPositions)
    (fun v => (List.range 2).flatMap fun half => [flsStoreLine half v baseReg])
    (fun v t => t.gpr = m.gpr ∧ t.zmm = m.zmm ∧
      Filled (m.gpr .rsi) (· < 2 * v) out m.ram t.ram) (m := m) (by
      rintro v hv s ⟨hgpr, hzmm, hfilled⟩
      obtain ⟨t, hrun, htgpr, htzmm, htfilled⟩ := run_filled symbols
        (fun half => [flsStoreLine half v baseReg]) (2 * v + ·) (fun _ => baseReg)
        (a := m.gpr .rsi) (m := s) (List.nodup_range (n := 2)) (fun p _ q _ hne => by omega) (by
          intro half hhalf t htgpr
          rw [run_flsStoreLine symbols hv (List.mem_range.mp hhalf)
            (by rw [htgpr, hgpr]; exact halign), htgpr, hgpr])
        (fun half _ => by rw [hzmm, hout])
      refine ⟨t, hrun, htgpr.trans hgpr, htzmm.trans hzmm, hfilled.append htfilled fun u => ?_⟩
      constructor
      · intro hu
        by_cases hlt : u < 2 * v
        · exact .inl hlt
        · exact .inr ⟨u - 2 * v, List.mem_range.mpr (by omega), by omega⟩
      · rintro (hlt | ⟨half, hhalf, rfl⟩)
        · omega
        · have hhalf := List.mem_range.mp hhalf
          omega)
    ⟨rfl, rfl, .none _ _ _ fun u => by omega⟩
  exact ⟨t, hrun, hfilled⟩

theorem result_ne_high (h0 : 0 < bits) (h32 : bits ≤ 32) {start p q : Nat} (hp : p < group)
    (hq : q < group) : result bits start p ≠ temp q 1 := by
  obtain ⟨-, hle, -⟩ := place_bounds start h0 hp
  unfold result
  split
  · exact wreg_ne_temp h32 hle hq (by decide)
  · exact temp_ne hp hq (by decide) (by decide) (.inr (by decide))

/-- The base is added to the values of a group, and they are stored. -/
theorem run_flsFinish (h0 : 0 < bits) (h32 : bits ≤ 32) (hhalf : half < 2) {start : Nat}
    {m : Machine} {base : Vec} (value out : Nat → Vec) (hstart : start + group ≤ 32)
    (halign : m.gpr .rsi % 64 = 0) (hbase : m.zmm baseReg = base)
    (hvalue : ∀ p < group, m.zmm (result bits start p) = value (start + p))
    (hout : ∀ v, out (2 * v + half) = fun l => base l + value v l) :
    ∃ t, Mvex.run symbols (flsFinishLines bits half start) m = some t ∧ t.gpr = m.gpr ∧
      (∀ r, (∀ p < group, ∀ h < 2, r ≠ temp p h) → t.zmm r = m.zmm r) ∧
      Filled (m.gpr .rsi) (halfSlots half start group) out m.ram t.ram := by
  obtain ⟨s, hadd, htemps, hval, -⟩ := run_temps symbols (i := 1) (by decide)
    (fun p => [.bytes (vpaddd (temp p 1) baseReg (z (result bits start p)) 0)])
    (fun p l => base l + value (start + p) l) (fun _ => True) (m := m)
    (fun _ _ h => absurd trivial h) (by
      intro p hp _ s hsame
      have hb : s.zmm baseReg = base := by
        rw [baseReg_eq, hsame _ fun q hq _ => temp_ne_high hq (by decide) (by decide) (by decide)]
        exact hbase
      have hv : s.zmm (result bits start p) = value (start + p) := by
        rw [hsame _ fun q hq _ => result_ne_high h0 h32 hp hq, hvalue p hp]
      rw [run_single symbols (exec_vpaddd symbols _ _ _ s), hb, hv])
  obtain ⟨t, hstore, hgpr, hzmm, hfilled⟩ := run_flsSlots symbols (fun p => temp p 1) (m := s)
    (n := group) hhalf hstart (by rw [htemps.gpr]; exact halign)
    fun p hp => (hval p hp trivial).trans (hout (start + p)).symm
  rw [htemps.gpr, htemps.ram] at hfilled
  exact ⟨t, run_append_of symbols hadd hstore, hgpr.trans htemps.gpr,
    fun r hr => by rw [hzmm, htemps.zmm r hr], hfilled⟩

/-- **Step lemma**: a group of a half. -/
theorem run_flsGroup (h0 : 0 < bits) (h32 : bits ≤ 32) (hhalf : half < 2) (hg : g < 4)
    (out : Nat → Vec) {m : Machine} {base : Vec} {word : Nat → Vec} (hrdi : m.gpr .rdi % 4 = 0)
    (hrsi : m.gpr .rsi % 64 = 0)
    (hwords : ∀ w < bits, flsWordsAt m.ram (m.gpr .rdi) half w = word w)
    (hmask : bits < 32 → m.zmm (zmm 30) = fun _ => low 32 bits) (hbase : m.zmm (zmm 26) = base)
    (hout : ∀ v, out (2 * v + half) = fun l => base l + extract bits (fun w => word w l) v) :
    ∃ t, Mvex.run symbols (flsGroupLines bits half (group * g)) m = some t ∧ t.gpr = m.gpr ∧
      t.zmm (zmm 26) = m.zmm (zmm 26) ∧ t.zmm (zmm 30) = m.zmm (zmm 30) ∧
      Filled (m.gpr .rsi) (halfSlots half (group * g) group) out m.ram t.ram := by
  have hlast := flsLastWord_lt h0 hg
  obtain ⟨r, hload, hrgpr, hrram, hrword, hrother⟩ := run_flsLoad symbols h0 h32 hhalf hg hrdi
  have hhigh : ∀ n, 26 ≤ n → n < 32 → r.zmm (zmm n) = m.zmm (zmm n) := fun n hn hn' =>
    hrother n (by unfold wordRegs; omega) hn'
  have hready : Ready bits (group * g) word r := by
    refine ⟨fun w hw hw' => ?_, fun hb => ?_⟩
    · rw [hrword w hw hw', hwords w (by omega)]
    · exact (hhigh 30 (by decide) (by decide)).trans (hmask hb)
  obtain ⟨s, hextract, htemps, hvalue⟩ := run_extract symbols h0 h32 hready
  have hkeep : ∀ n, 26 ≤ n → n < 32 → s.zmm (zmm n) = m.zmm (zmm n) := fun n hn hn' =>
    (htemps.zmm _ fun p hp i hi => temp_ne_high hp hi hn hn').trans (hhigh n hn hn')
  have hsgpr : s.gpr = m.gpr := htemps.gpr.trans hrgpr
  obtain ⟨t, hfinish, htgpr, htzmm, hfilled⟩ := run_flsFinish symbols h0 h32 hhalf
    (fun v l => extract bits (fun w => word w l) v) out (by unfold group; omega)
    (by rw [hsgpr]; exact hrsi) ((hkeep 26 (by decide) (by decide)).trans hbase) hvalue hout
  rw [hsgpr, htemps.ram, hrram] at hfilled
  have hregs : ∀ n, 26 ≤ n → n < 32 → t.zmm (zmm n) = m.zmm (zmm n) := fun n hn hn' =>
    (htzmm _ fun p hp i hi => temp_ne_high hp hi hn hn').trans (hkeep n hn hn')
  exact ⟨t, run_append_of symbols (run_append_of symbols hload hextract) hfinish,
    htgpr.trans hsgpr, hregs 26 (by decide) (by decide), hregs 30 (by decide) (by decide), hfilled⟩

theorem run_flsMaskLoad (h0 : 0 < bits) (h32 : bits ≤ 32) {m : Machine}
    (h : FlsLoaded symbols bits m.ram) :
    ∃ t, Mvex.run symbols (flsMaskLoad bits) m = some t ∧ t.ram = m.ram ∧
      (∀ r, r ≠ .rax → t.gpr r = m.gpr r) ∧ (∀ r, r ≠ zmm 30 → t.zmm r = m.zmm r) ∧
      (bits < 32 → t.zmm (zmm 30) = fun _ => low 32 bits) := by
  by_cases hb : bits < 32
  · obtain ⟨t, hrun, hram, hgpr, hzmm, hmask⟩ :=
      run_maskRow symbols h32 (h.align h0 hb) (h.mask h0 hb)
    rw [flsMaskLoad, if_pos hb]
    exact ⟨t, hrun, hram, hgpr, hzmm, fun _ => hmask⟩
  · exact ⟨m, by rw [flsMaskLoad, if_neg hb]; rfl, rfl, fun _ _ => rfl, fun _ _ => rfl,
      fun h => absurd h hb⟩

end runs

/-! ## the kernel -/

section kernel

variable (symbols : String → Nat) {bits : Nat}

/-- Where the halves stand: the left one comes first. -/
def doneSlots (half n u : Nat) : Prop := u / 2 < 32 ∧ (u % 2 < half ∨ u % 2 = half ∧ u / 2 < n)

/-- What holds between the groups of a kernel that has bits to unpack. -/
structure Turning (bits input output : Nat) (base : Vec) (ram : Ram) (out : Nat → Vec)
    (done : Nat → Prop) (m : Machine) : Prop where
  rdi : m.gpr .rdi = input
  rsi : m.gpr .rsi = output
  base : m.zmm (zmm 26) = base
  mask : bits < 32 → m.zmm (zmm 30) = fun _ => low 32 bits
  filled : Filled output done out ram m.ram

/-- **Step lemma**: a turn of the inner loop. -/
theorem run_turn (h0 : 0 < bits) (h32 : bits ≤ 32) {input output half g : Nat} {base : Vec}
    {ram : Ram} {out : Nat → Vec} (hhalf : half < 2) (hg : g < 4) (hin : input % 4 = 0)
    (hout : output % 64 = 0) (hapart : Beside input (128 * bits) output 4096)
    (hvalue : ∀ v, out (2 * v + half) = fun l => base l + flsUnpacked bits ram input half v l)
    {m : Machine} (h : Turning bits input output base ram out (doneSlots half (group * g)) m) :
    ∃ t, Mvex.run symbols (flsGroupLines bits half (group * g)) m = some t ∧
      Turning bits input output base ram out (doneSlots half (group * (g + 1))) t := by
  have hwords : ∀ w < bits, flsWordsAt m.ram input half w = flsWordsAt ram input half w := by
    intro w hw
    refine h.filled.apart (n := 64) (fun u hu => by have := hu.1; omega) ?_
    unfold Beside at hapart
    omega
  obtain ⟨t, hrun, hgpr, hbase, hmask, hfilled⟩ := run_flsGroup symbols h0 h32 hhalf hg out
    (by rw [h.rdi]; exact hin) (by rw [h.rsi]; exact hout) (by rw [h.rdi]; exact hwords) h.mask
    h.base hvalue
  rw [h.rsi] at hfilled
  refine ⟨t, hrun, by rw [hgpr, h.rdi], by rw [hgpr, h.rsi], hbase.trans h.base,
    fun hb => hmask.trans (h.mask hb), h.filled.append hfilled fun u => ?_⟩
  unfold doneSlots halfSlots group
  omega

/-- The loops of a kernel that has bits to unpack. -/
theorem run_halves (h0 : 0 < bits) (h32 : bits ≤ 32) {input output : Nat} {base : Vec} {ram : Ram}
    {out : Nat → Vec} (hin : input % 4 = 0) (hout : output % 64 = 0)
    (hapart : Beside input (128 * bits) output 4096)
    (hvalue : ∀ half < 2, ∀ v,
      out (2 * v + half) = fun l => base l + flsUnpacked bits ram input half v l)
    {m : Machine} (h : Turning bits input output base ram out (doneSlots 0 0) m) :
    ∃ t, Mvex.run symbols
        ((List.range 2).flatMap fun half => (List.range (flsPositions / group)).flatMap fun g =>
          flsGroupLines bits half (group * g)) m = some t ∧
      Turning bits input output base ram out (doneSlots 2 0) t := by
  refine run_loop symbols _
    (fun half t => Turning bits input output base ram out (doneSlots half 0) t) ?_ h
  intro half hhalf s hs
  obtain ⟨t, hrun, ht⟩ := run_loop symbols (n := flsPositions / group)
    (fun g => flsGroupLines bits half (group * g))
    (fun g t => Turning bits input output base ram out (doneSlots half (group * g)) t)
    (fun g hg t ht => run_turn symbols h0 h32 hhalf hg hin hout hapart (hvalue half hhalf) ht) hs
  refine ⟨t, hrun, ht.rdi, ht.rsi, ht.base, ht.mask, ht.filled.of_iff _ fun u => ?_⟩
  unfold doneSlots group flsPositions
  omega

/-- The `unffor` kernels are the scalar decoding. -/
theorem flsUnfforKernel_spec (h32 : bits ≤ 32) {ram : Ram} {input output base : Nat}
    (hload : FlsLoaded symbols bits ram) (hin : input % 4 = 0) (hout : output % 64 = 0)
    (hbase : base % 4 = 0) (hapart : Beside input (128 * bits) output 4096) :
    Call symbols (flsUnfforKernel bits) [(.rdi, input), (.rsi, output), (.rdx, base)] ram
      (Wrote output kncFlsBlock (scalarUnffor bits (arrayAt ram input) (dword ram base)) ram) := by
  intro m hargs hram
  have hrdi : m.gpr .rdi = input := hargs (.rdi, input) (by simp)
  have hrsi : m.gpr .rsi = output := hargs (.rsi, output) (by simp)
  have hrdx : m.gpr .rdx = base := hargs (.rdx, base) (by simp)
  subst hram
  have hfirst : Mvex.run symbols [.bytes (vpbroadcastd baseReg (mem .rdx 0) 0)] m =
      some (m.setZmm baseReg fun _ => dword m.ram base) := by
    refine run_single symbols ?_
    rw [exec_vpbroadcastd, address_mem m (by decide), hrdx, Nat.add_zero, if_pos hbase]
  have hrow : ∀ half < 2, ∀ v,
      row (scalarUnffor bits (arrayAt m.ram input) (dword m.ram base)) (2 * v + half) =
        fun l => dword m.ram base + flsUnpacked bits m.ram input half v l := fun half hhalf v =>
    row_scalarUnffor h32 hhalf m.ram input v (dword m.ram base)
  by_cases h0 : bits = 0
  · obtain ⟨t, hrun, hfilled⟩ := run_flsBaseLines symbols
      (row (scalarUnffor bits (arrayAt m.ram input) (dword m.ram base)))
      (m := m.setZmm baseReg fun _ => dword m.ram base) (by rw [Machine.setZmm_gpr, hrsi, hout]) (by
        intro u
        rw [Machine.setZmm_self]
        funext l
        simp [row, scalarUnffor, h0, lowmask])
    rw [Machine.setZmm_gpr, hrsi] at hfilled
    refine ⟨t, ?_, hfilled.wrote⟩
    rw [flsUnfforKernel, if_pos h0]
    exact run_append_of symbols hfirst hrun
  · have hpos := Nat.pos_of_ne_zero h0
    obtain ⟨s, hmaskLoad, hsram, hsgpr, hszmm, hsmask⟩ := run_flsMaskLoad symbols hpos h32
      (m := m.setZmm baseReg fun _ => dword m.ram base) hload
    obtain ⟨t, hrun, ht⟩ := run_halves symbols hpos h32 hin hout hapart hrow (m := s)
      ⟨(hsgpr _ (by decide)).trans hrdi, (hsgpr _ (by decide)).trans hrsi,
        (hszmm _ (by decide)).trans (Machine.setZmm_self _ _ _), hsmask,
        by rw [hsram]; exact .none _ _ _ fun u => by unfold doneSlots; omega⟩
    refine ⟨t, ?_, (ht.filled.of_iff (· < 64) fun u => ?_).wrote⟩
    · rw [flsUnfforKernel, if_neg h0]
      exact run_append_of symbols hfirst (run_append_of symbols hmaskLoad hrun)
    · unfold doneSlots
      omega

end kernel

end Phi.Knc
