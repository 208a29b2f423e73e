import Phi.Knc.Calls

/-!
# Phi.Knc.Unpack

The unpack kernels.

Within a group every value has two temporaries of its own, and the words, the
mask, the base and the running sum are only read by the passes; after the four
of them each value's register holds the field that `Fields.extract` reads from
the group's words.
-/

namespace Phi.Knc

open Mvex Fields

/-! ## the registers of a group -/

theorem temp_ne {p q h i : Nat} (hp : p < group) (hq : q < group) (hh : h < 2) (hi : i < 2)
    (hne : p ≠ q ∨ h ≠ i) : temp p h ≠ temp q i := by
  unfold group at hp hq
  exact zmm_ne (by unfold wordRegs; omega) (by unfold wordRegs; omega) (by omega)

theorem temp_ne_high {p h r : Nat} (hp : p < group) (hh : h < 2) (hr : 26 ≤ r) (hr' : r < 32) :
    zmm r ≠ temp p h := by
  unfold group at hp
  exact zmm_ne hr' (by unfold wordRegs; omega) (by unfold wordRegs; omega)

theorem maskReg_eq : maskReg = zmm 30 := rfl

theorem baseReg_eq : baseReg = zmm 26 := rfl

theorem accReg_eq : accReg = zmm 27 := rfl

section group

variable {bits start p : Nat}

/-- A value's words are among those of its group. -/
theorem place_bounds (start : Nat) (h0 : 0 < bits) (hp : p < group) :
    firstWord bits start ≤ (place bits (start + p)).1 ∧
      (place bits (start + p)).1 ≤ lastWord bits start ∧
      (32 < (place bits (start + p)).2 + bits →
        (place bits (start + p)).1 + 1 ≤ lastWord bits start) := by
  unfold group at hp
  have hle : bits * p ≤ bits * 7 := Nat.mul_le_mul_left bits (by omega)
  have hlast : bits * (start + group - 1) = bits * start + bits * 7 := Nat.mul_add bits start 7
  simp only [place, firstWord, lastWord, hlast, Nat.mul_add bits start p]
  omega

theorem wreg_ne_temp (h32 : bits ≤ 32) {w q h : Nat} (hw : w ≤ lastWord bits start)
    (hq : q < group) (hh : h < 2) : wreg bits start w ≠ temp q h := by
  have hn := nWords_le bits start h32
  unfold nWords wordRegs at hn
  unfold group at hq
  exact zmm_ne (by omega) (by unfold wordRegs; omega) (by unfold wordRegs; omega)

/-- The two parts of a value, before the mask. -/
def parts (bits : Nat) (word : Nat → Vec) (v : Nat) : Vec := fun l =>
  word (place bits v).1 l >>> (place bits v).2 |||
    if 32 < (place bits v).2 + bits then
      word ((place bits v).1 + 1) l <<< (32 - (place bits v).2)
    else 0

theorem parts_and_low (bits : Nat) (word : Nat → Vec) (v : Nat) (l : Lane) :
    parts bits word v l &&& low 32 bits = extract bits (fun w => word w l) v := rfl

/-- A value at a word boundary is in its word. -/
theorem parts_of_aligned (h32 : bits ≤ 32) {v : Nat} (hs : (place bits v).2 = 0)
    (word : Nat → Vec) : parts bits word v = word (place bits v).1 := by
  funext l
  simp only [parts, hs]
  rw [if_neg (by omega)]
  simp

/-- A value that ends at the top of a word needs no mask. -/
theorem extract_of_top {v : Nat} (hs : (place bits v).2 + bits = 32) (word : Nat → Vec)
    (l : Lane) : extract bits (fun w => word w l) v = parts bits word v l := by
  rw [← parts_and_low]
  apply BitVec.eq_of_getLsbD_eq
  intro b hb
  rw [getLsbD_and_low (by omega)]
  by_cases hlt : b < bits
  · simp [hlt]
  · have hout : (word (place bits v).1 l).getLsbD ((place bits v).2 + b) = false :=
      BitVec.getLsbD_of_ge _ _ (by omega)
    rw [parts, if_neg (by omega), BitVec.getLsbD_or, BitVec.getLsbD_ushiftRight, hout]
    simp

end group

/-! ## the four passes -/

section extract

variable (symbols : String → Nat) {bits start : Nat} (h0 : 0 < bits) (h32 : bits ≤ 32)
  {word : Nat → Vec}

/-- The words of a group in their registers, and the mask. -/
structure Ready (bits start : Nat) (word : Nat → Vec) (m : Machine) : Prop where
  words : ∀ w, firstWord bits start ≤ w → w ≤ lastWord bits start →
    m.zmm (wreg bits start w) = word w
  mask : bits < 32 → m.zmm maskReg = fun _ => low 32 bits

/-- Only the temporaries of a group may differ. -/
structure Temps (m t : Machine) : Prop where
  gpr : t.gpr = m.gpr
  ram : t.ram = m.ram
  zmm : ∀ r, (∀ p < group, ∀ h < 2, r ≠ temp p h) → t.zmm r = m.zmm r

theorem Temps.refl (m : Machine) : Temps m m := ⟨rfl, rfl, fun _ _ => rfl⟩

theorem Temps.trans {m t u : Machine} (h : Temps m t) (h' : Temps t u) : Temps m u :=
  ⟨h'.gpr.trans h.gpr, h'.ram.trans h.ram, fun r hr => (h'.zmm r hr).trans (h.zmm r hr)⟩

theorem Ready.temps {m t : Machine} (h32 : bits ≤ 32) (h : Ready bits start word m)
    (ht : Temps m t) : Ready bits start word t where
  words w hw hw' := by
    rw [ht.zmm _ fun p hp i hi => wreg_ne_temp h32 hw' hp hi, h.words w hw hw']
  mask hb := by
    rw [maskReg_eq, ht.zmm _ fun p hp i hi => temp_ne_high hp hi (by decide) (by decide)]
    exact h.mask hb

/-- A pass over the temporaries of one kind. -/
theorem run_temps {i : Nat} (hi : i < 2) (lines : Nat → List Line) (val : Nat → Vec)
    (c : Nat → Prop) [DecidablePred c] {m : Machine} (hskip : ∀ p < group, ¬ c p → lines p = [])
    (hstep : ∀ p < group, c p → ∀ s : Machine,
      (∀ r, (∀ q < group, q ≠ p → r ≠ temp q i) → s.zmm r = m.zmm r) →
        Mvex.run symbols (lines p) s = some (s.setZmm (temp p i) (val p))) :
    ∃ t, Mvex.run symbols ((List.range group).flatMap lines) m = some t ∧ Temps m t ∧
      (∀ p < group, c p → t.zmm (temp p i) = val p) ∧
      ∀ r, (∀ p < group, c p → r ≠ temp p i) → t.zmm r = m.zmm r := by
  obtain ⟨t, hrun, hgpr, hram, hval, hother⟩ := run_pass symbols lines (temp · i) val c (m := m)
    List.nodup_range (fun p hp => hskip p (List.mem_range.mp hp))
    (fun p hp q hq hne =>
      temp_ne (List.mem_range.mp hp) (List.mem_range.mp hq) hi hi (.inl hne))
    (fun p hp hc s _ _ hsame => hstep p (List.mem_range.mp hp) hc s fun r hr =>
      hsame r fun q hq => hr q (List.mem_range.mp hq))
  have hframe : ∀ r, (∀ p < group, c p → r ≠ temp p i) → t.zmm r = m.zmm r :=
    fun r hr => hother r fun p hp => hr p (List.mem_range.mp hp)
  exact ⟨t, hrun, ⟨hgpr, hram, fun r hr => hframe r fun p hp _ => hr p hp i hi⟩,
    fun p hp => hval p (List.mem_range.mpr hp), hframe⟩

theorem place_lt (bits v : Nat) : (place bits v).2 < 32 := Nat.mod_lt _ (by decide)

section passes

include h0 h32

theorem run_low {m : Machine} (h : Ready bits start word m) :
    ∃ t, Mvex.run symbols ((List.range group).flatMap (lowLines bits start)) m = some t ∧
      Temps m t ∧ ∀ p < group, (place bits (start + p)).2 ≠ 0 →
        t.zmm (temp p 0) = fun l => word (place bits (start + p)).1 l >>>
          (place bits (start + p)).2 := by
  obtain ⟨t, hrun, htemps, hval, -⟩ := run_temps symbols (i := 0) (by decide)
    (lowLines bits start) (fun p l => word (place bits (start + p)).1 l >>>
      (place bits (start + p)).2) (fun p => (place bits (start + p)).2 ≠ 0) (m := m)
    (fun p _ hc => if_neg hc) (by
      intro p hp hc s hsame
      obtain ⟨hge, hle, -⟩ := place_bounds start h0 hp
      have hs := place_lt bits (start + p)
      have hw : s.zmm (wreg bits start (place bits (start + p)).1) =
          word (place bits (start + p)).1 := by
        rw [hsame _ fun q hq _ => wreg_ne_temp h32 hle hq (by decide), h.words _ hge hle]
      rw [lowLines]
      simp only [if_pos hc]
      rw [run_single symbols (exec_shiftRight symbols s _ _ (by omega)), hw])
  exact ⟨t, hrun, htemps, hval⟩

theorem run_high {m : Machine} (h : Ready bits start word m) :
    ∃ t, Mvex.run symbols ((List.range group).flatMap (highLines bits start)) m = some t ∧
      Temps m t ∧ (∀ p < group, 32 < (place bits (start + p)).2 + bits →
        t.zmm (temp p 1) = fun l => word ((place bits (start + p)).1 + 1) l <<<
          (32 - (place bits (start + p)).2)) ∧
      ∀ p < group, t.zmm (temp p 0) = m.zmm (temp p 0) := by
  obtain ⟨t, hrun, htemps, hval, hother⟩ := run_temps symbols (i := 1) (by decide)
    (highLines bits start) (fun p l => word ((place bits (start + p)).1 + 1) l <<<
      (32 - (place bits (start + p)).2)) (fun p => 32 < (place bits (start + p)).2 + bits)
    (m := m) (fun p _ hc => if_neg hc) (by
      intro p hp hc s hsame
      obtain ⟨hge, -, hnext⟩ := place_bounds start h0 hp
      have hle := hnext hc
      have hw : s.zmm (wreg bits start ((place bits (start + p)).1 + 1)) =
          word ((place bits (start + p)).1 + 1) := by
        rw [hsame _ fun q hq _ => wreg_ne_temp h32 hle hq (by decide),
          h.words _ (by omega) hle]
      rw [highLines]
      simp only [gt_iff_lt, if_pos hc]
      rw [run_single symbols (exec_shiftLeft symbols s _ _ (by omega)), hw])
  exact ⟨t, hrun, htemps, hval, fun p hp =>
    hother _ fun q hq _ => temp_ne hp hq (by decide) (by decide) (.inr (by decide))⟩

omit h0 h32 in
theorem run_join (bits start : Nat) (m : Machine) :
    ∃ t, Mvex.run symbols ((List.range group).flatMap (joinLines bits start)) m = some t ∧
      Temps m t ∧ ∀ p < group, t.zmm (temp p 0) =
        if 32 < (place bits (start + p)).2 + bits then
          fun l => m.zmm (temp p 0) l ||| m.zmm (temp p 1) l
        else m.zmm (temp p 0) := by
  obtain ⟨t, hrun, htemps, hval, hother⟩ := run_temps symbols (i := 0) (by decide)
    (joinLines bits start) (fun p l => m.zmm (temp p 0) l ||| m.zmm (temp p 1) l)
    (fun p => 32 < (place bits (start + p)).2 + bits) (m := m) (fun p _ hc => if_neg hc) (by
      intro p hp hc s hsame
      have hlow : s.zmm (temp p 0) = m.zmm (temp p 0) :=
        hsame _ fun q hq hne => temp_ne hp hq (by decide) (by decide) (.inl hne.symm)
      have hhigh : s.zmm (temp p 1) = m.zmm (temp p 1) :=
        hsame _ fun q hq _ => temp_ne hp hq (by decide) (by decide) (.inr (by decide))
      rw [joinLines]
      simp only [gt_iff_lt, if_pos hc]
      rw [run_single symbols (exec_vpord symbols _ _ _ s), hlow, hhigh])
  refine ⟨t, hrun, htemps, fun p hp => ?_⟩
  split
  · next hc => exact hval p hp hc
  · next hc =>
      refine hother _ fun q hq hq' => temp_ne hp hq (by decide) (by decide) (.inl ?_)
      rintro rfl
      exact hc hq'

/-- Where the mask pass reads a value. -/
def maskSrc (bits start p : Nat) : Zmm :=
  if (place bits (start + p)).2 = 0 then wreg bits start (place bits (start + p)).1 else temp p 0

theorem run_mask {m : Machine} (h : Ready bits start word m) :
    ∃ t, Mvex.run symbols ((List.range group).flatMap (maskLines bits start)) m = some t ∧
      Temps m t ∧ ∀ p < group, t.zmm (temp p 0) =
        if (place bits (start + p)).2 + bits = 32 then m.zmm (temp p 0)
        else fun l => m.zmm (maskSrc bits start p) l &&& low 32 bits := by
  have hbits : ∀ p, (place bits (start + p)).2 + bits ≠ 32 → bits < 32 := by
    intro p hc
    rcases Nat.lt_or_eq_of_le h32 with hlt | rfl
    · exact hlt
    · rw [place, Nat.mul_mod_right] at hc
      exact absurd rfl hc
  obtain ⟨t, hrun, htemps, hval, hother⟩ := run_temps symbols (i := 0) (by decide)
    (maskLines bits start) (fun p l => m.zmm (maskSrc bits start p) l &&& low 32 bits)
    (fun p => (place bits (start + p)).2 + bits ≠ 32) (m := m) (fun p _ hc => if_neg hc) (by
      intro p hp hc s hsame
      obtain ⟨hge, hle, -⟩ := place_bounds start h0 hp
      have hmask : s.zmm maskReg = fun _ => low 32 bits := by
        rw [maskReg_eq, hsame _ fun q hq _ => temp_ne_high hq (by decide) (by decide) (by decide)]
        exact h.mask (hbits p hc)
      have hsrc : s.zmm (maskSrc bits start p) = m.zmm (maskSrc bits start p) := by
        refine hsame _ fun q hq hne => ?_
        unfold maskSrc
        split
        · exact wreg_ne_temp h32 hle hq (by decide)
        · exact temp_ne hp hq (by decide) (by decide) (.inl hne.symm)
      have hlines : maskLines bits start p =
          [.bytes (vpandd (temp p 0) (maskSrc bits start p) (.reg maskReg) 0)] := by
        rw [maskLines]
        simp only [if_pos hc]
        rfl
      rw [hlines, run_single symbols (exec_vpandd symbols _ _ _ s), hmask, hsrc])
  refine ⟨t, hrun, htemps, fun p hp => ?_⟩
  split
  · next hc =>
      refine hother _ fun q hq hq' => temp_ne hp hq (by decide) (by decide) (.inl ?_)
      rintro rfl
      exact hq' hc
  · next hc => exact hval p hp hc

/-- After the four passes every value of the group is where `result` says. -/
theorem run_extract {m : Machine} (h : Ready bits start word m) :
    ∃ t, Mvex.run symbols (extractLines bits start) m = some t ∧ Temps m t ∧
      ∀ p < group, t.zmm (result bits start p) =
        fun l => extract bits (fun w => word w l) (start + p) := by
  obtain ⟨t₁, hrun₁, htemps₁, hlow⟩ := run_low symbols h0 h32 h
  obtain ⟨t₂, hrun₂, htemps₂, hhigh, hkeep⟩ := run_high symbols h0 h32 (h.temps h32 htemps₁)
  obtain ⟨t₃, hrun₃, htemps₃, hjoin⟩ := run_join symbols bits start t₂
  have htemps := (htemps₁.trans htemps₂).trans htemps₃
  have hready := h.temps h32 htemps
  obtain ⟨t₄, hrun₄, htemps₄, hmask⟩ := run_mask symbols h0 h32 hready
  have hrun := run_append_of symbols (run_append_of symbols (run_append_of symbols hrun₁ hrun₂)
    hrun₃) hrun₄
  refine ⟨t₄, hrun, htemps.trans htemps₄, fun p hp => ?_⟩
  obtain ⟨hge, hle, -⟩ := place_bounds start h0 hp
  have hlt := place_lt bits (start + p)
  -- before the mask
  have hparts : t₃.zmm (maskSrc bits start p) = parts bits word (start + p) := by
    unfold maskSrc
    split
    · next hs => rw [hready.words _ hge hle, parts_of_aligned h32 hs]
    · next hs =>
        rw [hjoin p hp, hkeep p hp, hlow p hp hs]
        funext l
        by_cases hc : 32 < (place bits (start + p)).2 + bits
        · simp only [if_pos hc, hhigh p hp hc, parts]
        · simp only [if_neg hc, parts]
          simp
  by_cases htop : (place bits (start + p)).2 + bits = 32
  · have hresult : t₄.zmm (result bits start p) = t₃.zmm (maskSrc bits start p) := by
      unfold result maskSrc
      by_cases hfull : bits = 32
      · rw [if_pos hfull, if_pos (by omega)]
        exact htemps₄.zmm _ fun q hq i hi => wreg_ne_temp h32 hle hq hi
      · rw [if_neg hfull, if_neg (by omega), hmask p hp, if_pos htop]
    rw [hresult, hparts]
    funext l
    exact (extract_of_top htop word l).symm
  · have hfull : bits ≠ 32 := by
      rintro rfl
      rw [place, Nat.mul_mod_right] at htop
      exact htop rfl
    rw [result, if_neg hfull, hmask p hp, if_neg htop, hparts]
    rfl

end passes

end extract

open Mvex Fields

/-! ## the words and the finished values -/

/-- The words of a packed block at `a`. -/
def wordsAt (ram : Ram) (a w : Nat) : Vec := vecAt ram (a + 64 * w)

/-- A group of the first `32 * c` values has its words among the first `c * bits`. -/
theorem lastWord_lt {bits g c : Nat} (h0 : 0 < bits) (hg : group * g + group ≤ 32 * c) :
    lastWord bits (group * g) < c * bits := by
  have hle : bits * (group * g + group - 1) + bits ≤ bits * (32 * c) := by
    rw [← Nat.mul_succ]
    exact Nat.mul_le_mul_left bits (by unfold group at *; omega)
  have hcomm : bits * (32 * c) = 32 * (c * bits) := by
    rw [Nat.mul_comm bits, Nat.mul_assoc]
  unfold lastWord
  omega

theorem lastWord_le {bits g : Nat} (h0 : 0 < bits) (hg : g < 8) :
    lastWord bits (group * g) < 2 * bits :=
  lastWord_lt h0 (by unfold group; omega)

section load

variable (symbols : String → Nat) {bits g : Nat}

/-- A pass over the registers of a group's words. -/
theorem run_shifted (start : Nat) (h32 : bits ≤ 32) (lines : Nat → List Line) (val : Nat → Vec)
    {m : Machine} (hstep : ∀ w < nWords bits start, ∀ s : Machine, s.gpr = m.gpr → s.ram = m.ram →
      s.zmm (zmm w) = m.zmm (zmm w) →
        Mvex.run symbols (lines w) s = some (s.setZmm (zmm w) (val w))) :
    ∃ t, Mvex.run symbols ((List.range (nWords bits start)).flatMap lines) m = some t ∧
      t.gpr = m.gpr ∧ t.ram = m.ram ∧ (∀ w < nWords bits start, t.zmm (zmm w) = val w) ∧
      ∀ n, wordRegs ≤ n → n < 32 → t.zmm (zmm n) = m.zmm (zmm n) := by
  have hn := nWords_le bits start h32
  unfold wordRegs at hn
  have hne : ∀ p < nWords bits start, ∀ q < nWords bits start, p ≠ q → zmm p ≠ zmm q :=
    fun p hp q hq => zmm_ne (by omega) (by omega)
  obtain ⟨t, hrun, hgpr, hram, hval, hother⟩ := run_pass symbols lines zmm val (fun _ => True)
    (m := m) (List.nodup_range (n := nWords bits start)) (fun _ _ h => absurd trivial h)
    (fun p hp q hq => hne p (List.mem_range.mp hp) q (List.mem_range.mp hq))
    (fun w hw _ s hgpr hram hsame => hstep w (List.mem_range.mp hw) s hgpr hram
      (hsame _ fun q hq hqw => (hne q (List.mem_range.mp hq) w (List.mem_range.mp hw) hqw).symm))
  refine ⟨t, hrun, hgpr, hram, fun w hw => hval w (List.mem_range.mpr hw) trivial,
    fun n hn' hlt => hother _ fun w hw _ => ?_⟩
  have hw := List.mem_range.mp hw
  unfold wordRegs at hn'
  exact zmm_ne hlt (by omega) (by omega)

/-- The registers of a group hold its words. -/
theorem words_of_regs {start : Nat} {word : Nat → Vec} {t : Machine}
    (h : ∀ w < nWords bits start, t.zmm (zmm w) = word (firstWord bits start + w)) {w : Nat}
    (hw : firstWord bits start ≤ w) (hw' : w ≤ lastWord bits start) :
    t.zmm (wreg bits start w) = word w := by
  have hin : w - firstWord bits start < nWords bits start := by
    unfold nWords
    omega
  rw [wreg, h _ hin, Nat.add_sub_cancel' hw]

theorem run_load (h0 : 0 < bits) (h32 : bits ≤ 32) (hg : g < 8) {m : Machine}
    (halign : m.gpr .rsi % 64 = 0) :
    ∃ t, Mvex.run symbols (loadLines bits (group * g)) m = some t ∧ t.gpr = m.gpr ∧ t.ram = m.ram ∧
      (∀ w, firstWord bits (group * g) ≤ w → w ≤ lastWord bits (group * g) →
        t.zmm (wreg bits (group * g) w) = wordsAt m.ram (m.gpr .rsi) w) ∧
      ∀ n, wordRegs ≤ n → n < 32 → t.zmm (zmm n) = m.zmm (zmm n) := by
  have hlast := lastWord_le h0 hg
  have hle := (place_bounds (p := 0) (group * g) h0 (by decide)).2.1
  obtain ⟨t, hrun, hgpr, hram, hval, hother⟩ := run_shifted symbols (group * g) h32
    (fun w => [.bytes (vmovapsLoad (zmm w) (mem .rsi (64 * (firstWord bits (group * g) + w))))])
    (fun w => wordsAt m.ram (m.gpr .rsi) (firstWord bits (group * g) + w)) (m := m) (by
      intro w hw s hgpr hram _
      unfold nWords at hw
      have hfirst := (place_bounds (p := 0) (group * g) h0 (by decide)).1
      rw [run_single symbols (exec_load symbols s (zmm w) .rsi _ (by omega) (by
        rw [hgpr]
        omega)), hgpr, hram, wordsAt])
  exact ⟨t, hrun, hgpr, hram, fun w hw hw' => words_of_regs hval hw hw', hother⟩

end load

/-! ## what the modes do -/

/-- The sums of the first `n` values over a base. -/
def running (base : Vec) (value : Nat → Vec) : Nat → Vec
  | 0 => base
  | n + 1 => fun l => running base value n l + value n l

/-- The values a mode makes of those it unpacks. -/
def decoded (mode : Mode) (base : Vec) (value : Nat → Vec) (v : Nat) : Vec :=
  match mode with
  | .plain => value v
  | .for_ => fun l => base l + value v l
  | .delta => running base value (v + 1)

/-- The register a mode keeps across the groups, before value `n`. -/
def Kept (mode : Mode) (base : Vec) (value : Nat → Vec) (n : Nat) (m : Machine) : Prop :=
  match mode with
  | .plain => True
  | .for_ => m.zmm baseReg = base
  | .delta => m.zmm accReg = running base value n

section finish

variable (symbols : String → Nat) {bits start : Nat} {value : Nat → Vec} {base : Vec}

theorem run_plain {m : Machine} (hstart : start + group ≤ 64) (halign : m.gpr .rdi % 64 = 0)
    (hvalue : ∀ p < group, m.zmm (result bits start p) = value (start + p)) :
    ∃ t, Mvex.run symbols (finishLines bits start .plain) m = some t ∧ t.gpr = m.gpr ∧
      t.zmm = m.zmm ∧ Stored (m.gpr .rdi) start group value m.ram t.ram :=
  run_slots symbols _ hstart halign hvalue

theorem result_ne_temp (h0 : 0 < bits) (h32 : bits ≤ 32) {p q : Nat} (hp : p < group)
    (hq : q < group) (hne : q ≠ p) : result bits start p ≠ temp q 0 := by
  obtain ⟨-, hle, -⟩ := place_bounds start h0 hp
  unfold result
  split
  · exact wreg_ne_temp h32 hle hq (by decide)
  · exact temp_ne hp hq (by decide) (by decide) (.inl hne.symm)

theorem result_ne_acc (h32 : bits ≤ 32) (h0 : 0 < bits) {p : Nat} (hp : p < group) :
    result bits start p ≠ accReg := by
  obtain ⟨hge, hle, -⟩ := place_bounds start h0 hp
  have hwords := nWords_le bits start h32
  unfold nWords wordRegs at hwords
  unfold result
  split
  · rw [accReg_eq]
    exact zmm_ne (by omega) (by decide) (by omega)
  · exact (temp_ne_high hp (by decide) (by decide) (by decide)).symm

theorem run_for (h0 : 0 < bits) (h32 : bits ≤ 32) {m : Machine} (hstart : start + group ≤ 64)
    (halign : m.gpr .rdi % 64 = 0) (hbase : m.zmm baseReg = base)
    (hvalue : ∀ p < group, m.zmm (result bits start p) = value (start + p)) :
    ∃ t, Mvex.run symbols (finishLines bits start .for_) m = some t ∧ t.gpr = m.gpr ∧
      (∀ r, (∀ p < group, ∀ h < 2, r ≠ temp p h) → t.zmm r = m.zmm r) ∧
      Stored (m.gpr .rdi) start group (decoded .for_ base value) m.ram t.ram := by
  obtain ⟨t, hadd, htemps, hval, -⟩ := run_temps symbols (i := 0) (by decide)
    (fun p => [.bytes (vpaddd (temp p 0) baseReg (z (result bits start p)) 0)])
    (fun p => decoded .for_ base value (start + p)) (fun _ => True) (m := m)
    (fun _ _ h => absurd trivial h) (by
      intro p hp _ s hsame
      have hb : s.zmm baseReg = base := by
        rw [baseReg_eq, hsame _ fun q hq _ => temp_ne_high hq (by decide) (by decide) (by decide)]
        exact hbase
      have hv : s.zmm (result bits start p) = value (start + p) := by
        rw [hsame _ fun q hq hne => result_ne_temp h0 h32 hp hq hne, hvalue p hp]
      rw [run_single symbols (exec_vpaddd symbols _ _ _ s), hb, hv]
      rfl)
  obtain ⟨u, hstore, hgpr, hzmm, hstored⟩ := run_slots symbols (fun p => temp p 0) (m := t)
    hstart (by rw [htemps.gpr]; exact halign) fun p hp => hval p hp trivial
  rw [htemps.gpr, htemps.ram] at hstored
  exact ⟨u, run_append_of symbols hadd hstore, hgpr.trans htemps.gpr,
    fun r hr => by rw [hzmm, htemps.zmm r hr], hstored⟩

/-- The running sum: each value is added and the sum stored before the next. -/
theorem run_delta (h0 : 0 < bits) (h32 : bits ≤ 32) {m : Machine} (hstart : start + group ≤ 64)
    (halign : m.gpr .rdi % 64 = 0) (hacc : m.zmm accReg = running base value start)
    (hvalue : ∀ p < group, m.zmm (result bits start p) = value (start + p)) :
    ∃ t, Mvex.run symbols (finishLines bits start .delta) m = some t ∧ t.gpr = m.gpr ∧
      (∀ r, r ≠ accReg → t.zmm r = m.zmm r) ∧
      t.zmm accReg = running base value (start + group) ∧
      Stored (m.gpr .rdi) start group (decoded .delta base value) m.ram t.ram := by
  obtain ⟨t, hrun, hgpr, hzmm, hsum, hstored⟩ := run_loop symbols (n := group)
    (fun p => [.bytes (vpaddd accReg accReg (z (result bits start p)) 0),
      storeLine (start + p) accReg])
    (fun n t => t.gpr = m.gpr ∧ (∀ r, r ≠ accReg → t.zmm r = m.zmm r) ∧
      t.zmm accReg = running base value (start + n) ∧
      Stored (m.gpr .rdi) start n (decoded .delta base value) m.ram t.ram) (m := m) (by
      rintro n hn s ⟨hgpr, hzmm, hsum, hstored⟩
      have hv : s.zmm (result bits start n) = value (start + n) := by
        rw [hzmm _ (result_ne_acc h32 h0 hn), hvalue n hn]
      have hadd : Mvex.run symbols [.bytes (vpaddd accReg accReg (z (result bits start n)) 0)] s =
          some (s.setZmm accReg (running base value (start + n + 1))) := by
        rw [run_single symbols (exec_vpaddd symbols _ _ _ s), hsum, hv]
        rfl
      have hstore := run_storeLine symbols
        (s := s.setZmm accReg (running base value (start + n + 1))) (v := start + n) (by omega)
        (by rw [Machine.setZmm_gpr, hgpr]; exact halign) accReg
      rw [Machine.setZmm_self, Machine.setZmm_gpr, hgpr] at hstore
      refine ⟨_, run_append_of symbols hadd hstore, hgpr, fun r hr => ?_, ?_,
        hstored.append (.one _ _ _ rfl)⟩
      · rw [Machine.store_zmm, Machine.setZmm_of_ne _ _ hr, hzmm r hr]
      · rw [Machine.store_zmm, Machine.setZmm_self]
        rfl)
    ⟨rfl, fun _ _ => rfl, hacc, .none _ _ _ _⟩
  exact ⟨t, hrun, hgpr, hzmm, hsum, hstored⟩

end finish

/-! ## the kernel -/

section kernel

variable (symbols : String → Nat) {bits : Nat} (h0 : 0 < bits) (h32 : bits ≤ 32) {mode : Mode}

/-- The values of the packed block at `a`. -/
def unpacked (bits : Nat) (ram : Ram) (a v : Nat) : Vec := fun l =>
  extract bits (fun w => wordsAt ram a w l) v

/-- Loads, register passes and stores keep what the mode keeps. -/
theorem Kept.same {base : Vec} {value : Nat → Vec} {n : Nat} {m t : Machine}
    (h : Kept mode base value n m) (hbase : t.zmm (zmm 26) = m.zmm (zmm 26))
    (hacc : t.zmm (zmm 27) = m.zmm (zmm 27)) : Kept mode base value n t := by
  cases mode with
  | plain => trivial
  | for_ => exact hbase.trans h
  | delta => exact hacc.trans h

theorem run_baseLoad (mode : Mode) {m : Machine} (value : Nat → Vec)
    (h : mode ≠ .plain → m.gpr .rdx % 64 = 0) :
    ∃ t, Mvex.run symbols (baseLoad mode) m = some t ∧ t.gpr = m.gpr ∧ t.ram = m.ram ∧
      Kept mode (vecAt m.ram (m.gpr .rdx)) value 0 t := by
  cases mode with
  | plain => exact ⟨m, rfl, rfl, rfl, trivial⟩
  | for_ =>
      have hrun := run_single symbols (exec_load symbols m baseReg .rdx 0 (by decide)
        (h Mode.noConfusion))
      exact ⟨_, hrun, rfl, rfl, Machine.setZmm_self _ _ _⟩
  | delta =>
      have hrun := run_single symbols (exec_load symbols m accReg .rdx 0 (by decide)
        (h Mode.noConfusion))
      exact ⟨_, hrun, rfl, rfl, Machine.setZmm_self _ _ _⟩

include h0 h32

/-- What a mode does with the values of a group. -/
theorem run_finish (mode : Mode) {m : Machine} {start : Nat} {base : Vec} {value : Nat → Vec}
    (hstart : start + group ≤ 64) (halign : m.gpr .rdi % 64 = 0)
    (hkept : Kept mode base value start m)
    (hvalue : ∀ p < group, m.zmm (result bits start p) = value (start + p)) :
    ∃ t, Mvex.run symbols (finishLines bits start mode) m = some t ∧ t.gpr = m.gpr ∧
      t.zmm (zmm 30) = m.zmm (zmm 30) ∧ Kept mode base value (start + group) t ∧
      Stored (m.gpr .rdi) start group (decoded mode base value) m.ram t.ram := by
  cases mode with
  | plain =>
      obtain ⟨t, hrun, hgpr, hzmm, hstored⟩ := run_plain symbols hstart halign hvalue
      exact ⟨t, hrun, hgpr, by rw [hzmm], trivial, hstored⟩
  | for_ =>
      obtain ⟨t, hrun, hgpr, hzmm, hstored⟩ :=
        run_for symbols h0 h32 hstart halign hkept hvalue
      refine ⟨t, hrun, hgpr, hzmm _ fun p hp i hi => ?_, ?_, hstored⟩
      · exact temp_ne_high hp hi (by decide) (by decide)
      · exact (hzmm _ fun p hp i hi => temp_ne_high hp hi (by decide) (by decide)).trans hkept
  | delta =>
      obtain ⟨t, hrun, hgpr, hzmm, hsum, hstored⟩ :=
        run_delta symbols h0 h32 hstart halign hkept hvalue
      exact ⟨t, hrun, hgpr, hzmm _ (by decide), hsum, hstored⟩

/-- **Step lemma**: a group. -/
theorem run_group (mode : Mode) {m : Machine} {g : Nat} {base : Vec} {word : Nat → Vec} (hg : g < 8)
    (hrdi : m.gpr .rdi % 64 = 0) (hrsi : m.gpr .rsi % 64 = 0)
    (hwords : ∀ w < 2 * bits, wordsAt m.ram (m.gpr .rsi) w = word w)
    (hmask : bits < 32 → m.zmm (zmm 30) = fun _ => low 32 bits)
    (hkept : Kept mode base (fun v l => extract bits (fun w => word w l) v) (group * g) m) :
    ∃ t, Mvex.run symbols (groupLines bits (group * g) mode) m = some t ∧ t.gpr = m.gpr ∧
      t.zmm (zmm 30) = m.zmm (zmm 30) ∧
      Kept mode base (fun v l => extract bits (fun w => word w l) v) (group * (g + 1)) t ∧
      Stored (m.gpr .rdi) (group * g) group
        (decoded mode base fun v l => extract bits (fun w => word w l) v) m.ram t.ram := by
  have hlast := lastWord_le h0 hg
  obtain ⟨s, hload, hsgpr, hsram, hsword, hsother⟩ := run_load symbols h0 h32 hg hrsi
  have hother : ∀ n, 26 ≤ n → n < 32 → s.zmm (zmm n) = m.zmm (zmm n) := fun n hn hn' =>
    hsother n (by unfold wordRegs; omega) hn'
  have hready : Ready bits (group * g) word s := by
    refine ⟨fun w hw hw' => ?_, fun hb => ?_⟩
    · rw [hsword w hw hw', hwords w (by omega)]
    · exact (hother 30 (by decide) (by decide)).trans (hmask hb)
  obtain ⟨t, hextract, htemps, hvalue⟩ := run_extract symbols h0 h32 hready
  have hkeep : ∀ n, 26 ≤ n → n < 32 → t.zmm (zmm n) = m.zmm (zmm n) := fun n hn hn' =>
    (htemps.zmm _ fun p hp i hi => temp_ne_high hp hi hn hn').trans (hother n hn hn')
  have htgpr : t.gpr = m.gpr := htemps.gpr.trans hsgpr
  obtain ⟨u, hfinish, hugpr, humask, hukept, hstored⟩ := run_finish symbols h0 h32 mode
    (by unfold group; omega) (by rw [htgpr]; exact hrdi)
    (hkept.same (hkeep 26 (by decide) (by decide)) (hkeep 27 (by decide) (by decide))) hvalue
  rw [htgpr, htemps.ram, hsram] at hstored
  exact ⟨u, run_append_of symbols (run_append_of symbols hload hextract) hfinish,
    hugpr.trans htgpr, humask.trans (hkeep 30 (by decide) (by decide)), hukept, hstored⟩

/-- The unpack kernels store what their mode makes of the packed values. -/
theorem unpackKernel_spec (mode : Mode) {ram : Ram} {out packed : Nat} (base : Nat)
    (hload : Loaded symbols bits ram) (hout : out % 64 = 0) (hpacked : packed % 64 = 0)
    (hbase : mode ≠ .plain → base % 64 = 0)
    (hapart : Beside packed (128 * bits) out 4096) :
    Call symbols (unpackKernel bits mode) [(.rdi, out), (.rsi, packed), (.rdx, base)] ram
      (Stored out 0 64 (decoded mode (vecAt ram base) (unpacked bits ram packed)) ram) := by
  intro m hargs hram
  have hrdi : m.gpr .rdi = out := hargs (.rdi, out) (by simp)
  have hrsi : m.gpr .rsi = packed := hargs (.rsi, packed) (by simp)
  have hrdx : m.gpr .rdx = base := hargs (.rdx, base) (by simp)
  subst hram
  obtain ⟨r, hbaseLoad, hrgpr, hrram, hrkept⟩ := run_baseLoad symbols mode
    (unpacked bits m.ram packed) (m := m) (by rw [hrdx]; exact hbase)
  obtain ⟨s, hmaskLoad, hsram, hsgpr, hszmm, hsmask⟩ :=
    run_maskLoad symbols (m := r) (by rw [hrram]; exact hload)
  have hsrdi : s.gpr .rdi = out := (hsgpr _ (by decide)).trans ((congrFun hrgpr _).trans hrdi)
  have hsrsi : s.gpr .rsi = packed := (hsgpr _ (by decide)).trans ((congrFun hrgpr _).trans hrsi)
  have hskept := hrkept.same (hszmm (zmm 26) (by decide)) (hszmm (zmm 27) (by decide))
  rw [hrdx] at hskept
  obtain ⟨t, hgroups, -, -, -, hstored⟩ := run_loop symbols (n := 64 / group)
    (fun g => groupLines bits (group * g) mode)
    (fun g t => t.gpr = s.gpr ∧ t.zmm (zmm 30) = s.zmm (zmm 30) ∧
      Kept mode (vecAt m.ram base) (unpacked bits m.ram packed) (group * g) t ∧
      Stored out 0 (group * g)
        (decoded mode (vecAt m.ram base) (unpacked bits m.ram packed)) m.ram t.ram)
    (m := s) (by
      rintro g hg t ⟨htgpr, htmask, htkept, htram⟩
      have hg8 : g < 8 := hg
      have hwords : ∀ w < 2 * bits, wordsAt t.ram (t.gpr .rsi) w = wordsAt m.ram packed w := by
        intro w hw
        rw [htgpr, hsrsi]
        obtain h | h := hapart
        · exact htram.apart (.inl (by omega))
        · exact htram.apart (.inr (by unfold group; omega))
      obtain ⟨u, hrun, hugpr, humask, hukept, hustored⟩ := run_group symbols h0 h32 mode
        hg8 (by rw [htgpr, hsrdi]; exact hout) (by rw [htgpr, hsrsi]; exact hpacked) hwords
        (fun hb => by rw [htmask, hsmask hb]) htkept
      refine ⟨u, hrun, hugpr.trans htgpr, humask.trans htmask, hukept, ?_⟩
      rw [htgpr, hsrdi, ← Nat.zero_add (group * g)] at hustored
      exact htram.append hustored)
    ⟨rfl, rfl, hskept, by rw [hsram, hrram]; exact .none _ _ _ _⟩
  exact ⟨t, run_append_of symbols (run_append_of symbols hbaseLoad hmaskLoad) hgroups, hstored⟩

end kernel

end Phi.Knc
