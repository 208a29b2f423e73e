import Mathlib.Data.List.ReduceOption
import Mathlib.Data.Nat.Bitwise
import Phi.Boot.Load
import Phi.Card.Sampling
import Phi.Lib.Ascii

/-!
# Phi.Dev.Sensors

The card's sensors, read twice: by the host, which prints the SBOX's registers
for a client (`sensors.S`), and by the card's kernel (`knc_hwmon.c`), whose sysfs
files the agent's sample is taken from.

Each side has its own decoding of the registers.  `Readings` is what the
registers say; both sides tell it.
-/

namespace Phi.Dev.Sensors

open Utf8 Decimal

/-- The SBOX's registers, by offset. -/
abbrev Sbox := Nat → UInt32

def thermalStatus : Nat := 0x1018
def statusFan2 : Nat := 0x1028
def boardTemp1 : Nat := 0x1030
def boardTemp2 : Nat := 0x1034
def currentDieTemp0 : Nat := 0x103c
def maxDieTemp0 : Nat := 0x1048
def currentClkRatio : Nat := 0x402c
def corefreq : Nat := 0x4100
def corevolt : Nat := 0x4104
/-- `SBOX_SCRATCH4`, the host's `spad` of `SPAD_PLATFORM_INFO`. -/
def scratch4 : Nat := 0xab30

/-! ## the kernel's side -/

/-- `BITS`. -/
def bits (l r v : UInt32) : UInt32 := (v >>> r) &&& ((1 <<< (l - r + 1)) - 1)

/-- `BIT`. -/
def bit (n : UInt32) : UInt32 := 1 <<< n

/-- One of the nine fields that start at a register. -/
def dieField (sbox : Sbox) (first n : Nat) : UInt32 :=
  bits 9 0 (sbox (first + 4 * (n / 3)) >>> UInt32.ofNat (10 * (n % 3)))

/-- `v & BIT(b) ? BITS(l, r, v) : -1`. -/
def validBits (b l r v : UInt32) : Int := if v &&& bit b ≠ 0 then (bits l r v).toNat else -1

/-- `knc_temp`. -/
def kncTemp (sbox : Sbox) (n : Nat) : Int :=
  if n < 9 then
    let v := dieField sbox currentDieTemp0 n
    if v ≠ 0 then v.toNat else -1
  else
    match n with
    | 9 => validBits 15 8 0 (sbox boardTemp1)
    | 10 => validBits 31 24 16 (sbox boardTemp1)
    | 11 => validBits 15 8 0 (sbox boardTemp2)
    | 12 => validBits 31 24 16 (sbox boardTemp2)
    | 13 => (bits 19 12 (sbox statusFan2)).toNat
    | 14 => validBits 31 30 22 (sbox thermalStatus)
    | _ => -1

/-- `knc_temp_max`. -/
def kncTempMax (sbox : Sbox) (n : Nat) : Int :=
  if 9 ≤ n then -1
  else
    let v := dieField sbox maxDieTemp0 n
    if v ≠ 0 then v.toNat else -1

def clkDiv : List UInt32 := [1, 2, 4]
def minMul : List UInt32 := [8, 8, 8]
def maxMul : List UInt32 := [16, 15, 15]

/-- `knc_ratio_khz`. -/
def kncRatioKhz (sbox : Sbox) (ratio : UInt32) : UInt64 :=
  let fwd := bits 10 9 (~~~ratio)
  let bck := bits 8 1 ratio
  let icc := bits 29 25 (sbox scratch4)
  if 3 ≤ fwd ∨ bck < minMul.getD fwd.toNat 0 ∨ maxMul.getD fwd.toNat 0 < bck then 0
  else
    let mhz := (200 * bck / clkDiv.getD fwd.toNat 0).toUInt64
    1000 * mhz * 20 / (if icc ≠ 0 then icc else 20).toUInt64

/-- The errors of `knc_read`. -/
inductive Errno
  | noData
  | opNotSupp
deriving DecidableEq

/-- What the hwmon core asks for. -/
inductive SensorType
  | temp
  | voltage
  | other

inductive Attr
  | input
  | max
  | other
deriving DecidableEq

/-- `knc_read`. -/
def kncRead (sbox : Sbox) (type : SensorType) (attr : Attr) (channel : Nat) : Except Errno Int :=
  match type with
  | .temp =>
      match attr with
      | .input =>
          let t := kncTemp sbox channel
          if t < 0 then .error .noData else .ok (t * 1000)
      | .max =>
          let t := kncTempMax sbox channel
          if t < 0 then .error .noData else .ok (t * 1000)
      | .other => .error .opNotSupp
  | .voltage =>
      if attr ≠ .input then .error .opNotSupp
      else
        let t : Int := (bits 7 0 (sbox corevolt)).toNat
        if t = 0 then .error .noData else .ok (250 + 5 * (t - 1))
  | .other => .error .opNotSupp

/-- `core_mhz_show`. -/
def coreMhzShow (sbox : Sbox) : List UInt8 :=
  decimal (kncRatioKhz sbox (bits 11 0 (sbox corefreq)) / 1000).toNat ++ [10]

/-- What reading an attribute of the hwmon core gives: the number and a newline,
or nothing where `knc_read` fails. -/
def attrFile : Except Errno Int → Option (List UInt8)
  | .ok v => some (signed v ++ [10])
  | .error _ => none

/-- The directory of the device, with the attributes of `knc_info` and
`knc_extra_attrs` that the agent reads. -/
structure Shown (fs : Card.Files) (hw : List UInt8) (sbox : Sbox) : Prop where
  input : ∀ n < 15, fs.file (hw ++ bytes "/temp" ++ decimal (n + 1) ++ bytes "_input") =
    attrFile (kncRead sbox .temp .input n)
  max : ∀ n < 9, fs.file (hw ++ bytes "/temp" ++ decimal (n + 1) ++ bytes "_max") =
    attrFile (kncRead sbox .temp .max n)
  voltage : fs.file (hw ++ bytes "/in0_input") = attrFile (kncRead sbox .voltage .input 0)
  clock : fs.file (hw ++ bytes "/core_mhz") = some (coreMhzShow sbox)

/-! ## the host's side -/

/-- A field of label 1 or label 4. -/
def dieShifted (sbox : Sbox) (first i : Nat) : UInt32 :=
  (sbox (first + 4 * (i / 3)) >>> UInt32.ofNat (10 * (i % 3))) &&& 0x3ff

/-- The loop at label 1, one turn of it. -/
def dieText (sbox : Sbox) (i : Nat) : List UInt8 :=
  let eax := dieShifted sbox currentDieTemp0 i
  (if i = 0 then [] else [32]) ++ (if eax = 0 then bytes "n/a" else decimal eax.toNat)

/-- The loop at label 4. -/
def dieMax (sbox : Sbox) : UInt32 :=
  (List.range 9).foldl (fun r13d i =>
    let eax := dieShifted sbox maxDieTemp0 i
    if eax ≤ r13d then r13d else eax) 0

/-- `w_opt_temp`. -/
def wOptTemp (edi : UInt32) : List UInt8 :=
  if edi &&& (1 : UInt32) <<< 15 = 0 then bytes "n/a"
  else decimal (edi &&& 0x1ff).toNat ++ bytes " C"

/-- The divider and the highest feedback of a feed-forward code. -/
def feedForward (ecx : UInt32) : Option (UInt64 × UInt32) :=
  if ecx = 0 then some (1, 16)
  else if ecx = 1 then some (2, 15)
  else if ecx = 2 then some (4, 15)
  else none

/-- `core_khz`. -/
def coreKhz (edi esi : UInt32) : Option UInt64 :=
  let ecx := (~~~edi >>> 9) &&& 3
  let eax := (edi >>> 1) &&& 0xff
  if eax < 8 then none
  else
    match feedForward ecx with
    | none => none
    | some (r8, r9d) =>
        if r9d < eax then none
        else
          let ecx := (esi >>> 25) &&& 0x1f
          let ecx := if ecx = 0 then 20 else ecx
          some (eax.toUInt64 * 200000 / r8 * 20 / ecx.toUInt64)

/-- `w_khz`. -/
def wKhz (edi esi : UInt32) : List UInt8 :=
  let ebx := edi &&& 0xfff
  match coreKhz ebx esi with
  | some rax => decimal (rax / 1000).toNat ++ bytes " MHz"
  | none => bytes "n/a (code " ++ Boot.wHex ebx.toNat ++ [41]

/-- Labels 5 to 7: the board's temperatures. -/
def boardText (sbox : Sbox) : List UInt8 :=
  bytes "board: inlet " ++ wOptTemp (sbox boardTemp1) ++
  bytes ", vccp regulator " ++ wOptTemp (sbox boardTemp1 >>> 16) ++
  bytes ", gddr " ++ wOptTemp (sbox boardTemp2) ++
  bytes ", gddr regulator " ++ wOptTemp (sbox boardTemp2 >>> 16) ++
  bytes ", vddg regulator " ++ decimal ((sbox statusFan2 >>> 12) &&& 0xff).toNat ++
  bytes " C, tmu die " ++
    (if sbox thermalStatus &&& (1 : UInt32) <<< 31 = 0 then bytes "n/a\n"
     else decimal ((sbox thermalStatus >>> 22) &&& 0x1ff).toNat ++ bytes " C\n")

/-- Labels 7 to 9: the core's voltage. -/
def voltText (sbox : Sbox) : List UInt8 :=
  let eax := sbox corevolt &&& 0xff
  bytes "core voltage: " ++
    (if eax = 0 then bytes "n/a\n" else decimal (250 + (eax - 1) * 5).toNat ++ bytes " mV\n")

/-- The text of `sensors_frame`. -/
def sensorsText (sbox : Sbox) : List UInt8 :=
  bytes "die temperatures: " ++ (List.range 9).flatMap (dieText sbox) ++
  bytes " C (max seen " ++ decimal (dieMax sbox).toNat ++ bytes " C)\n" ++
  boardText sbox ++ voltText sbox ++
  bytes "core clock: " ++ wKhz (sbox corefreq) (sbox scratch4) ++
  bytes " (COREFREQ), " ++ wKhz (sbox currentClkRatio) (sbox scratch4) ++
  bytes " (CURRENT_CLK_RATIO)\n"

/-! ## the readings -/

/-- `width` bits of a register from bit `lo` on. -/
def field (v : UInt32) (lo width : Nat) : Nat := v.toNat / 2 ^ lo % 2 ^ width

/-- A field that reads zero when there is nothing. -/
def nonzero (n : Nat) : Option Nat := if n = 0 then none else some n

/-- A field with a valid bit. -/
def valid (v : UInt32) (b lo width : Nat) : Option Nat :=
  if field v b 1 = 1 then some (field v lo width) else none

/-- The divider and the highest feedback of a feed-forward code, which the ratio
holds inverted. -/
def divider : Nat → Option (Nat × Nat)
  | 3 => some (1, 16)
  | 2 => some (2, 15)
  | 1 => some (4, 15)
  | _ => none

/-- The core clock of a ratio and an ICC divider, in kHz. -/
def clockKhz (ratio icc : Nat) : Option Nat :=
  (divider (ratio / 512 % 4)).bind fun (ff, most) =>
    let fb := ratio / 2 % 256
    if 8 ≤ fb ∧ fb ≤ most then some (200000 * fb / ff * 20 / (if icc = 0 then 20 else icc))
    else none

/-- A clock: the ratio's code, and its MHz. -/
structure Clock where
  code : Nat
  mhz : Option Nat

def clock (sbox : Sbox) (offset : Nat) : Clock :=
  ⟨field (sbox offset) 0 12,
    (clockKhz (field (sbox offset) 0 12) (field (sbox scratch4) 25 5)).map (· / 1000)⟩

/-- What the registers say: temperatures in degrees, the core's voltage in mV. -/
structure Readings where
  die : List (Option Nat)
  dieMax : List (Option Nat)
  inlet : Option Nat
  vccpVr : Option Nat
  gddr : Option Nat
  gddrVr : Option Nat
  vddgVr : Nat
  tmuDie : Option Nat
  vcore : Option Nat
  core : Clock
  ratio : Clock

def dieReading (sbox : Sbox) (first n : Nat) : Option Nat :=
  nonzero (field (sbox (first + 4 * (n / 3))) (10 * (n % 3)) 10)

def readings (sbox : Sbox) : Readings where
  die := (List.range 9).map (dieReading sbox currentDieTemp0)
  dieMax := (List.range 9).map (dieReading sbox maxDieTemp0)
  inlet := valid (sbox boardTemp1) 15 0 9
  vccpVr := valid (sbox boardTemp1) 31 16 9
  gddr := valid (sbox boardTemp2) 15 0 9
  gddrVr := valid (sbox boardTemp2) 31 16 9
  vddgVr := field (sbox statusFan2) 12 8
  tmuDie := valid (sbox thermalStatus) 31 22 9
  vcore := (nonzero (field (sbox corevolt) 0 8)).map fun code => 250 + 5 * (code - 1)
  core := clock sbox corefreq
  ratio := clock sbox currentClkRatio

/-- The highest of the readings that there are. -/
def peakOf (rs : List (Option Nat)) : Option Nat := rs.reduceOption.max?

namespace Readings

/-- The temperatures, in the order of `knc_temp_labels`. -/
def temps (r : Readings) : List (Option Nat) :=
  r.die ++ [r.inlet, r.vccpVr, r.gddr, r.gddrVr, some r.vddgVr, r.tmuDie]

/-- The highest of the maxima that there are. -/
def peak (r : Readings) : Option Nat := peakOf r.dieMax

/-- A reading as the host prints it. -/
def shown (unit : String) : Option Nat → List UInt8
  | some n => decimal n ++ bytes unit
  | none => bytes "n/a"

def showClock (c : Clock) : List UInt8 :=
  match c.mhz with
  | some n => decimal n ++ bytes " MHz"
  | none => bytes "n/a (code " ++ Boot.wHex c.code ++ bytes ")"

/-- What the host tells a client. -/
def told (r : Readings) : List UInt8 :=
  bytes "die temperatures: " ++ (bytes " ").intercalate (r.die.map (shown "")) ++
  bytes " C (max seen " ++ decimal (r.peak.getD 0) ++ bytes " C)\n" ++
  bytes "board: inlet " ++ shown " C" r.inlet ++
  bytes ", vccp regulator " ++ shown " C" r.vccpVr ++
  bytes ", gddr " ++ shown " C" r.gddr ++
  bytes ", gddr regulator " ++ shown " C" r.gddrVr ++
  bytes ", vddg regulator " ++ decimal r.vddgVr ++ bytes " C, tmu die " ++
  shown " C" r.tmuDie ++ bytes "\ncore voltage: " ++ shown " mV" r.vcore ++
  bytes "\ncore clock: " ++ showClock r.core ++ bytes " (COREFREQ), " ++
  showClock r.ratio ++ bytes " (CURRENT_CLK_RATIO)\n"

/-- A temperature in the agent's sample. -/
def degrees (t : Option Nat) : Int16 := t.elim (-1) Int16.ofNat

/-- What the agent's sample holds. -/
def sent (r : Readings) : Card.Sensors where
  temps := r.temps.map degrees
  tempPeak := degrees r.peak
  vcoreMv := UInt32.ofNat (r.vcore.getD 0)
  coreMhz := UInt32.ofNat (r.core.mhz.getD 0)

end Readings

/-! ## fields -/

section fields

variable {v r m b l icc : UInt32} {lo w s : Nat}

theorem toNat_and_mask (hm : m.toNat = 2 ^ w - 1) : (v &&& m).toNat = field v 0 w := by
  rw [UInt32.toNat_and, hm, Nat.and_two_pow_sub_one_eq_mod, field, pow_zero, Nat.div_one]

theorem toNat_shift (hr : r.toNat = s) (hs : s < 32) : (v >>> r).toNat = v.toNat / 2 ^ s := by
  rw [UInt32.toNat_shiftRight, hr, Nat.mod_eq_of_lt hs, Nat.shiftRight_eq_div_pow]

/-- A field of a shifted register. -/
theorem field_shift (hr : r.toNat = s) (hs : s < 32) :
    field (v >>> r) lo w = field v (s + lo) w := by
  rw [field, toNat_shift hr hs, Nat.div_div_eq_div_mul, ← pow_add, field]

theorem toNat_shift_and (hr : r.toNat = s) (hs : s < 32) (hm : m.toNat = 2 ^ w - 1) :
    ((v >>> r) &&& m).toNat = field v s w := by
  rw [toNat_and_mask hm, field_shift hr hs, Nat.add_zero]

/-- `BITS` is the field. -/
theorem toNat_bits (hr : r.toNat = s) (hs : s < 32)
    (hm : ((1 <<< (l - r + 1)) - 1 : UInt32).toNat = 2 ^ w - 1) :
    (bits l r v).toNat = field v s w :=
  toNat_shift_and hr hs hm

/-- A bit that is set. -/
theorem and_bit_eq_zero_iff (hm : m.toNat = 2 ^ s) : v &&& m = 0 ↔ field v s 1 ≠ 1 := by
  rw [← UInt32.toNat_inj, UInt32.toNat_and, hm, Nat.and_two_pow, Nat.testBit_eq_decide_div_mod_eq,
    field]
  have hpos : 0 < 2 ^ s := Nat.two_pow_pos s
  by_cases hbit : v.toNat / 2 ^ s % 2 = 1
  · simp [hbit]
  · simp [hbit]

theorem field_lt : field v lo w < 2 ^ w := Nat.mod_lt _ (Nat.two_pow_pos w)

/-- What the kernel gives of a field with a valid bit. -/
theorem validBits_eq {width : Nat} (hb : (bit b).toNat = 2 ^ s) (hr : r.toNat = lo) (hlo : lo < 32)
    (hm : ((1 <<< (l - r + 1)) - 1 : UInt32).toNat = 2 ^ width - 1) :
    validBits b l r v = ((valid v s lo width).elim (-1) Nat.cast : Int) := by
  unfold validBits valid
  simp only [toNat_bits hr hlo hm, ne_eq, and_bit_eq_zero_iff hb, not_not]
  split <;> rfl

/-- What the host prints of one. -/
theorem wOptTemp_eq : wOptTemp v = Readings.shown " C" (valid v 15 0 9) := by
  have hbit : v &&& (1 : UInt32) <<< 15 = 0 ↔ field v 15 1 ≠ 1 := and_bit_eq_zero_iff rfl
  have hfield : (v &&& 0x1ff).toNat = field v 0 9 := toNat_and_mask rfl
  unfold wOptTemp valid
  simp only [hbit, hfield, ite_not]
  split <;> rfl

theorem valid_shift (hr : r.toNat = s) (hs : s < 32) {n : Nat} :
    valid (v >>> r) n lo w = valid v (s + n) (s + lo) w := by
  unfold valid
  rw [field_shift hr hs, field_shift hr hs]

end fields

/-! ## the clock -/

section clock

variable {ratio spad : UInt32}

/-- The feed-forward code, inverted. -/
theorem toNat_feed : (~~~ratio >>> 9 &&& 3).toNat = 3 - ratio.toNat / 512 % 4 := by
  have hnot : (~~~ratio).toNat = 2 ^ 32 - 1 - ratio.toNat := UInt32.toNat_not ratio
  have hlt := ratio.toNat_lt
  rw [toNat_shift_and (s := 9) (w := 2) rfl (by decide) rfl, field, hnot]
  omega

/-- The host's table is the divider's. -/
theorem feedForward_eq {ecx : UInt32} {k : Nat} (h : ecx.toNat = 3 - k) (hk : k < 4) :
    (feedForward ecx).map (fun p => (p.1.toNat, p.2.toNat)) = divider k := by
  have hecx : ecx = UInt32.ofNat (3 - k) := by rw [← h, UInt32.ofNat_toNat]
  subst hecx
  match k, hk with
  | 0, _ => rfl
  | 1, _ => rfl
  | 2, _ => rfl
  | 3, _ => rfl

/-- No step of `core_khz` overflows. -/
theorem toNat_scaled {fb icc : UInt32} {ff : UInt64} (hfb : fb.toNat ≤ 16) :
    (fb.toUInt64 * 200000 / ff * 20 / icc.toUInt64).toNat =
      200000 * fb.toNat / ff.toNat * 20 / icc.toNat := by
  have hdiv : 200000 * fb.toNat / ff.toNat ≤ 200000 * fb.toNat := Nat.div_le_self _ _
  rw [UInt64.toNat_div, UInt64.toNat_mul, UInt64.toNat_div, UInt64.toNat_mul,
    UInt32.toNat_toUInt64, UInt32.toNat_toUInt64]
  simp only [UInt64.reduceToNat]
  rw [Nat.mul_comm fb.toNat, Nat.mod_eq_of_lt (show 200000 * fb.toNat < 2 ^ 64 by omega),
    Nat.mod_eq_of_lt (by omega)]

theorem toNat_icc : (spad >>> 25 &&& 0x1f).toNat = field spad 25 5 :=
  toNat_shift_and rfl (by decide) rfl

/-- The nominal divider where none is fused. -/
theorem toNat_nominal {icc : UInt32} :
    (if icc = 0 then 20 else icc).toNat = if icc.toNat = 0 then 20 else icc.toNat := by
  by_cases h : icc = 0
  · subst h; rfl
  · have hne : icc.toNat ≠ 0 := fun h0 => h (UInt32.toNat_inj.1 h0)
    rw [if_neg h, if_neg hne]

/-- The host decodes the clock. -/
theorem coreKhz_eq :
    (coreKhz ratio spad).map UInt64.toNat = clockKhz ratio.toNat (field spad 25 5) := by
  have hfb : (ratio >>> 1 &&& 0xff).toNat = ratio.toNat / 2 % 256 :=
    toNat_shift_and (w := 8) rfl (by decide) rfl
  have hff := feedForward_eq toNat_feed (Nat.mod_lt (ratio.toNat / 512) (by decide))
  have hmost : ∀ p, feedForward (~~~ratio >>> 9 &&& 3) = some p → p.2.toNat ≤ 16 := by
    intro p hp
    unfold feedForward at hp
    split at hp <;> [skip; (split at hp <;> [skip; split at hp])] <;>
      first | cases hp; decide | cases hp
  unfold coreKhz clockKhz
  dsimp only
  rw [← hff, ← hfb, ← toNat_icc]
  generalize ratio >>> 1 &&& 0xff = fb
  generalize spad >>> 25 &&& 0x1f = icc
  cases hcode : feedForward (~~~ratio >>> 9 &&& 3) with
  | none => simp
  | some p =>
      obtain ⟨ff, most⟩ := p
      have hle : most.toNat ≤ 16 := hmost _ hcode
      have hlow : fb < 8 ↔ ¬ 8 ≤ fb.toNat := UInt32.lt_iff_toNat_lt.trans Nat.not_le.symm
      have hhigh : most < fb ↔ ¬ fb.toNat ≤ most.toNat :=
        UInt32.lt_iff_toNat_lt.trans Nat.not_le.symm
      by_cases hin : 8 ≤ fb.toNat ∧ fb.toNat ≤ most.toNat
      · have hnominal : (if icc = 0 then 20 else icc).toNat = _ := toNat_nominal
        simp only [hlow, hhigh, hin.1, hin.2, not_true_eq_false, if_false, Option.map_some,
          Option.bind_some, and_self, if_true, toNat_scaled (hin.2.trans hle), hnominal]
      · by_cases hl : 8 ≤ fb.toNat
        · have hh : ¬ fb.toNat ≤ most.toNat := fun hh => hin ⟨hl, hh⟩
          simp [hlow, hhigh, hl, hh]
        · simp [hlow, hl]

/-- The tables of `knc_ratio_khz`, where the divider's has an entry. -/
theorem tables_eq {fwd : UInt32} {k : Nat} (h : fwd.toNat = 3 - k) (hk : k < 4) :
    divider k = if 3 ≤ fwd then none
      else some ((clkDiv.getD fwd.toNat 0).toNat, (maxMul.getD fwd.toNat 0).toNat) := by
  have hfwd : fwd = UInt32.ofNat (3 - k) := by rw [← h, UInt32.ofNat_toNat]
  subst hfwd
  match k, hk with
  | 0, _ => rfl
  | 1, _ => rfl
  | 2, _ => rfl
  | 3, _ => rfl

theorem minMul_eq {fwd : UInt32} (h : ¬ 3 ≤ fwd) : minMul.getD fwd.toNat 0 = 8 := by
  have hlt : fwd.toNat < 3 := Nat.not_le.1 h
  generalize fwd.toNat = n at hlt
  match n, hlt with
  | 0, _ => rfl
  | 1, _ => rfl
  | 2, _ => rfl

theorem clkDiv_dvd {fwd : UInt32} (h : ¬ 3 ≤ fwd) :
    (clkDiv.getD fwd.toNat 0).toNat ∣ 200 ∧ (maxMul.getD fwd.toNat 0).toNat ≤ 16 := by
  have hlt : fwd.toNat < 3 := Nat.not_le.1 h
  generalize fwd.toNat = n at hlt
  match n, hlt with
  | 0, _ => decide
  | 1, _ => decide
  | 2, _ => decide

/-- Whole MHz before the ICC divider lose nothing: 200 is a multiple of the dividers. -/
theorem toNat_mhz {fb ff icc : UInt32} (hfb : fb.toNat ≤ 16) (hff : ff.toNat ∣ 200) :
    (1000 * (200 * fb / ff).toUInt64 * 20 / icc.toUInt64).toNat =
      200000 * fb.toNat / ff.toNat * 20 / icc.toNat := by
  have hmhz : (200 * fb / ff).toNat = 200 * fb.toNat / ff.toNat := by
    rw [UInt32.toNat_div, UInt32.toNat_mul]
    simp only [UInt32.reduceToNat]
    rw [Nat.mod_eq_of_lt (by omega)]
  have hle : 200 * fb.toNat / ff.toNat ≤ 200 * fb.toNat := Nat.div_le_self _ _
  have hthousand : 200000 * fb.toNat / ff.toNat = 1000 * (200 * fb.toNat / ff.toNat) := by
    rw [← Nat.mul_div_assoc 1000 (hff.mul_right _), ← Nat.mul_assoc]
  rw [UInt64.toNat_div, UInt64.toNat_mul, UInt64.toNat_mul, UInt32.toNat_toUInt64,
    UInt32.toNat_toUInt64, hmhz, hthousand]
  simp only [UInt64.reduceToNat]
  rw [Nat.mod_eq_of_lt (show 1000 * (200 * fb.toNat / ff.toNat) < 2 ^ 64 by omega),
    Nat.mod_eq_of_lt (by omega)]

/-- The kernel decodes the clock, and gives 0 for a code out of range. -/
theorem kncRatioKhz_eq (sbox : Sbox) : (kncRatioKhz sbox ratio).toNat =
    (clockKhz ratio.toNat (field (sbox scratch4) 25 5)).getD 0 := by
  have hfb : (bits 8 1 ratio).toNat = ratio.toNat / 2 % 256 :=
    toNat_bits (w := 8) rfl (by decide) rfl
  have hicc : (bits 29 25 (sbox scratch4)).toNat = field (sbox scratch4) 25 5 :=
    toNat_bits rfl (by decide) rfl
  have htable := tables_eq toNat_feed (Nat.mod_lt (ratio.toNat / 512) (by decide))
  have hfwd : bits 10 9 (~~~ratio) = ~~~ratio >>> 9 &&& 3 := rfl
  unfold kncRatioKhz clockKhz
  dsimp only
  rw [htable, ← hfb, ← hicc, hfwd]
  generalize bits 8 1 ratio = fb
  generalize bits 29 25 (sbox scratch4) = icc
  generalize ~~~ratio >>> 9 &&& 3 = fwd
  by_cases hout : 3 ≤ fwd
  · simp [hout]
  · obtain ⟨hdvd, hmost⟩ := clkDiv_dvd hout
    rw [if_neg hout, minMul_eq hout, Option.bind_some]
    generalize clkDiv.getD fwd.toNat 0 = ff at hdvd
    generalize maxMul.getD fwd.toNat 0 = most at hmost
    have hlow : fb < 8 ↔ ¬ 8 ≤ fb.toNat := UInt32.lt_iff_toNat_lt.trans Nat.not_le.symm
    have hhigh : most < fb ↔ ¬ fb.toNat ≤ most.toNat :=
      UInt32.lt_iff_toNat_lt.trans Nat.not_le.symm
    have hnominal : (if icc = 0 then 20 else icc).toNat = _ := toNat_nominal
    by_cases hin : 8 ≤ fb.toNat ∧ fb.toNat ≤ most.toNat
    · simp only [hout, hlow, hhigh, hin.1, hin.2, not_true_eq_false, or_self, if_false, and_self,
        if_true, Option.getD_some, ne_eq, ite_not, toNat_mhz (hin.2.trans hmost) hdvd, hnominal]
    · have hneg : 3 ≤ fwd ∨ fb < 8 ∨ most < fb := by
        rw [hlow, hhigh]
        exact .inr (not_and_or.1 hin)
      rw [if_pos hneg, if_neg hin]
      rfl

/-- A clock as the host prints it. -/
theorem wKhz_eq (sbox : Sbox) (offset : Nat) :
    wKhz (sbox offset) (sbox scratch4) = Readings.showClock (clock sbox offset) := by
  have hcode : (sbox offset &&& 0xfff).toNat = field (sbox offset) 0 12 := toNat_and_mask rfl
  have hkhz : (coreKhz (sbox offset &&& 0xfff) (sbox scratch4)).map UInt64.toNat = _ := coreKhz_eq
  rw [hcode] at hkhz
  unfold wKhz Readings.showClock clock
  dsimp only
  rw [← hkhz, hcode]
  cases coreKhz (sbox offset &&& 0xfff) (sbox scratch4) with
  | none => rfl
  | some rax => simp [UInt64.toNat_div]

end clock

/-! ## the highest maximum -/

section peak

variable {bot : Int}

/-- The highest of one more reading, with `bot` for none. -/
theorem peakOf_cons (hbot : bot ≤ 0) (r : Option Nat) (rs : List (Option Nat)) :
    ((peakOf (r :: rs)).elim bot Nat.cast : Int) =
      max (r.elim bot Nat.cast) ((peakOf rs).elim bot Nat.cast) := by
  cases r with
  | none =>
      have hle : bot ≤ (peakOf rs).elim bot Nat.cast := by
        cases peakOf rs with
        | none => exact le_rfl
        | some m => exact hbot.trans (Int.natCast_nonneg m)
      rw [peakOf, List.reduceOption_cons_of_none, ← peakOf, Option.elim_none, max_eq_right hle]
  | some n =>
      rw [peakOf, List.reduceOption_cons_of_some, List.max?_cons, ← peakOf, Option.elim_some,
        Option.elim_some]
      cases peakOf rs with
      | none => exact (max_eq_left (hbot.trans (Int.natCast_nonneg n))).symm
      | some m =>
          show ((max n m : Nat) : Int) = max (n : Int) m
          omega

/-- A loop that keeps the higher of two values ends with the highest. -/
theorem foldl_key {α : Type} (key : α → Int) (step : α → α → α)
    (hstep : ∀ a b, key (step a b) = max (key a) (key b)) (hbot : bot ≤ 0) {xs : List α}
    {rs : List (Option Nat)} (h : xs.map key = rs.map fun r => r.elim bot Nat.cast)
    (hne : rs ≠ []) (acc : α) :
    key (xs.foldl step acc) = max (key acc) ((peakOf rs).elim bot Nat.cast) := by
  induction rs generalizing xs acc with
  | nil => exact absurd rfl hne
  | cons r rs ih =>
      obtain ⟨x, xs, rfl, hx, hxs⟩ := List.map_eq_cons_iff.1 h
      have hx' : key x = r.elim bot Nat.cast := hx
      rw [List.foldl_cons, peakOf_cons hbot, ← hx', ← max_assoc, ← hstep]
      cases rs with
      | nil =>
          have hnil : xs = [] := by simpa using hxs
          have hle : bot ≤ key (step acc x) := by
            rw [hstep, hx']
            cases r with
            | none => exact le_max_right _ _
            | some n => exact hbot.trans ((Int.natCast_nonneg n).trans (le_max_right _ _))
          subst hnil
          exact (max_eq_left hle).symm
      | cons r' rs => exact ih hxs (by simp) (step acc x)

end peak

/-! ## the nine dies -/

section dies

variable (sbox : Sbox) {first n : Nat}

theorem toNat_tenth : (UInt32.ofNat (10 * (n % 3))).toNat = 10 * (n % 3) :=
  UInt32.toNat_ofNat_of_lt' (show 10 * (n % 3) < 2 ^ 32 by omega)

theorem toNat_dieShifted :
    (dieShifted sbox first n).toNat = field (sbox (first + 4 * (n / 3))) (10 * (n % 3)) 10 :=
  toNat_shift_and toNat_tenth (by omega) rfl

theorem toNat_dieField :
    (dieField sbox first n).toNat = field (sbox (first + 4 * (n / 3))) (10 * (n % 3)) 10 := by
  have hbits : (dieField sbox first n).toNat = _ :=
    toNat_bits (s := 0) (w := 10) rfl (by decide) rfl
  rw [hbits, field_shift toNat_tenth (by omega), Nat.add_zero]

/-- What a field that may read zero gives. -/
theorem nonzero_eq {v : UInt32} {m : Nat} (hv : v.toNat = m) :
    ((if v ≠ 0 then v.toNat else -1 : Int)) = (nonzero m).elim (-1) Nat.cast := by
  subst hv
  unfold nonzero
  have hz : v = 0 ↔ v.toNat = 0 := UInt32.toNat_inj.symm
  by_cases h : v.toNat = 0 <;> simp [hz, h]

theorem dieText_eq (i : Nat) : dieText sbox i =
    (if i = 0 then [] else [32]) ++ Readings.shown "" (dieReading sbox currentDieTemp0 i) := by
  have hz : dieShifted sbox currentDieTemp0 i = 0 ↔
      (dieShifted sbox currentDieTemp0 i).toNat = 0 := UInt32.toNat_inj.symm
  have hnil : bytes "" = [] := rfl
  unfold dieText dieReading nonzero
  simp only [hz, toNat_dieShifted]
  generalize field (sbox (currentDieTemp0 + 4 * (i / 3))) (10 * (i % 3)) 10 = t
  by_cases ht : t = 0 <;> simp [ht, Readings.shown, hnil]

/-- A separator before every text but the first. -/
theorem flatMap_range_eq_intercalate {sep : List UInt8} (f : Nat → List UInt8) (k : Nat) :
    (List.range (k + 1)).flatMap (fun i => (if i = 0 then [] else sep) ++ f i) =
      sep.intercalate ((List.range (k + 1)).map f) := by
  have htail : ∀ xs : List Nat, (∀ i ∈ xs, i ≠ 0) →
      xs.flatMap (fun i => (if i = 0 then [] else sep) ++ f i) =
        xs.flatMap fun i => sep ++ f i := by
    intro xs hxs
    exact List.flatMap_congr fun i hi => by rw [if_neg (hxs i hi)]
  rw [List.range_succ_eq_map, List.flatMap_cons, if_pos rfl, List.nil_append,
    htail _ fun i hi => by
      obtain ⟨j, -, rfl⟩ := List.mem_map.1 hi
      exact Nat.succ_ne_zero j,
    List.map_cons]
  generalize (List.range k).map Nat.succ = xs
  generalize f 0 = hd
  induction xs generalizing hd with
  | nil => simp [List.intercalate]
  | cons x xs ih =>
      rw [List.flatMap_cons, List.map_cons, List.intercalate_cons_cons, ← ih (f x)]
      simp

/-- A turn of the host's loop keeps the higher of the two. -/
theorem toNat_higher (a b : UInt32) :
    ((if b ≤ a then a else b).toNat : Int) = max (a.toNat : Int) b.toNat := by
  have hle : b ≤ a ↔ b.toNat ≤ a.toNat := UInt32.le_iff_toNat_le
  by_cases h : b.toNat ≤ a.toNat
  · rw [if_pos (hle.2 h)]; omega
  · rw [if_neg (mt hle.1 h)]; omega

theorem dieMax_eq : (dieMax sbox).toNat = (readings sbox).peak.getD 0 := by
  have hkeys : ((List.range 9).map (dieShifted sbox maxDieTemp0)).map (fun v => (v.toNat : Int)) =
      (readings sbox).dieMax.map fun r => r.elim 0 Nat.cast := by
    simp only [readings, List.map_map]
    refine List.map_congr_left fun i _ => ?_
    simp only [Function.comp, toNat_dieShifted, dieReading, nonzero]
    split <;> simp [*]
  have hfold := foldl_key (fun v : UInt32 => (v.toNat : Int)) _ toNat_higher le_rfl hkeys
    (by simp [readings]) 0
  rw [List.foldl_map] at hfold
  have hpeak : ((readings sbox).peak.elim 0 Nat.cast : Int) = (readings sbox).peak.getD 0 := by
    cases (readings sbox).peak <;> rfl
  have hint : ((dieMax sbox).toNat : Int) = _ := hfold
  rw [Readings.peak] at hpeak
  rw [hpeak] at hint
  simp only [Readings.peak]
  have hzero : (0 : UInt32).toNat = 0 := rfl
  omega

end dies

/-! ## the agent's files -/

section files

variable {fs : Card.Files} {hw path : List UInt8} {n channel : Nat}

theorem isText_of_isAscii {bs : List UInt8} (h : ∀ b ∈ bs, IsAscii b) : IsText bs := by
  induction bs with
  | nil => exact isText_nil
  | cons b bs ih =>
      exact (h b List.mem_cons_self).isText_cons.2 (ih fun x hx => h x (List.mem_cons_of_mem b hx))

theorem isWord_of_isDigit {b : UInt8} (h : IsDigit b) : Card.isWord b = true :=
  Card.isWord_of_lt (UInt8.lt_of_lt_of_le (by decide) h.1)

/-- The text of a number comes out of a line of its own. -/
theorem trim_line : Card.trim (decimal n ++ [10]) = decimal n := by
  have hword : ∀ b ∈ decimal n, ¬ Card.isSpace b = true := fun b hb => by
    simpa [Card.isWord] using isWord_of_isDigit (isDigit_decimal hb)
  have hspace : Card.isSpace 10 = true := by decide
  obtain ⟨b, bs, hbs⟩ := List.exists_cons_of_ne_nil (decimal_ne_nil n)
  have hfirst : ¬ Card.isSpace b = true := hword b (hbs ▸ List.mem_cons_self)
  have hdrop : (decimal n ++ [10]).dropWhile Card.isSpace = decimal n ++ [10] := by
    rw [hbs, List.cons_append, List.dropWhile_cons_of_neg hfirst]
  rw [Card.trim, hdrop, List.rdropWhile_concat, if_pos hspace, List.rdropWhile_eq_self_iff]
  exact fun hne => hword _ (List.getLast_mem hne)

/-- A number is read back from its file. -/
theorem readSmall_line (hn : n < 10 ^ 20) (h : fs.file path = some (decimal n ++ [10])) :
    Card.readSmall fs path = decimal n := by
  have hlength : (decimal n).length ≤ 20 := by
    rw [decimal, List.length_map, Nat.length_toDigits_le_iff (by decide) (by decide)]
    exact hn
  have htake : (decimal n ++ [10]).take Card.smallCap = decimal n ++ [10] :=
    List.take_of_length_le (by simp [Card.smallCap]; omega)
  have htext : IsText (decimal n ++ [10]) := isText_of_isAscii fun b hb => by
    rcases List.mem_append.1 hb with hb | hb
    · exact Nat.lt_of_le_of_lt (UInt8.le_iff_toNat_le.1 (isDigit_decimal hb).2) (by decide)
    · rw [List.mem_singleton.1 hb]; decide
  have hok : Rpc.utf8Ok (decimal n ++ [10]) = true := by
    rw [Rpc.utf8Ok_eq]
    exact isSome_decode_iff_isText.2 htext
  rw [Card.readSmall, Card.readText, h]
  dsimp only
  rw [htake, if_pos hok, trim_line]

theorem readSmall_none (h : fs.file path = none) : Card.readSmall fs path = [] := by
  rw [Card.readSmall, Card.readText, h]
  rfl

theorem unsigned_decimal : unsigned (decimal n) = decimal n := by
  obtain ⟨b, bs, hbs⟩ := List.exists_cons_of_ne_nil (decimal_ne_nil n)
  have hdigit : IsDigit b := isDigit_decimal (hbs ▸ List.mem_cons_self)
  have hplus : b ≠ 43 := by
    rintro rfl
    exact absurd hdigit.1 (by decide)
  rw [hbs, unsigned_cons, if_neg hplus]

theorem parseI64_decimal (hn : n < 2 ^ 63) :
    (Card.parseI64 (decimal n)).map Int64.toInt = some (n : Int) := by
  have hnat : natOf (decimal n) = some n := natOf_eq_some_iff.2
    ⟨by rw [unsigned_decimal]; exact ⟨decimal_ne_nil n, fun b hb => isDigit_decimal hb⟩,
      by rw [unsigned_decimal, value_decimal]⟩
  obtain ⟨b, bs, hbs⟩ := List.exists_cons_of_ne_nil (decimal_ne_nil n)
  have hdigit : IsDigit b := isDigit_decimal (hbs ▸ List.mem_cons_self)
  have hminus : b ≠ 45 := by
    rintro rfl
    exact absurd hdigit.1 (by decide)
  rw [Card.parseI64_eq, fromStrSigned_eq_some_iff]
  refine ⟨?_, by omega, by omega⟩
  rw [hbs] at hnat ⊢
  rw [intOf, if_neg hminus, hnat]
  rfl

theorem parseU32_decimal (hn : n < 2 ^ 32) :
    Card.parseU32 (decimal n) = some (UInt32.ofNat n) := by
  have hv : (UInt64.ofNat n).toNat = n := UInt64.toNat_ofNat_of_lt' (show n < 2 ^ 64 by omega)
  have hle : ¬ (0xffffffff : UInt64) < UInt64.ofNat n := by
    rw [UInt64.lt_iff_toNat_lt, hv]
    show ¬ 0xffffffff < n
    omega
  rw [Card.parseU32, Card.parseU64_decimal (by omega)]
  dsimp only
  rw [if_neg hle]
  refine congrArg some (UInt32.toNat_inj.1 ?_)
  rw [UInt64.toNat_toUInt32, hv, UInt32.toNat_ofNat']

/-- A whole number of degrees, from thousandths and as the sample holds it. -/
theorem toInt_degrees (h : n < 1024) : (Int16.ofNat n).toInt = n := by
  have hsize : Int16.size = 2 ^ 16 := rfl
  rw [Int16.toInt_ofNat', hsize, Int.bmod_eq_of_le (by omega) (by omega)]

theorem millideg_line {tail : String} {t : Option Nat} (ht : ∀ n ∈ t, n < 1024)
    (h : fs.file (hw ++ bytes "/temp" ++ decimal channel ++ bytes tail) =
      t.map fun n => decimal (n * 1000) ++ [10]) :
    Card.millideg fs hw channel tail = Readings.degrees t := by
  cases t with
  | none =>
      rw [Card.millideg, readSmall_none h]
      rfl
  | some n =>
      have hn : n < 1024 := ht n rfl
      have hparse := parseI64_decimal (show n * 1000 < 2 ^ 63 by omega)
      obtain ⟨v, hv, hint⟩ := Option.map_eq_some_iff.1 hparse
      rw [Card.millideg, readSmall_line (by omega) h, hv]
      dsimp only
      refine Int16.toInt_inj.1 ?_
      have hthousand : (1000 : Int64).toInt = 1000 := rfl
      have hdiv : (v / 1000).toInt = n := by
        rw [Int64.toInt_div, hint, hthousand, Int.tdiv_eq_ediv_of_nonneg (by omega),
          Int.bmod_eq_of_le (by omega) (by omega)]
        omega
      rw [Int64.toInt_toInt16, hdiv, Int.bmod_eq_of_le (by omega) (by omega)]
      exact (toInt_degrees hn).symm

end files

/-! ## the sample -/

section sample

variable {fs : Card.Files} {hw : List UInt8} {sbox : Sbox}

/-- `knc_temp` gives the readings, one channel after the other. -/
theorem kncTemp_eq : (List.range 15).map (kncTemp sbox) =
    (readings sbox).temps.map fun t => (t.elim (-1) Nat.cast : Int) := by
  have hsplit : List.range 15 = List.range 9 ++ [9, 10, 11, 12, 13, 14] := rfl
  have hvddg : (bits 19 12 (sbox statusFan2)).toNat = field (sbox statusFan2) 12 8 :=
    toNat_bits rfl (by decide) rfl
  have hlow : ∀ v, validBits 15 8 0 v = ((valid v 15 0 9).elim (-1) Nat.cast : Int) := fun v =>
    validBits_eq rfl rfl (by decide) rfl
  have hhigh : ∀ v, validBits 31 24 16 v = ((valid v 31 16 9).elim (-1) Nat.cast : Int) :=
    fun v => validBits_eq rfl rfl (by decide) rfl
  have htmu : ∀ v, validBits 31 30 22 v = ((valid v 31 22 9).elim (-1) Nat.cast : Int) := fun v =>
    validBits_eq rfl rfl (by decide) rfl
  rw [hsplit, List.map_append, Readings.temps, List.map_append]
  congr 1
  · simp only [readings, List.map_map]
    refine List.map_congr_left fun i hi => ?_
    unfold kncTemp
    rw [if_pos (List.mem_range.1 hi)]
    exact nonzero_eq (toNat_dieField sbox)
  · simp [kncTemp, readings, hlow, hhigh, htmu, hvddg]

theorem kncTempMax_eq : (List.range 9).map (kncTempMax sbox) =
    (readings sbox).dieMax.map fun t => (t.elim (-1) Nat.cast : Int) := by
  simp only [readings, List.map_map]
  refine List.map_congr_left fun i hi => ?_
  rw [kncTempMax, if_neg (Nat.not_le.2 (List.mem_range.1 hi))]
  exact nonzero_eq (toNat_dieField sbox)

/-- A field of at most ten bits is below 1024. -/
theorem valid_lt {v : UInt32} {b lo w n : Nat} (hw : w ≤ 10) (h : n ∈ valid v b lo w) :
    n < 1024 := by
  unfold valid at h
  split at h
  · cases h
    exact field_lt.trans_le (Nat.pow_le_pow_right (by decide) hw)
  · cases h

theorem dieReading_lt {first i n : Nat} (h : n ∈ dieReading sbox first i) : n < 1024 := by
  unfold dieReading nonzero at h
  split at h
  · cases h
  · cases h
    exact field_lt

theorem temps_lt : ∀ t ∈ (readings sbox).temps, ∀ n ∈ t, n < 1024 := by
  intro t ht n hn
  simp only [Readings.temps, readings, List.mem_append, List.mem_map, List.mem_cons,
    List.not_mem_nil, or_false] at ht
  obtain ⟨i, -, rfl⟩ | rfl | rfl | rfl | rfl | rfl | rfl := ht
  · exact dieReading_lt hn
  · exact valid_lt (by decide) hn
  · exact valid_lt (by decide) hn
  · exact valid_lt (by decide) hn
  · exact valid_lt (by decide) hn
  · cases hn
    exact field_lt.trans (by decide)
  · exact valid_lt (by decide) hn

theorem dieMax_lt : ∀ t ∈ (readings sbox).dieMax, ∀ n ∈ t, n < 1024 := by
  intro t ht n hn
  obtain ⟨i, -, rfl⟩ := List.mem_map.1 ht
  exact dieReading_lt hn

/-- The file of a temperature. -/
theorem attrFile_temp (t : Option Nat) :
    attrFile (if (t.elim (-1) Nat.cast : Int) < 0 then .error .noData
      else .ok ((t.elim (-1) Nat.cast : Int) * 1000)) =
        t.map fun n => decimal (n * 1000) ++ [10] := by
  cases t with
  | none => rfl
  | some n =>
      rw [Option.elim_some, if_neg (Int.not_lt.2 (Int.natCast_nonneg n))]
      rfl

/-- The agent's reading of a list of channels, each with its file. -/
theorem millidegs_eq {tail : String} {ts : List (Option Nat)} (val : Nat → Int) {k : Nat}
    (hval : (List.range k).map val = ts.map fun t => (t.elim (-1) Nat.cast : Int))
    (hlt : ∀ t ∈ ts, ∀ n ∈ t, n < 1024)
    (hfile : ∀ i < k, fs.file (hw ++ bytes "/temp" ++ decimal (i + 1) ++ bytes tail) =
      attrFile (if val i < 0 then .error .noData else .ok (val i * 1000))) :
    (List.range k).map (fun i => Card.millideg fs hw (i + 1) tail) = ts.map Readings.degrees := by
  have hlen : ts.length = k := by simpa using (congrArg List.length hval).symm
  refine List.ext_getElem (by simp [hlen]) fun i hi _ => ?_
  have hik : i < k := by simpa using hi
  have hi' : i < ts.length := hlen ▸ hik
  have hv : val i = (ts[i].elim (-1) Nat.cast : Int) := by
    have := congrArg (·[i]?) hval
    simpa [hik, hi'] using this
  simp only [List.getElem_map, List.getElem_range]
  refine millideg_line (hlt _ (List.getElem_mem hi')) ?_
  rw [hfile i hik, hv, attrFile_temp]

/-- The highest maximum, which is -1 where there is none. -/
theorem tempPeak_eq (hs : Shown fs hw sbox) :
    ((List.range 9).map fun i => Card.millideg fs hw (i + 1) "_max").foldl Card.higher (-32768) =
      Readings.degrees (readings sbox).peak := by
  have hkey : ∀ t : Option Nat, (∀ n ∈ t, n < 1024) →
      (Readings.degrees t).toInt = (t.elim (-1) Nat.cast : Int) := by
    intro t ht
    cases t with
    | none => rfl
    | some n => exact toInt_degrees (ht n rfl)
  have hhigher : ∀ a b : Int16, (Card.higher a b).toInt = max a.toInt b.toInt := by
    intro a b
    have hle : b ≤ a ↔ b.toInt ≤ a.toInt := Int16.le_iff_toInt_le
    unfold Card.higher
    by_cases h : b.toInt ≤ a.toInt
    · rw [if_pos (hle.2 h), max_eq_left h]
    · rw [if_neg (mt hle.1 h), max_eq_right (not_le.1 h).le]
  have hpeak : ∀ n ∈ (readings sbox).peak, n < 1024 := by
    intro n hn
    have hmem : n ∈ (readings sbox).dieMax.reduceOption := List.max?_mem hn
    exact dieMax_lt _ (List.reduceOption_mem_iff.1 hmem) n rfl
  rw [millidegs_eq (kncTempMax sbox) kncTempMax_eq dieMax_lt hs.max]
  have hkeys : ((readings sbox).dieMax.map Readings.degrees).map Int16.toInt =
      (readings sbox).dieMax.map fun t => (t.elim (-1) Nat.cast : Int) := by
    rw [List.map_map]
    exact List.map_congr_left fun t ht => hkey t (dieMax_lt t ht)
  have hfold := foldl_key Int16.toInt Card.higher hhigher (by decide) hkeys (by simp [readings])
    (-32768)
  refine Int16.toInt_inj.1 ?_
  rw [hfold, hkey _ hpeak, ← Readings.peak]
  refine max_eq_right ?_
  have hmin : (-32768 : Int16).toInt = -32768 := rfl
  rw [hmin]
  cases (readings sbox).peak with
  | none => decide
  | some n => exact le_trans (by decide) (Int.natCast_nonneg n)

theorem vcore_eq (hs : Shown fs hw sbox) :
    (Card.parseU32 (Card.readSmall fs (hw ++ bytes "/in0_input"))).getD 0 =
      UInt32.ofNat ((readings sbox).vcore.getD 0) := by
  have hcode : (bits 7 0 (sbox corevolt)).toNat = field (sbox corevolt) 0 8 :=
    toNat_bits rfl (by decide) rfl
  have hlt : field (sbox corevolt) 0 8 < 2 ^ 8 := field_lt
  have hfile := hs.voltage
  simp only [kncRead, hcode, ne_eq, not_true_eq_false, if_false] at hfile
  simp only [readings, nonzero]
  generalize field (sbox corevolt) 0 8 = code at hfile hlt
  by_cases hz : code = 0
  · subst hz
    rw [readSmall_none hfile]
    rfl
  · have hmv : (250 + 5 * ((code : Int) - 1)) = ((250 + 5 * (code - 1) : Nat) : Int) := by omega
    rw [if_neg (by omega), hmv] at hfile
    rw [readSmall_line (by omega) hfile, parseU32_decimal (by omega), if_neg hz]
    rfl

/-- The clock of any code is below a million MHz. -/
theorem clockKhz_le {ratio icc k : Nat} (h : k ∈ clockKhz ratio icc) : k ≤ 64000000 := by
  obtain ⟨⟨ff, most⟩, hff, h⟩ := Option.bind_eq_some_iff.1 h
  have hmost : most ≤ 16 := by
    unfold divider at hff
    split at hff <;> cases hff <;> decide
  dsimp only at h
  split at h
  · next hin =>
      cases h
      refine (Nat.div_le_self _ _).trans ?_
      have hdiv := Nat.div_le_self (200000 * (ratio / 2 % 256)) ff
      omega
  · cases h

theorem coreMhz_eq (hs : Shown fs hw sbox) :
    (Card.parseU32 (Card.readSmall fs (hw ++ bytes "/core_mhz"))).getD 0 =
      UInt32.ofNat ((readings sbox).core.mhz.getD 0) := by
  have hcode : (bits 11 0 (sbox corefreq)).toNat = field (sbox corefreq) 0 12 :=
    toNat_bits rfl (by decide) rfl
  have hmhz : (kncRatioKhz sbox (bits 11 0 (sbox corefreq)) / 1000).toNat =
      (readings sbox).core.mhz.getD 0 := by
    rw [UInt64.toNat_div, kncRatioKhz_eq, hcode]
    simp only [readings, clock]
    cases clockKhz (field (sbox corefreq) 0 12) (field (sbox scratch4) 25 5) <;> rfl
  have hle : (readings sbox).core.mhz.getD 0 ≤ 64000 := by
    simp only [readings, clock]
    cases hk : clockKhz (field (sbox corefreq) 0 12) (field (sbox scratch4) 25 5) with
    | none => decide
    | some k =>
        have hkhz := clockKhz_le hk
        show k / 1000 ≤ 64000
        omega
  have hfile := hs.clock
  rw [coreMhzShow, hmhz] at hfile
  rw [readSmall_line (by omega) hfile, parseU32_decimal (by omega)]
  rfl

/-- The agent's sample holds the readings. -/
theorem sensors_sent (hs : Shown fs hw sbox) :
    Card.sensors fs (some hw) = (readings sbox).sent := by
  simp only [Card.sensors, Card.tempChannels, Card.dieChannels, Readings.sent,
    millidegs_eq (kncTemp sbox) kncTemp_eq temps_lt hs.input, tempPeak_eq hs, vcore_eq hs,
    coreMhz_eq hs]

/-- A reading and the end of its line. -/
theorem shown_line {unit : String} (t : Option Nat) :
    Readings.shown unit t ++ [10] =
      match t with
      | some n => decimal n ++ (bytes unit ++ [10])
      | none => bytes "n/a\n" := by
  cases t with
  | none => rfl
  | some n => exact List.append_assoc _ _ _

theorem tmu_eq (v : UInt32) :
    (if v &&& (1 : UInt32) <<< 31 = 0 then bytes "n/a\n"
      else decimal ((v >>> 22) &&& 0x1ff).toNat ++ bytes " C\n") =
      Readings.shown " C" (valid v 31 22 9) ++ [10] := by
  have hbit : v &&& (1 : UInt32) <<< 31 = 0 ↔ field v 31 1 ≠ 1 := and_bit_eq_zero_iff rfl
  have hfield : (v >>> 22 &&& 0x1ff).toNat = field v 22 9 := toNat_shift_and rfl (by decide) rfl
  rw [shown_line]
  unfold valid
  simp only [hbit, hfield, ite_not]
  split <;> rfl

theorem voltText_eq : voltText sbox =
    bytes "core voltage: " ++ (Readings.shown " mV" (readings sbox).vcore ++ [10]) := by
  have hcode : (sbox corevolt &&& 0xff).toNat = field (sbox corevolt) 0 8 := toNat_and_mask rfl
  have hz : sbox corevolt &&& 0xff = 0 ↔ (sbox corevolt &&& 0xff).toNat = 0 :=
    UInt32.toNat_inj.symm
  have hmv : sbox corevolt &&& 0xff ≠ 0 → (250 + ((sbox corevolt &&& 0xff) - 1) * 5).toNat =
      250 + 5 * (field (sbox corevolt) 0 8 - 1) := by
    intro hne
    have hlt : field (sbox corevolt) 0 8 < 2 ^ 8 := field_lt
    have hpos : (1 : UInt32) ≤ sbox corevolt &&& 0xff :=
      UInt32.le_iff_toNat_le.2 (Nat.one_le_iff_ne_zero.2 (mt hz.2 hne))
    rw [UInt32.toNat_add, UInt32.toNat_mul, UInt32.toNat_sub_of_le _ _ hpos, hcode]
    simp only [UInt32.reduceToNat]
    omega
  rw [shown_line]
  unfold voltText
  simp only [readings, nonzero, ← hcode] at hmv ⊢
  by_cases h : sbox corevolt &&& 0xff = 0
  · rw [if_pos h, if_pos (hz.1 h)]
    rfl
  · rw [if_neg h, if_neg (mt hz.2 h), hmv h]
    rfl

theorem boardText_eq : boardText sbox =
    bytes "board: inlet " ++ Readings.shown " C" (readings sbox).inlet ++
    bytes ", vccp regulator " ++ Readings.shown " C" (readings sbox).vccpVr ++
    bytes ", gddr " ++ Readings.shown " C" (readings sbox).gddr ++
    bytes ", gddr regulator " ++ Readings.shown " C" (readings sbox).gddrVr ++
    bytes ", vddg regulator " ++ decimal (readings sbox).vddgVr ++
    bytes " C, tmu die " ++ (Readings.shown " C" (readings sbox).tmuDie ++ [10]) := by
  have hvddg : (sbox statusFan2 >>> 12 &&& 0xff).toNat = field (sbox statusFan2) 12 8 :=
    toNat_shift_and rfl (by decide) rfl
  have hhigh : ∀ v : UInt32, valid (v >>> 16) 15 0 9 = valid v 31 16 9 := fun v =>
    valid_shift rfl (by decide)
  rw [boardText, tmu_eq, hvddg]
  simp only [wOptTemp_eq, hhigh, readings]

/-- Label 1's loop puts a blank between the nine readings. -/
theorem diesText_eq : (List.range 9).flatMap (dieText sbox) =
    (bytes " ").intercalate ((readings sbox).die.map (Readings.shown "")) := by
  have hsep := @flatMap_range_eq_intercalate [32]
    (fun i => Readings.shown "" (dieReading sbox currentDieTemp0 i)) 8
  have hspace : bytes " " = [32] := rfl
  rw [funext (dieText_eq sbox), hsep, hspace]
  simp only [readings, List.map_map]
  rfl

/-- The host's text tells the readings. -/
theorem sensorsText_told : sensorsText sbox = (readings sbox).told := by
  have hvolt : bytes "\ncore voltage: " = 10 :: bytes "core voltage: " := rfl
  have hclock : bytes "\ncore clock: " = 10 :: bytes "core clock: " := rfl
  have hcore : wKhz (sbox corefreq) (sbox scratch4) = Readings.showClock (readings sbox).core :=
    wKhz_eq sbox corefreq
  have hratio : wKhz (sbox currentClkRatio) (sbox scratch4) =
      Readings.showClock (readings sbox).ratio := wKhz_eq sbox currentClkRatio
  unfold sensorsText Readings.told
  simp only [diesText_eq, dieMax_eq, boardText_eq, voltText_eq, hcore, hratio, hvolt, hclock,
    List.append_assoc, List.cons_append, List.nil_append]

end sample

/-! ## both sides -/

/-- **The card and the host tell the same readings**: whatever the registers hold,
the host's text is that of the readings, and the sample that the agent takes through
the kernel's files holds the same ones. -/
theorem sensors_agree {fs : Card.Files} {hw : List UInt8} {sbox : Sbox} (hs : Shown fs hw sbox) :
    sensorsText sbox = (readings sbox).told ∧
      Card.sensors fs (some hw) = (readings sbox).sent :=
  ⟨sensorsText_told, sensors_sent hs⟩

/-- Some registers: a die at 45 degrees that was at 80, a voltage and a clock. -/
def someSbox : Sbox := fun offset =>
  if offset = currentDieTemp0 then 45
  else if offset = maxDieTemp0 then 80
  else if offset = corevolt then 0x55
  else if offset = corefreq then 0x416
  else 0

def someFiles : Card.Files where
  file path := ([("/hw/temp1_input", "45000\n"), ("/hw/temp1_max", "80000\n"),
    ("/hw/temp14_input", "0\n"), ("/hw/in0_input", "670\n"), ("/hw/core_mhz", "1100\n")].map
      fun e => (bytes e.1, bytes e.2)).lookup path
  names := fun _ => none

theorem sensors_agree_some :
    sensorsText someSbox = (readings someSbox).told ∧
      Card.sensors someFiles (some (bytes "/hw")) = (readings someSbox).sent :=
  sensors_agree
    { input := by decide +kernel
      max := by decide +kernel
      voltage := by decide +kernel
      clock := by decide +kernel }

end Phi.Dev.Sensors
