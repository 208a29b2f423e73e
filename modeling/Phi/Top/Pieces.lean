import Phi.Lib.Decimal
import Phi.Lib.Terminal
import Phi.Lib.Utf8

/-!
# Phi.Top.Pieces

The pieces that the lines of a frame are put together from (`view.S`, and the
number formats of `text.S`).

A piece is the bytes its routine puts at the write cursor; none of them is
checked against the room left.  Each has a bound of its own and is quiet.
-/

namespace Phi.Top

open Decimal Terminal Utf8

/-! ## numbers -/

/-- `w_num`: decimal, right-aligned in `width`. -/
def wNum (n : UInt64) (width : Nat) (pad : UInt8) : List UInt8 :=
  let digits := decimal n.toNat
  List.replicate (width - digits.length) pad ++ digits

/-- `w_dec`. -/
def wDec (n : UInt64) : List UInt8 := wNum n 0 0

/-- `w_fixed`: `value / scale` with that many decimals. -/
def wFixed (value : UInt64) (scale : UInt32) (decimals : Nat) : List UInt8 :=
  let scale := scale.toUInt64
  wDec (value / scale) ++
    if decimals = 0 then []
    else 46 :: wNum (value % scale * 10 ^ decimals / scale) decimals 48

/-- `w_fixed_r`: rounded. -/
def wFixedR (value : UInt64) (scale : UInt32) (decimals : Nat) : List UInt8 :=
  wFixed (value + (scale.toUInt64 / 10 ^ decimals) >>> 1) scale decimals

/-- `w_tenths`. -/
def wTenths (n : UInt64) : List UInt8 := wFixed n 10 1

/-- `w_load`. -/
def wLoad (n : UInt16) : List UInt8 := wFixed n.toUInt64 100 2

/-- `w_vpu_ms`. -/
def wVpuMs (ns : UInt64) : List UInt8 := wFixedR ns 1000000 3

/-- `w_temp`. -/
def wTemp (t : Int16) : List UInt8 :=
  if t < 0 then bytes "--" else wDec t.toInt64.toUInt64

/-- `w_rate`. -/
def wRate (n : UInt64) : List UInt8 :=
  if 1000000000 ≤ n then wFixedR n 1000000000 2 ++ bytes " GB/s"
  else if 1000000 ≤ n then wFixedR n 1000000 1 ++ bytes " MB/s"
  else if 1000 ≤ n then wFixedR n 1000 1 ++ bytes " kB/s"
  else wDec n ++ bytes " B/s"

/-- `w_mib`. -/
def wMib (kb : UInt64) : List UInt8 :=
  if 10 * 1024 * 1024 ≤ kb then wFixedR kb 1048576 1 ++ bytes " GiB"
  else if 10 * 1024 ≤ kb then wDec (kb >>> 10) ++ bytes " MiB"
  else wDec kb ++ bytes " KiB"

/-- `w_hms`. -/
def wHms (ms : UInt64) : List UInt8 :=
  let seconds := ms / 1000
  wDec (seconds / 3600) ++ 58 :: wNum (seconds / 60 % 60) 2 48 ++ 58 :: wNum (seconds % 60) 2 48

/-- `vpu_kinds`. -/
def vpuKinds : List String :=
  ["none", "poly", "exec", "upload", "matmul", "free", "matmul_id", "ffn", "matmul_more"]

/-- `w_vpu_kind`. -/
def wVpuKind (kind : UInt64) : List UInt8 :=
  match vpuKinds[kind.toNat]? with
  | some name => bytes name
  | none => wDec kind

/-! ## shapes -/

/-- `w_pad`. -/
def wPad (n : Nat) (b : UInt8) : List UInt8 := List.replicate n b

/-- `w_left`: spaces up to `width` behind. -/
def wLeft (bs : List UInt8) (width : Nat) : List UInt8 := bs ++ wPad (width - bs.length) 32

/-- `tmp_right`: spaces up to `width` in front. -/
def tmpRight (bs : List UInt8) (width : Nat) : List UInt8 := wPad (width - bs.length) 32 ++ bs

/-- `w_cstr` of a buffer with these bytes and a NUL. -/
def wCstr (bs : List UInt8) : List UInt8 := bs.takeWhile (· ≠ 0)

/-- `w_bar`: `none` where it divides by zero. -/
def wBar (num den width : UInt64) : Option (List UInt8) :=
  let den := if den = 0 then 1 else den
  let num := if num ≤ den then num else den
  if den + den = 0 then none
  else
    let filled := (num * width + num * width + den) / (den + den)
    let filled := if filled ≤ width then filled else width
    some (91 :: wPad filled.toNat 35 ++ wPad (width.toNat - filled.toNat) 46 ++ [93])

/-- `w_fg`. -/
def wFg (color : UInt64) : List UInt8 := [27, 91, 51, 56, 59, 53, 59] ++ wDec color ++ [109]

/-- `color_of`. -/
def colorOf (load : UInt64) : UInt64 :=
  if load < 200 then 240
  else if load < 2500 then 34
  else if load < 5000 then 70
  else if load < 7500 then 178
  else if load < 9000 then 208
  else 196

/-- `w_level`: the eighth block. -/
def wLevel (load : UInt64) : List UInt8 :=
  let load := if load ≤ 10000 then load else 10000
  let level := (load * 8 + 5000) / 10000
  let level := if level ≤ 8 then level else 8
  if level = 0 then [32] else [0xe2, 0x96, 0x80 + level.toUInt8]

/-! ## numbers, in bytes -/

theorem le_of_isDigit {b : UInt8} (h : IsDigit b) : 32 ≤ b :=
  UInt8.le_trans (by decide) h.1

theorem shows_byte {b : UInt8} (hb : 32 ≤ b) : Shows 1 [] [b] :=
  shows_of_quiet (Nat.le_refl 1) (quiet_of_le (by simpa using hb))

theorem shows_wNum (n : UInt64) {width : Nat} (hwidth : width ≤ 20) {pad : UInt8}
    (hpad : 0 < width → 32 ≤ pad) : Shows 20 [] (wNum n width pad) := by
  have hdigits : (decimal n.toNat).length ≤ 20 := by
    rw [decimal, List.length_map, Nat.length_toDigits_le_iff (by decide) (by decide)]
    exact Nat.lt_trans n.toNat_lt (by decide)
  refine shows_of_quiet ?_ (quiet_of_le fun b hb => ?_)
  · simp only [wNum, List.length_append, List.length_replicate]
    omega
  · rcases List.mem_append.1 hb with hb | hb
    · obtain ⟨hne, rfl⟩ := List.mem_replicate.1 hb
      exact hpad (by omega)
    · exact le_of_isDigit (isDigit_decimal hb)

theorem wDec_eq (n : UInt64) : wDec n = decimal n.toNat := by
  simp [wDec, wNum]

theorem shows_wDec (n : UInt64) : Shows 20 [] (wDec n) := shows_wNum n (by decide) nofun

theorem shows_wFixed (value : UInt64) (scale : UInt32) {decimals : Nat} (h : decimals ≤ 20) :
    Shows 41 [] (wFixed value scale decimals) := by
  refine (shows_wDec _).append (n := 21) ?_
  split
  · exact shows_of_quiet (Nat.zero_le _) quiet_nil
  · exact (shows_byte (b := 46) (by decide)).append (shows_wNum _ h fun _ => by decide)

/-- A number with its unit. -/
theorem shows_unit {m : Nat} {xs : List UInt8} {s : String} (h : Shows m [] xs)
    (hm : m ≤ 41) (hs : (bytes s).length ≤ 5 ∧ Quiet (bytes s)) : Shows 46 [] (xs ++ bytes s) :=
  (h.mono hm).append (shows_of_quiet hs.1 hs.2)

theorem shows_wRate (n : UInt64) : Shows 46 [] (wRate n) := by
  unfold wRate
  split_ifs
  · exact shows_unit (shows_wFixed _ _ (by decide)) (by decide) (by decide)
  · exact shows_unit (shows_wFixed _ _ (by decide)) (by decide) (by decide)
  · exact shows_unit (shows_wFixed _ _ (by decide)) (by decide) (by decide)
  · exact shows_unit (shows_wDec n) (by decide) (by decide)

theorem shows_wMib (kb : UInt64) : Shows 46 [] (wMib kb) := by
  unfold wMib
  split_ifs
  · exact shows_unit (shows_wFixed _ _ (by decide)) (by decide) (by decide)
  · exact shows_unit (shows_wDec _) (by decide) (by decide)
  · exact shows_unit (shows_wDec _) (by decide) (by decide)

theorem shows_wHms (ms : UInt64) : Shows 62 [] (wHms ms) := by
  have htwo (n : UInt64) : Shows 21 [] (58 :: wNum n 2 48) :=
    (shows_byte (b := 58) (by decide)).append (shows_wNum n (by decide) fun _ => by decide)
  exact (((shows_wDec _).append (htwo _)).append (htwo _))

/-! ## shapes, in bytes -/

theorem shows_wPad (n : Nat) {b : UInt8} (hb : 32 ≤ b) : Shows n [] (wPad n b) :=
  shows_of_quiet (by simp [wPad]) (quiet_of_le fun _ hc => (List.eq_of_mem_replicate hc).symm ▸ hb)

theorem shows_wLeft {n : Nat} {bs : List UInt8} (h : Shows n [] bs) (width : Nat) :
    Shows (n + width) [] (wLeft bs width) :=
  h.append ((shows_wPad _ (by decide)).mono (Nat.sub_le _ _))

theorem shows_tmpRight {n : Nat} {bs : List UInt8} (h : Shows n [] bs) (width : Nat) :
    Shows (width + n) [] (tmpRight bs width) :=
  ((shows_wPad _ (by decide)).mono (Nat.sub_le _ _)).append h

theorem length_wCstr_le (bs : List UInt8) : (wCstr bs).length ≤ bs.length :=
  (List.takeWhile_prefix _).length_le

/-- The bar is as wide as it is asked to be. -/
theorem shows_wBar {num den width : UInt64} {bs : List UInt8} (h : wBar num den width = some bs) :
    Shows (width.toNat + width.toNat + 2) [] bs := by
  unfold wBar at h
  extract_lets den num filled filled' at h
  have hfilled : filled'.toNat ≤ width.toNat := by
    unfold filled'
    split
    · next hle => exact UInt64.le_iff_toNat_le.1 hle
    · exact Nat.le_refl _
  have hbar : Shows (1 + filled'.toNat + (width.toNat - filled'.toNat) + 1) []
      (91 :: wPad filled'.toNat 35 ++ wPad (width.toNat - filled'.toNat) 46 ++ [93]) :=
    .append (.append (.append (shows_byte (b := 91) (by decide)) (shows_wPad _ (by decide)))
      (shows_wPad _ (by decide))) (shows_byte (by decide))
  split at h
  · cases h
  · rw [← Option.some.inj h]
    exact hbar.mono (by omega)

/-- Twice the denominator is nothing in a word. -/
theorem wBar_eq_none_iff (num den width : UInt64) :
    wBar num den width = none ↔ den = 9223372036854775808 := by
  unfold wBar
  extract_lets den' num' filled filled'
  have hden : den' + den' = 0 ↔ den = 9223372036854775808 := by
    have hlt := den.toNat_lt
    unfold den'
    split
    · next h0 => simp [h0]
    · next h0 =>
        have hpos : den.toNat ≠ 0 := fun h => h0 (UInt64.toNat_inj.1 h)
        rw [← UInt64.toNat_inj, ← UInt64.toNat_inj, UInt64.toNat_add]
        show (den.toNat + den.toNat) % 2 ^ 64 = 0 ↔ den.toNat = 9223372036854775808
        omega
  rw [← hden]
  split <;> simp_all

theorem shows_wFg {color : UInt64} (h : color < 1000) : Shows 11 [] (wFg color) := by
  have hdigits : (decimal color.toNat).length ≤ 3 := by
    rw [decimal, List.length_map, Nat.length_toDigits_le_iff (by decide) (by decide)]
    exact UInt64.lt_iff_toNat_lt.1 h
  have hfixed : ([51, 56, 59, 53, 59] : List UInt8).all isParam = true := rfl
  have hparams : ∀ p ∈ [51, 56, 59, 53, 59] ++ wDec color, isParam p = true := by
    intro p hp
    rcases List.mem_append.1 hp with hp | hp
    · exact List.all_eq_true.1 hfixed p hp
    · rw [wDec_eq] at hp
      have hdigit := isDigit_decimal hp
      simpa [isParam, IsDigit] using Or.inl hdigit
  have hlength : (wFg color).length = (decimal color.toNat).length + 8 := by
    simp [wFg, wDec_eq]
  refine shows_of_quiet ?_ (quiet_sequence hparams)
  omega

theorem colorOf_lt (load : UInt64) : colorOf load < 1000 := by
  unfold colorOf
  split_ifs <;> decide

theorem shows_wLevel (load : UInt64) : Shows 3 [] (wLevel load) := by
  unfold wLevel
  extract_lets load level level'
  have hlevel : level'.toNat ≤ 8 := by
    unfold level'
    split
    · next hle => exact UInt64.le_iff_toNat_le.1 hle
    · decide
  split
  · exact (shows_byte (by decide)).mono (by decide)
  · have hblock : 32 ≤ 0x80 + level'.toUInt8 := by
      rw [UInt8.le_iff_toNat_le, UInt8.toNat_add, UInt64.toNat_toUInt8]
      show 32 ≤ (128 + level'.toNat % 256) % 256
      omega
    exact shows_of_quiet (Nat.le_refl 3) (quiet_of_le (by simpa using hblock))

/-! ## pieces of a line -/

/-- A piece of a line: at most 256 bytes, and quiet. -/
def Brief (bs : List UInt8) : Prop := Shows 256 [] bs

instance (bs : List UInt8) : Decidable (Brief bs) :=
  decidable_of_iff (bs.length ≤ 256 ∧ Quiet bs)
    ⟨fun h => shows_of_quiet h.1 h.2, fun h => ⟨h.length, h.quiet.2 nofun⟩⟩

/-- Pieces one behind the other. -/
theorem shows_flatten {n : Nat} {ps : List (List UInt8)} (hn : ps.length * 256 ≤ n)
    (h : ∀ p ∈ ps, Brief p) : Shows n [] ps.flatten := by
  have hall : Shows (ps.length * 256) [] (ps.flatMap id) := shows_flatMap h
  rw [List.flatMap_id] at hall
  exact hall.mono hn

@[simp] theorem brief_wDec (n : UInt64) : Brief (wDec n) := (shows_wDec n).mono (by decide)

@[simp] theorem brief_wTenths (n : UInt64) : Brief (wTenths n) :=
  (shows_wFixed n 10 (by decide)).mono (by decide)

@[simp] theorem brief_wLoad (n : UInt16) : Brief (wLoad n) :=
  (shows_wFixed _ 100 (by decide)).mono (by decide)

@[simp] theorem brief_wVpuMs (ns : UInt64) : Brief (wVpuMs ns) :=
  (shows_wFixed _ 1000000 (by decide)).mono (by decide)

@[simp] theorem brief_wTemp (t : Int16) : Brief (wTemp t) := by
  unfold wTemp
  split
  · decide
  · exact brief_wDec _

@[simp] theorem brief_wRate (n : UInt64) : Brief (wRate n) := (shows_wRate n).mono (by decide)

@[simp] theorem brief_wMib (kb : UInt64) : Brief (wMib kb) := (shows_wMib kb).mono (by decide)

@[simp] theorem brief_wHms (ms : UInt64) : Brief (wHms ms) := (shows_wHms ms).mono (by decide)

@[simp] theorem brief_wVpuKind (kind : UInt64) : Brief (wVpuKind kind) := by
  unfold wVpuKind
  split
  · next name h =>
      have hnames : ∀ name ∈ vpuKinds, Brief (bytes name) := by decide
      exact hnames name (List.mem_of_getElem? h)
  · exact brief_wDec kind

end Phi.Top
