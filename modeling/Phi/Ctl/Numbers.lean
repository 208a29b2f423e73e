import Phi.Lib.FromStr

/-!
# Phi.Ctl.Numbers

Numbers of the command line (`digits`, `parse_u64` and its kin of
`phictl/text.S`).

`digits` checks its multiplication and its addition for a carry, and the value
comes back with the digit read last still in `rcx`.
-/

namespace Phi.Ctl

open Decimal

/-! ## the code -/

/-- A digit of base 10 or 16. -/
def digitOf (r8 : UInt64) (b : UInt8) : Option UInt64 :=
  if b - 48 ≤ 9 then some (b - 48).toUInt64
  else if r8 ≠ 16 then none
  else if 5 < (b ||| 0x20) - 97 then none
  else some ((b ||| 0x20) - 97 + 10).toUInt64

/-- `digits`: `rax`, and `rcx` as it is left. -/
def digits (r8 rax rcx : UInt64) : List UInt8 → Option (UInt64 × UInt64)
  | [] => some (rax, rcx)
  | b :: bs => match digitOf r8 b with
      | none => none
      | some d =>
          if 2 ^ 64 ≤ rax.toNat * r8.toNat then none
          else if 2 ^ 64 ≤ rax.toNat * r8.toNat + d.toNat then none
          else digits r8 (rax * r8 + d) d bs

/-- `parse_u64`, with what it leaves in `rcx`. -/
def parseU64Rcx (rcx : UInt64) : List UInt8 → Option (UInt64 × UInt64)
  | [] => none
  | b :: bs =>
      if b = 43 then if bs = [] then none else digits 10 0 rcx bs else digits 10 0 rcx (b :: bs)

/-- `parse_u64`. -/
def parseU64 (text : List UInt8) : Option UInt64 := (parseU64Rcx 0 text).map Prod.fst

/-- A smaller type's range on top of `parse_u64`. -/
def narrow (max : UInt64) : Option UInt64 → Option UInt64
  | none => none
  | some rax => if max < rax then none else some rax

/-- `parse_u32`. -/
def parseU32 (text : List UInt8) : Option UInt64 := narrow 0xffffffff (parseU64 text)

/-- `parse_u16`. -/
def parseU16 (text : List UInt8) : Option UInt64 := narrow 0xffff (parseU64 text)

/-! ## decimal numbers -/

theorem digitOf_ten (b : UInt8) :
    digitOf 10 b = if IsDigit b then some (b - 48).toUInt64 else none := by
  have hle : b - 48 ≤ 9 ↔ IsDigit b := by rw [isDigit_iff, UInt8.not_lt]
  simp [digitOf, hle]

/-- `digits` reads every number that fits, and no other. -/
theorem digits_iff {rax rcx v c : UInt64} {bs : List UInt8} :
    digits 10 rax rcx bs = some (v, c) ↔ (∀ b ∈ bs, IsDigit b) ∧ value rax.toNat bs = v.toNat ∧
      c = bs.foldl (fun _ b => (b - 48).toUInt64) rcx := by
  induction bs generalizing rax rcx with
  | nil => simp [digits, UInt64.toNat_inj, eq_comm (a := c)]
  | cons b bs ih =>
      have hdigit : (b - 48).toUInt64.toNat = (b - 48).toNat := UInt8.toNat_toUInt64 _
      have hle := le_value (rax.toNat * 10 + (b - 48).toNat) bs
      have hv := v.toNat_lt
      rw [digits, digitOf_ten, forall_isDigit_cons, value_cons, List.foldl_cons]
      by_cases hb : IsDigit b
      · by_cases hfits : rax.toNat * 10 + (b - 48).toNat < 2 ^ 64
        · have hacc : (rax * 10 + (b - 48).toUInt64).toNat = rax.toNat * 10 + (b - 48).toNat := by
            rw [UInt64.toNat_add, UInt64.toNat_mul, hdigit]
            simp only [UInt64.reduceToNat]
            omega
          simp only [hb, if_true, true_and, hdigit, UInt64.reduceToNat]
          rw [if_neg (by omega), if_neg (by omega), ih, hacc]
        · have hbig : value (rax.toNat * 10 + (b - 48).toNat) bs ≠ v.toNat := by omega
          simp only [hb, if_true, hdigit, UInt64.reduceToNat]
          by_cases hmul : 2 ^ 64 ≤ rax.toNat * 10
          · rw [if_pos hmul]
            simp [hbig]
          · rw [if_neg hmul, if_pos (by omega)]
            simp [hbig]
      · simp [hb]

/-- The digit read last. -/
def lastDigit (rcx : UInt64) (text : List UInt8) : UInt64 :=
  (unsigned text).foldl (fun _ b => (b - 48).toUInt64) rcx

theorem parseU64Rcx_iff {rcx v c : UInt64} {text : List UInt8} :
    parseU64Rcx rcx text = some (v, c) ↔ natOf text = some v.toNat ∧ c = lastDigit rcx text := by
  rw [natOf_eq_some_iff, lastDigit]
  cases text with
  | nil => simp [parseU64Rcx, IsNumeral]
  | cons b bs =>
      rw [parseU64Rcx, unsigned_cons]
      split
      · split
        · next hnil => simp [hnil, IsNumeral]
        · next hne =>
            rw [digits_iff, IsNumeral]
            simp [hne, and_assoc]
      · rw [digits_iff, IsNumeral]
        simp [and_assoc]

theorem parseU64Rcx_of_natOf {rcx : UInt64} {text : List UInt8} {n : Nat}
    (h : natOf text = some n) (hn : n < 2 ^ 64) :
    parseU64Rcx rcx text = some (UInt64.ofNat n, lastDigit rcx text) := by
  rw [parseU64Rcx_iff, UInt64.toNat_ofNat_of_lt' hn]
  exact ⟨h, rfl⟩

theorem parseU64_iff {v : UInt64} {text : List UInt8} :
    parseU64 text = some v ↔ natOf text = some v.toNat := by
  rw [parseU64, Option.map_eq_some_iff]
  constructor
  · rintro ⟨⟨w, c⟩, h, rfl⟩
    exact (parseU64Rcx_iff.1 h).1
  · intro h
    exact ⟨(v, _), parseU64Rcx_iff.2 ⟨h, rfl⟩, rfl⟩

/-- `parse_u64` reads as `u64::from_str`. -/
theorem parseU64_eq (text : List UInt8) :
    (parseU64 text).map UInt64.toNat = fromStr 64 text := by
  refine Option.ext fun n => ?_
  rw [Option.map_eq_some_iff, fromStr_eq_some_iff]
  constructor
  · rintro ⟨v, hv, rfl⟩
    exact ⟨parseU64_iff.1 hv, v.toNat_lt⟩
  · rintro ⟨hn, hlt⟩
    refine ⟨UInt64.ofNat n, parseU64_iff.2 ?_, UInt64.toNat_ofNat_of_lt' hlt⟩
    rwa [UInt64.toNat_ofNat_of_lt' hlt]

/-- The smaller types read as their `from_str`. -/
theorem narrow_eq {w : Nat} (hw : w ≤ 64) {max : UInt64} (hmax : max.toNat = 2 ^ w - 1)
    (text : List UInt8) : (narrow max (parseU64 text)).map UInt64.toNat = fromStr w text := by
  have hpow : 2 ^ w ≤ 2 ^ 64 := Nat.pow_le_pow_right (by decide) hw
  have hpos : 0 < 2 ^ w := Nat.two_pow_pos w
  have hread := parseU64_eq text
  refine Option.ext fun n => ?_
  rw [fromStr_eq_some_iff]
  cases hparse : parseU64 text with
  | none =>
      rw [hparse] at hread
      simp only [narrow, Option.map_none, reduceCtorEq, false_iff]
      rintro ⟨hn, hlt⟩
      rw [fromStr_eq_some_iff.2 ⟨hn, by omega⟩] at hread
      cases hread
  | some rax =>
      have hrax : natOf text = some rax.toNat := parseU64_iff.1 hparse
      simp only [narrow, hrax, UInt64.lt_iff_toNat_lt, hmax, Option.some.injEq]
      split
      · simp only [Option.map_none, reduceCtorEq, false_iff]
        omega
      · simp only [Option.map_some, Option.some.injEq]
        omega

end Phi.Ctl
