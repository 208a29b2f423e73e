import Phi.Card.Scan
import Phi.Ctl.Numbers

/-!
# Phi.Card.Numbers

The numbers of the agent (`digits`, `parse_u64`, `parse_u32`, `parse_u16` and
`parse_i64` of `agent/text.S`), beside those of the host tools.

Both programs read as Rust does.
-/

namespace Phi.Card

open Decimal

/-! ## the code -/

/-- `parse_u16`. -/
def parseU16 (text : List UInt8) : Option UInt16 :=
  match parseU64 text with
  | none => none
  | some rax => if 0xffff < rax then none else some rax.toUInt16

/-- The smallest `i64`, as the register holds it. -/
def minI64 : UInt64 := 0x8000000000000000

/-- `parse_i64` from label 3 on: the digits, and the sign's range. -/
def signed (negative : Bool) (ds : List UInt8) : Option Int64 :=
  match digits 0 ds with
  | none => none
  | some rax =>
      if negative then if minI64 < rax then none else some (-rax).toInt64
      else if minI64 ≤ rax then none
      else some rax.toInt64

/-- `parse_i64`. -/
def parseI64 : List UInt8 → Option Int64
  | [] => none
  | b :: bs =>
      if b = 45 then if bs = [] then none else signed true bs
      else if b = 43 then if bs = [] then none else signed false bs
      else signed false (b :: bs)

/-! ## unsigned numbers -/

/-- The agent's digits are the host's in base ten. -/
theorem digits_eq (acc rcx : UInt64) (bs : List UInt8) :
    digits acc bs = (Ctl.digits 10 acc rcx bs).map Prod.fst := by
  induction bs generalizing acc rcx with
  | nil => rfl
  | cons b bs ih =>
      rw [digits, Ctl.digits, Ctl.digitOf_ten]
      by_cases hb : IsDigit b
      · have hdigit : (b - 48).toUInt64.toNat = (b - 48).toNat := UInt8.toNat_toUInt64 _
        rw [if_neg (isDigit_iff.1 hb), if_pos hb]
        simp only [hdigit, UInt64.reduceToNat]
        split
        · rfl
        · split
          · rfl
          · exact ih _ _
      · rw [if_pos (not_not.1 (mt isDigit_iff.2 hb)), if_neg hb]
        rfl

theorem parseU64_eq (text : List UInt8) : parseU64 text = Ctl.parseU64 text := by
  cases text with
  | nil => rfl
  | cons b bs =>
      rw [parseU64, Ctl.parseU64, Ctl.parseU64Rcx]
      split
      · split
        · rfl
        · exact digits_eq 0 0 bs
      · exact digits_eq 0 0 (b :: bs)

theorem digits_iff {v : UInt64} {bs : List UInt8} :
    digits 0 bs = some v ↔ (∀ b ∈ bs, IsDigit b) ∧ value 0 bs = v.toNat := by
  rw [digits_eq 0 0, Option.map_eq_some_iff]
  constructor
  · rintro ⟨⟨w, c⟩, h, rfl⟩
    obtain ⟨hall, hvalue, -⟩ := Ctl.digits_iff.1 h
    exact ⟨hall, hvalue⟩
  · rintro ⟨hall, hvalue⟩
    exact ⟨(v, _), Ctl.digits_iff.2 ⟨hall, hvalue, rfl⟩, rfl⟩

/-! ## signed numbers -/

/-- The number that the digits and the sign give. -/
def signedValue (negative : Bool) (ds : List UInt8) : Int :=
  if negative then -(value 0 ds : Int) else value 0 ds

theorem toInt_toInt64 (x : UInt64) : x.toInt64.toInt =
    if 2 * x.toNat < 2 ^ 64 then (x.toNat : Int) else x.toNat - 2 ^ 64 := rfl

theorem toInt_negative {rax : UInt64} (h : rax.toNat ≤ 2 ^ 63) :
    (-rax).toInt64.toInt = -(rax.toNat : Int) := by
  rw [toInt_toInt64, UInt64.toNat_neg]
  unfold UInt64.size
  split <;> omega

theorem toInt_positive {rax : UInt64} (h : rax.toNat < 2 ^ 63) :
    rax.toInt64.toInt = rax.toNat := by
  rw [toInt_toInt64, if_pos (by omega)]

/-- Digits behind a sign are read where the type holds the number. -/
theorem signed_iff {negative : Bool} {ds : List UInt8} {i : Int} :
    (signed negative ds).map Int64.toInt = some i ↔ (∀ b ∈ ds, IsDigit b) ∧
      signedValue negative ds = i ∧ -2 ^ 63 ≤ i ∧ i < 2 ^ 63 := by
  have hmin : minI64.toNat = 2 ^ 63 := rfl
  unfold signed signedValue
  cases hread : digits 0 ds with
  | none =>
      simp only [Option.map_none, reduceCtorEq, false_iff]
      rintro ⟨hall, hvalue, hlow, hhigh⟩
      have hlt : value 0 ds < 2 ^ 64 := by
        split at hvalue <;> omega
      have hsome : digits 0 ds = some (UInt64.ofNat (value 0 ds)) :=
        digits_iff.2 ⟨hall, (UInt64.toNat_ofNat_of_lt' hlt).symm⟩
      rw [hread] at hsome
      cases hsome
  | some rax =>
      obtain ⟨hall, hvalue⟩ := digits_iff.1 hread
      rw [hvalue]
      simp only [UInt64.lt_iff_toNat_lt, UInt64.le_iff_toNat_le, hmin]
      cases negative with
      | true =>
          simp only [if_true]
          split
          · simp only [Option.map_none, reduceCtorEq, false_iff]
            omega
          · next hle =>
              rw [Option.map_some, toInt_negative (Nat.not_lt.1 hle), Option.some.injEq]
              constructor
              · rintro rfl
                exact ⟨hall, rfl, by omega, by omega⟩
              · exact fun h => h.2.1
      | false =>
          simp only [Bool.false_eq_true, if_false]
          split
          · simp only [Option.map_none, reduceCtorEq, false_iff]
            omega
          · next hlt =>
              rw [Option.map_some, toInt_positive (Nat.not_le.1 hlt), Option.some.injEq]
              constructor
              · rintro rfl
                exact ⟨hall, rfl, by omega, by omega⟩
              · exact fun h => h.2.1

/-- A sign needs a digit behind it. -/
theorem signed_or_none_iff {negative : Bool} {ds : List UInt8} {i : Int} :
    (if ds = [] then none else signed negative ds).map Int64.toInt = some i ↔ IsNumeral ds ∧
      signedValue negative ds = i ∧ -2 ^ 63 ≤ i ∧ i < 2 ^ 63 := by
  unfold IsNumeral
  split
  · next h => simp [h]
  · next h =>
      rw [signed_iff]
      simp [h]

/-- `parse_i64` reads as `i64::from_str`. -/
theorem parseI64_eq (text : List UInt8) :
    (parseI64 text).map Int64.toInt = fromStrSigned 63 text := by
  refine Option.ext fun i => ?_
  rw [fromStrSigned_eq_some_iff]
  cases text with
  | nil => simp [parseI64, intOf]
  | cons b bs =>
      rw [parseI64, intOf]
      split
      · rw [signed_or_none_iff, signedValue]
        split <;> simp_all [and_assoc]
      · simp only [Option.map_eq_some_iff, natOf_eq_some_iff, unsigned_cons]
        split
        · rw [← Option.map_eq_some_iff, signed_or_none_iff, signedValue]
          simp [and_assoc]
        · have hne : (if b :: bs = [] then none else signed false (b :: bs)) =
              signed false (b :: bs) := if_neg (by simp)
          rw [← Option.map_eq_some_iff, ← hne, signed_or_none_iff, signedValue]
          simp [and_assoc]

/-! ## both programs -/

/-- **Numbers are read as Rust reads them**, in both programs: a text is taken
exactly where `from_str` of the type takes it, for the same number. -/
theorem numbers_as_rust (text : List UInt8) :
    (parseU64 text).map UInt64.toNat = fromStr 64 text ∧
      (parseU32 text).map UInt32.toNat = fromStr 32 text ∧
      (parseU16 text).map UInt16.toNat = fromStr 16 text ∧
      (parseI64 text).map Int64.toInt = fromStrSigned 63 text ∧
      (Ctl.parseU64 text).map UInt64.toNat = fromStr 64 text ∧
      (Ctl.parseU32 text).map UInt64.toNat = fromStr 32 text ∧
      (Ctl.parseU16 text).map UInt64.toNat = fromStr 16 text := by
  have h32 := Ctl.narrow_eq (show 32 ≤ 64 by decide)
    (show (0xffffffff : UInt64).toNat = 2 ^ 32 - 1 from rfl) text
  have h16 := Ctl.narrow_eq (show 16 ≤ 64 by decide)
    (show (0xffff : UInt64).toNat = 2 ^ 16 - 1 from rfl) text
  refine ⟨?_, ?_, ?_, parseI64_eq text, Ctl.parseU64_eq text, h32, h16⟩
  · rw [parseU64_eq, Ctl.parseU64_eq]
  · rw [parseU32, parseU64_eq, ← h32]
    cases Ctl.parseU64 text with
    | none => rfl
    | some rax =>
        dsimp only [Ctl.narrow]
        split
        · rfl
        · next h =>
            have hle : rax.toNat ≤ 0xffffffff := UInt64.not_lt.1 h
            rw [Option.map_some, Option.map_some, UInt64.toNat_toUInt32,
              Nat.mod_eq_of_lt (by omega)]
  · rw [parseU16, parseU64_eq, ← h16]
    cases Ctl.parseU64 text with
    | none => rfl
    | some rax =>
        dsimp only [Ctl.narrow]
        split
        · rfl
        · next h =>
            have hle : rax.toNat ≤ 0xffff := UInt64.not_lt.1 h
            rw [Option.map_some, Option.map_some, UInt64.toNat_toUInt16,
              Nat.mod_eq_of_lt (by omega)]

end Phi.Card
