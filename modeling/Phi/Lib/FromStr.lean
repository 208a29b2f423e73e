import Mathlib.Data.List.Induction
import Mathlib.Tactic.Ring
import Phi.Lib.Decimal

/-!
# Phi.Lib.FromStr

Reading numbers from text, as Rust's `from_str` of the integer types does.

An unsigned number is decimal digits, at least one, behind an optional `+`; a
signed one may have a `-` instead.  Anything else is an error, and so is a
number that the type does not hold.
-/

namespace Phi.Decimal

instance (b : UInt8) : Decidable (IsDigit b) := inferInstanceAs (Decidable (_ ∧ _))

/-! ## the grammar -/

/-- The digits of an unsigned number. -/
def unsigned : List UInt8 → List UInt8
  | [] => []
  | b :: bs => if b = 43 then bs else b :: bs

@[simp] theorem unsigned_nil : unsigned [] = [] := rfl

@[simp] theorem unsigned_cons (b : UInt8) (bs : List UInt8) :
    unsigned (b :: bs) = if b = 43 then bs else b :: bs := rfl

/-- Digits, at least one. -/
def IsNumeral (ds : List UInt8) : Prop := ds ≠ [] ∧ ∀ b ∈ ds, IsDigit b

instance (ds : List UInt8) : Decidable (IsNumeral ds) :=
  @instDecidableAnd _ _ _ (List.decidableBAll IsDigit ds)

/-- The number that a text stands for, whatever its size. -/
def natOf (text : List UInt8) : Option Nat :=
  if IsNumeral (unsigned text) then some (value 0 (unsigned text)) else none

def intOf : List UInt8 → Option Int
  | [] => none
  | b :: bs =>
      if b = 45 then if IsNumeral bs then some (-(value 0 bs : Int)) else none
      else (natOf (b :: bs)).map Int.ofNat

/-- `from_str` of an unsigned type of `w` bits. -/
def fromStr (w : Nat) (text : List UInt8) : Option Nat := (natOf text).filter (· < 2 ^ w)

/-- `from_str` of a signed type of `w + 1` bits. -/
def fromStrSigned (w : Nat) (text : List UInt8) : Option Int :=
  (intOf text).filter fun i => -2 ^ w ≤ i ∧ i < 2 ^ w

theorem fromStr_eq_some_iff {w n : Nat} {text : List UInt8} :
    fromStr w text = some n ↔ natOf text = some n ∧ n < 2 ^ w := by
  simp [fromStr, Option.filter_eq_some_iff]

theorem fromStrSigned_eq_some_iff {w : Nat} {i : Int} {text : List UInt8} :
    fromStrSigned w text = some i ↔ intOf text = some i ∧ -2 ^ w ≤ i ∧ i < 2 ^ w := by
  simp [fromStrSigned, Option.filter_eq_some_iff]

theorem natOf_eq_some_iff {text : List UInt8} {n : Nat} :
    natOf text = some n ↔ IsNumeral (unsigned text) ∧ value 0 (unsigned text) = n := by
  simp [natOf]

/-! ## digits -/

/-- One comparison tells a digit. -/
theorem isDigit_iff {b : UInt8} : IsDigit b ↔ ¬ 9 < b - 48 := by
  simp only [IsDigit, UInt8.le_iff_toNat_le, UInt8.lt_iff_toNat_lt, UInt8.toNat_sub]
  have hb := b.toNat_lt
  simp only [UInt8.reduceToNat]
  omega

theorem forall_isDigit_cons {b : UInt8} {bs : List UInt8} :
    (∀ x ∈ b :: bs, IsDigit x) ↔ IsDigit b ∧ ∀ x ∈ bs, IsDigit x := List.forall_mem_cons

theorem value_append (init : Nat) (bs cs : List UInt8) :
    value init (bs ++ cs) = value (value init bs) cs := List.foldl_append

/-- A number begun is shifted by what follows. -/
theorem value_eq_add (init : Nat) (bs : List UInt8) :
    value init bs = init * 10 ^ bs.length + value 0 bs := by
  induction bs generalizing init with
  | nil => simp
  | cons b bs ih =>
      rw [value_cons, value_cons, ih, ih (0 * 10 + _), List.length_cons, Nat.pow_succ]
      ring

/-- No number of so many digits is larger. -/
theorem value_lt {bs : List UInt8} (h : ∀ b ∈ bs, IsDigit b) : value 0 bs < 10 ^ bs.length := by
  induction bs using List.reverseRecOn with
  | nil => simp
  | append_singleton bs b ih =>
      have hb : ¬ 9 < b - 48 := isDigit_iff.1 (h b (by simp))
      have hlt := ih fun x hx => h x (by simp [hx])
      rw [UInt8.lt_iff_toNat_lt] at hb
      have hdigit : (b - 48).toNat ≤ 9 := Nat.not_lt.1 hb
      rw [value_append, value_cons, value_nil, List.length_append, List.length_singleton,
        Nat.pow_succ]
      omega

end Phi.Decimal
