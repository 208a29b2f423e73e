import Mathlib.Algebra.GroupWithZero.Nat
import Mathlib.Data.Nat.Basic

/-!
# Phi.Lib.Decimal

Decimal numbers as ASCII text.
-/

namespace Phi.Decimal

/-- The digits of a number, the most significant first. -/
def decimal (n : Nat) : List UInt8 := (Nat.toDigits 10 n).map fun c => UInt8.ofNat c.toNat

/-- The text of a signed number. -/
def signed (i : Int) : List UInt8 :=
  match i with
  | .ofNat n => decimal n
  | .negSucc n => 45 :: decimal (n + 1)

def IsDigit (b : UInt8) : Prop := 48 ≤ b ∧ b ≤ 57

/-- The number that `bs` continues `init` to. -/
def value (init : Nat) (bs : List UInt8) : Nat :=
  bs.foldl (fun v b => v * 10 + (b - 48).toNat) init

@[simp] theorem value_nil (init : Nat) : value init [] = init := rfl

@[simp] theorem value_cons (init : Nat) (b : UInt8) (bs : List UInt8) :
    value init (b :: bs) = value (init * 10 + (b - 48).toNat) bs := rfl

/-- A number only grows with its digits. -/
theorem le_value (init : Nat) (bs : List UInt8) : init ≤ value init bs := by
  induction bs generalizing init with
  | nil => exact Nat.le_refl init
  | cons b bs ih =>
      rw [value_cons]
      have h := ih (init * 10 + (b - 48).toNat)
      omega

theorem decimal_ne_nil (n : Nat) : decimal n ≠ [] := by
  simp [decimal, Nat.toDigits_ne_nil]

theorem toNat_of_isDigit {c : Char} (h : c.isDigit = true) : 48 ≤ c.toNat ∧ c.toNat ≤ 57 := by
  simp only [Char.isDigit, Bool.and_eq_true, decide_eq_true_eq, UInt32.le_iff_toNat_le] at h
  exact h

theorem isDigit_ofNat {c : Char} (h : c.isDigit = true) : IsDigit (UInt8.ofNat c.toNat) := by
  obtain ⟨h48, h57⟩ := toNat_of_isDigit h
  simp only [IsDigit, UInt8.le_iff_toNat_le, UInt8.toNat_ofNat']
  show 48 ≤ c.toNat % 256 ∧ c.toNat % 256 ≤ 57
  omega

theorem isDigit_decimal {n : Nat} {b : UInt8} (h : b ∈ decimal n) : IsDigit b := by
  obtain ⟨c, hc, rfl⟩ := List.mem_map.1 h
  exact isDigit_ofNat (Nat.isDigit_of_mem_toDigits (by decide) (by decide) hc)

/-- A byte of a signed number. -/
theorem mem_signed {i : Int} {b : UInt8} (h : b ∈ signed i) : b = 45 ∨ IsDigit b := by
  cases i with
  | ofNat n => exact .inr (isDigit_decimal h)
  | negSucc n =>
      rcases List.mem_cons.1 h with rfl | h
      · exact .inl rfl
      · exact .inr (isDigit_decimal h)

/-- The digits read back. -/
theorem value_decimal (n : Nat) : value 0 (decimal n) = n := by
  have hfold : ∀ (cs : List Char) (init : Nat), (∀ c ∈ cs, c.isDigit = true) →
      value init (cs.map fun c => UInt8.ofNat c.toNat) = Nat.ofDigitChars 10 cs init := by
    intro cs
    induction cs with
    | nil => intro init _; rfl
    | cons c cs ih =>
        intro init hall
        have hdigit : c.isDigit = true := hall c List.mem_cons_self
        obtain ⟨h48, h57⟩ := toNat_of_isDigit hdigit
        have hval : (UInt8.ofNat c.toNat - 48).toNat = c.toNat - 48 := by
          rw [UInt8.toNat_sub_of_le _ _ (isDigit_ofNat hdigit).1, UInt8.toNat_ofNat']
          show c.toNat % 256 - 48 = _
          omega
        rw [List.map_cons, value_cons, ih _ fun d hd => hall d (List.mem_cons_of_mem c hd),
          Nat.ofDigitChars_cons, hval, Nat.mul_comm init]
        rfl
  rw [decimal, hfold _ _ fun c hc => Nat.isDigit_of_mem_toDigits (by decide) (by decide) hc]
  exact Nat.ofDigitChars_toDigits (by decide) (by decide)

end Phi.Decimal
