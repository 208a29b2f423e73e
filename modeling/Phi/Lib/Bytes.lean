import Mathlib.Algebra.GroupWithZero.Nat

/-!
# Phi.Lib.Bytes

Fixed-width little-endian numbers as byte lists.

`leBytes k n` is the `k` low bytes of `n`, least significant first, and `ofLe`
reads any number of bytes back.  The round trip holds for numbers that fit;
the machine types of Lean get it from their own bounds.
-/

namespace Phi

/-- The `k` low bytes of `n`, least significant first. -/
def leBytes : Nat → Nat → List UInt8
  | 0, _ => []
  | k + 1, n => UInt8.ofNat n :: leBytes k (n / 256)

/-- The number whose bytes these are, least significant first. -/
def ofLe : List UInt8 → Nat
  | [] => 0
  | b :: bs => b.toNat + 256 * ofLe bs

@[simp] theorem length_leBytes (k n : Nat) : (leBytes k n).length = k := by
  induction k generalizing n with
  | zero => rfl
  | succ k ih => rw [leBytes, List.length_cons, ih]

/-- Bytes read back give the number they were made of, when it fits. -/
theorem ofLe_leBytes {k n : Nat} (h : n < 256 ^ k) : ofLe (leBytes k n) = n := by
  induction k generalizing n with
  | zero =>
      rw [Nat.pow_zero] at h
      have hzero : n = 0 := by omega
      rw [hzero]
      rfl
  | succ k ih =>
      have hdiv : n / 256 < 256 ^ k := by
        rw [Nat.div_lt_iff_lt_mul (by decide)]
        rwa [Nat.pow_succ] at h
      rw [leBytes, ofLe, ih hdiv, UInt8.toNat_ofNat']
      omega

theorem ofLe_lt (bs : List UInt8) : ofLe bs < 256 ^ bs.length := by
  induction bs with
  | nil => decide
  | cons b bs ih =>
      have hb := b.toNat_lt
      rw [ofLe, List.length_cons, Nat.pow_succ]
      omega

/-- A byte of the number. -/
theorem ofNat_ofLe_div {bs : List UInt8} {i : Nat} (h : i < bs.length) :
    UInt8.ofNat (ofLe bs / 256 ^ i) = bs[i] := by
  induction bs generalizing i with
  | nil => exact absurd h (Nat.not_lt_zero i)
  | cons b bs ih =>
      have hb := b.toNat_lt
      cases i with
      | zero =>
          rw [ofLe, Nat.pow_zero, Nat.div_one, ← UInt8.toNat_inj, UInt8.toNat_ofNat',
            List.getElem_cons_zero]
          omega
      | succ i =>
          have hdiv : (b.toNat + 256 * ofLe bs) / 256 = ofLe bs := by omega
          rw [ofLe, Nat.pow_succ, Nat.mul_comm (256 ^ i), ← Nat.div_div_eq_div_mul, hdiv,
            List.getElem_cons_succ]
          exact ih (Nat.lt_of_succ_lt_succ h)

end Phi
