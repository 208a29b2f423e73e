import Phi.Lib.Bytes

/-!
# Phi.Lib.Checksum

One's-complement sums of 16-bit words, and the checksum made of them.

A receiver adds up the words of what it got, the checksum among them, with the
carries taken round; all ones means that nothing is wrong.  The words are read
high byte first.  Read low byte first the sum is 256 times as much modulo
65535, so a machine of that byte order may add, fold and complement its own
words (`verifies_iff`).
-/

namespace Phi.Checksum

/-! ## sums -/

/-- The sum of the words, high byte first; an odd last byte is the high one. -/
def netSum : List UInt8 → Nat
  | a :: b :: bs => 256 * a.toNat + b.toNat + netSum bs
  | [a] => 256 * a.toNat
  | [] => 0

/-- The sum of the words, low byte first; an odd last byte is the low one. -/
def leSum : List UInt8 → Nat
  | a :: b :: bs => a.toNat + 256 * b.toNat + leSum bs
  | [a] => a.toNat
  | [] => 0

/-- The carries taken round until none is left. -/
def fold (n : Nat) : Nat := if n < 65536 then n else fold (n / 65536 + n % 65536)
termination_by n
decreasing_by omega

/-- What a receiver accepts. -/
def Verifies (bs : List UInt8) : Prop := fold (netSum bs) = 65535

instance (bs : List UInt8) : Decidable (Verifies bs) := inferInstanceAs (Decidable (_ = _))

/-! ## folding -/

/-- Folding keeps the remainder by 65535, and being zero. -/
theorem fold_spec (n : Nat) :
    fold n < 65536 ∧ fold n % 65535 = n % 65535 ∧ (fold n = 0 ↔ n = 0) := by
  induction n using fold.induct with
  | case1 n h =>
      rw [fold, if_pos h]
      exact ⟨h, rfl, Iff.rfl⟩
  | case2 n h ih =>
      rw [fold, if_neg h]
      omega

theorem fold_eq_iff (n : Nat) : fold n = 65535 ↔ 0 < n ∧ n % 65535 = 0 := by
  obtain ⟨hlt, hmod, hzero⟩ := fold_spec n
  omega

/-- A sum with the complement of its fold is all ones. -/
theorem fold_complement {n c : Nat} (hc : c < 65536) (hmod : c % 65535 = n % 65535)
    (hzero : n = 0 → c = 0) : fold (n + (65535 - c)) = 65535 := by
  rw [fold_eq_iff]
  omega

/-! ## the two byte orders -/

theorem netSum_mod (bs : List UInt8) : netSum bs % 65535 = 256 * leSum bs % 65535 := by
  induction bs using netSum.induct with
  | case1 a b bs ih =>
      simp only [netSum, leSum]
      omega
  | case2 a => rfl
  | case3 => rfl

theorem netSum_eq_zero_iff (bs : List UInt8) : netSum bs = 0 ↔ leSum bs = 0 := by
  induction bs using netSum.induct with
  | case1 a b bs ih =>
      simp only [netSum, leSum]
      omega
  | case2 a =>
      simp only [netSum, leSum]
      omega
  | case3 => exact Iff.rfl

/-- A receiver of the other byte order comes to the same verdict. -/
theorem verifies_iff (bs : List UInt8) : Verifies bs ↔ fold (leSum bs) = 65535 := by
  have hmod := netSum_mod bs
  have hzero := netSum_eq_zero_iff bs
  rw [Verifies, fold_eq_iff, fold_eq_iff]
  generalize netSum bs = n at *
  generalize leSum bs = s at *
  omega

/-! ## sums of pieces -/

/-- A piece of whole words in front. -/
theorem leSum_append (xs ys : List UInt8) (h : xs.length % 2 = 0) :
    leSum (xs ++ ys) = leSum xs + leSum ys := by
  induction xs using leSum.induct with
  | case1 a b xs ih =>
      have hxs : xs.length % 2 = 0 := by
        simp only [List.length_cons] at h
        omega
      simp only [List.cons_append, leSum, ih hxs, Nat.add_assoc]
  | case2 a => simp at h
  | case3 => simp [leSum]

@[simp] theorem leSum_leBytes_two {n : Nat} (h : n < 65536) : leSum (leBytes 2 n) = n := by
  simp only [leBytes, leSum, UInt8.toNat_ofNat']
  omega

theorem leSum_leBytes_four {n : Nat} (h : n < 4294967296) :
    leSum (leBytes 4 n) = n % 65536 + n / 65536 := by
  simp only [leBytes, leSum, UInt8.toNat_ofNat']
  omega

/-- The complement of the sum put where a zero word was. -/
theorem verifies_of_complement {xs ys : List UInt8} {c : Nat} (hxs : xs.length % 2 = 0)
    (hc : c < 65536) (hmod : c % 65535 = leSum (xs ++ [0, 0] ++ ys) % 65535)
    (hzero : leSum (xs ++ [0, 0] ++ ys) = 0 → c = 0) :
    Verifies (xs ++ leBytes 2 (65535 - c) ++ ys) := by
  have hsum : ∀ w : List UInt8, w.length = 2 →
      leSum (xs ++ w ++ ys) = leSum xs + leSum ys + leSum w := by
    intro w hw
    rw [List.append_assoc, leSum_append xs _ hxs, leSum_append w _ (by rw [hw])]
    omega
  have hword : leSum [0, 0] = 0 := rfl
  rw [hsum [0, 0] rfl, hword, Nat.add_zero] at hmod hzero
  rw [verifies_iff, hsum _ (length_leBytes 2 _), leSum_leBytes_two (by omega)]
  exact fold_complement hc hmod hzero

theorem leSum_le (bs : List UInt8) : leSum bs ≤ 65535 * ((bs.length + 1) / 2) := by
  induction bs using leSum.induct with
  | case1 a b bs ih =>
      have ha := a.toNat_lt
      have hb := b.toNat_lt
      simp only [leSum, List.length_cons]
      omega
  | case2 a =>
      have ha := a.toNat_lt
      simp only [leSum, List.length_cons, List.length_nil]
      omega
  | case3 => simp [leSum]

end Phi.Checksum
