import Mathlib.Algebra.GroupWithZero.Nat

/-!
# Phi.Lib.Modular

Free-running counters kept in fixed-width words.

A counter that only ever grows is stored modulo `2 ^ w`; its true value is a
natural number that no register holds.  The lemmas here recover facts about
the true values from the words: the difference of two words is the true
distance while that distance fits the width, equal words are equal counters
inside one window, and masking with `2 ^ k - 1` is the true value modulo
`2 ^ k`.  Nothing here knows what is being counted.
-/

namespace Phi.Modular

/-! ## distances -/

/-- The word difference of two counters is their true distance while it fits
the width. -/
theorem toNat_ofNat_sub (w : Nat) {m n : Nat} (hle : n ≤ m) (hlt : m - n < 2 ^ w) :
    (BitVec.ofNat w m - BitVec.ofNat w n).toNat = m - n := by
  obtain ⟨d, rfl⟩ := Nat.exists_eq_add_of_le hle
  have hd : BitVec.ofNat w (n + d) - BitVec.ofNat w n = BitVec.ofNat w d := by
    rw [BitVec.ofNat_add, BitVec.add_comm, BitVec.add_sub_cancel]
  rw [hd, BitVec.toNat_ofNat, Nat.mod_eq_of_lt (by omega)]
  omega

/-- A word that is `d` past the counter `n` is the counter `n + d`. -/
theorem eq_ofNat_add_of_sub (w : Nat) {n d : Nat} {x : BitVec w}
    (h : x - BitVec.ofNat w n = BitVec.ofNat w d) : x = BitVec.ofNat w (n + d) := by
  rw [BitVec.ofNat_add, ← h, BitVec.add_comm, BitVec.sub_add_cancel]

/-- A word is the counter as far past `n` as the word difference says. -/
theorem eq_ofNat_add_toNat_sub (w : Nat) (n : Nat) (x : BitVec w) :
    x = BitVec.ofNat w (n + (x - BitVec.ofNat w n).toNat) :=
  eq_ofNat_add_of_sub w (by rw [BitVec.ofNat_toNat, BitVec.setWidth_eq])

/-- Counters closer than one revolution are told apart by their words. -/
theorem ofNat_inj_of_lt (w : Nat) {m n : Nat} (hmn : m < n + 2 ^ w) (hnm : n < m + 2 ^ w) :
    BitVec.ofNat w m = BitVec.ofNat w n ↔ m = n := by
  constructor
  · intro h
    have h' : m % 2 ^ w = n % 2 ^ w := by
      simpa using congrArg BitVec.toNat h
    have hpos : 0 < 2 ^ w := Nat.two_pow_pos w
    rcases Nat.le_total n m with hle | hle
    · have hd : (m - n) % 2 ^ w = 0 := Nat.sub_mod_eq_zero_of_mod_eq h'
      rw [Nat.mod_eq_of_lt (by omega)] at hd
      omega
    · have hd : (n - m) % 2 ^ w = 0 := Nat.sub_mod_eq_zero_of_mod_eq h'.symm
      rw [Nat.mod_eq_of_lt (by omega)] at hd
      omega
  · rintro rfl
    rfl

/-! ## masks -/

/-- Masking a counter with `2 ^ k - 1` is reducing its true value, the width
having room for the mask. -/
theorem toNat_ofNat_and_mask (w : Nat) {k : Nat} (hk : k < w) {size : BitVec w}
    (hsize : size.toNat = 2 ^ k) (p : Nat) :
    (BitVec.ofNat w p &&& (size - 1#w)).toNat = p % 2 ^ k := by
  have h1 : (1#w).toNat = 1 := by
    rw [BitVec.toNat_ofNat, Nat.mod_eq_of_lt (Nat.one_lt_two_pow (by omega))]
  have hpos : 1 ≤ 2 ^ k := Nat.one_le_two_pow
  have hmask : (size - 1#w).toNat = 2 ^ k - 1 := by
    rw [BitVec.toNat_sub_of_le (by rw [BitVec.le_def, h1, hsize]; exact hpos), hsize, h1]
  rw [BitVec.toNat_and, hmask, BitVec.toNat_ofNat, Nat.and_two_pow_sub_one_eq_mod,
    Nat.mod_mod_of_dvd _ (Nat.pow_dvd_pow 2 (Nat.le_of_lt hk))]

end Phi.Modular
