import Mathlib.Algebra.GroupWithZero.Nat

/-!
# Phi.Lib.Move

Copies between two memories whose addresses wrap.

`copied m source dst src n` is the memory `m` after `n` bytes of `source` were
put into it.  A copy routine is a cursor that walks both memories: `step` moves
it by one access, `loop` repeats the step while a whole access is left and a test
on the cursor allows it.  Whatever the widths of the accesses and wherever one
loop hands over to the next, a cursor that got `k` bytes ahead has copied just
these (`loop_ahead`), and a loop without a test leaves less than one access.
-/

namespace Phi.Move

abbrev Memory (w : Nat) := BitVec w → UInt8

variable {w : Nat}

/-- `n` bytes from `src` on in `source`, put at `dst` in `m`. -/
def copied (m source : Memory w) (dst src : BitVec w) (n : Nat) : Memory w := fun x =>
  if (x - dst).toNat < n then source (src + (x - dst)) else m x

@[simp] theorem copied_zero (m source : Memory w) (dst src : BitVec w) :
    copied m source dst src 0 = m := by
  funext x
  simp [copied]

/-- A copy goes on where the last one stopped. -/
theorem copied_copied (m source : Memory w) (dst src : BitVec w) {j k : Nat} (h : j + k ≤ 2 ^ w) :
    copied (copied m source dst src j) source (dst + BitVec.ofNat w j) (src + BitVec.ofNat w j) k =
      copied m source dst src (j + k) := by
  funext x
  have hsub : x - (dst + BitVec.ofNat w j) = (x - dst) - BitVec.ofNat w j := by
    grind
  have hadd : src + BitVec.ofNat w j + (x - dst - BitVec.ofNat w j) = src + (x - dst) := by
    rw [BitVec.add_assoc, BitVec.add_comm (BitVec.ofNat w j), BitVec.sub_add_cancel]
  have hd := (x - dst).isLt
  have hnat : ((x - dst) - BitVec.ofNat w j).toNat =
      (2 ^ w - j % 2 ^ w + (x - dst).toNat) % 2 ^ w := by
    rw [BitVec.toNat_sub, BitVec.toNat_ofNat]
  simp only [copied, hsub, hadd, hnat]
  generalize (x - dst).toNat = d at hd ⊢
  by_cases hj : j = 2 ^ w
  · have hk : k = 0 := by omega
    simp [hk]
  · rw [Nat.mod_eq_of_lt (show j < 2 ^ w by omega)]
    by_cases hlt : d < j
    · rw [Nat.mod_eq_of_lt (by omega), if_neg (by omega), if_pos hlt, if_pos (by omega)]
    · rw [show 2 ^ w - j + d = d - j + 2 ^ w by omega, Nat.add_mod_right,
        Nat.mod_eq_of_lt (by omega), if_neg hlt]
      by_cases hin : d - j < k
      · rw [if_pos hin, if_pos (by omega)]
      · rw [if_neg hin, if_neg (by omega)]

/-- A copy between two memories under way: where the next access goes, where it
comes from, and how many bytes are left. -/
structure Cursor (w : Nat) where
  mem : Memory w
  dst : BitVec w
  src : BitVec w
  len : Nat

namespace Cursor

variable (source : Memory w)

/-- `k` bytes further on. -/
def ahead (s : Cursor w) (k : Nat) : Cursor w where
  mem := copied s.mem source s.dst s.src k
  dst := s.dst + BitVec.ofNat w k
  src := s.src + BitVec.ofNat w k
  len := s.len - k

@[simp] theorem ahead_zero (s : Cursor w) : s.ahead source 0 = s := by
  simp [ahead]

theorem ahead_ahead (s : Cursor w) {j k : Nat} (h : j + k ≤ 2 ^ w) :
    (s.ahead source j).ahead source k = s.ahead source (j + k) := by
  simp [ahead, copied_copied s.mem source s.dst s.src h, BitVec.ofNat_add, BitVec.add_assoc,
    Nat.sub_sub]

/-- Accesses of `n` bytes while a whole one is left and `more` allows it. -/
def loop (n : Nat) (more : Cursor w → Bool) (s : Cursor w) : Cursor w :=
  if _h : 0 < n ∧ n ≤ s.len ∧ more s = true then loop n more (s.ahead source n) else s
termination_by s.len
decreasing_by
  simp only [ahead]
  omega

/-- A loop gets some bytes ahead; without a test it leaves less than an access. -/
theorem loop_ahead {n : Nat} (hn : 0 < n) (more : Cursor w → Bool) (s : Cursor w)
    (h : s.len ≤ 2 ^ w) :
    ∃ k ≤ s.len, s.loop source n more = s.ahead source k ∧
      ((∀ t, more t = true) → s.len - k < n) := by
  induction s using loop.induct source n more with
  | case1 s hgo ih =>
      obtain ⟨k, hk, heq, hend⟩ := ih (by simp only [ahead]; omega)
      simp only [ahead] at hk hend
      refine ⟨n + k, by omega, ?_, fun hall => ?_⟩
      · rw [loop, dif_pos hgo, heq, ahead_ahead source s (by omega)]
      · have := hend hall
        omega
  | case2 s hgo =>
      refine ⟨0, Nat.zero_le _, ?_, fun hall => ?_⟩
      · rw [loop, dif_neg hgo, ahead_zero]
      · have hless : ¬ n ≤ s.len := fun hle => hgo ⟨hn, hle, hall s⟩
        omega

/-- A loop behind a cursor that is already ahead. -/
theorem ahead_loop {n j : Nat} (hn : 0 < n) (more : Cursor w → Bool) (s : Cursor w)
    (h : s.len ≤ 2 ^ w) (hj : j ≤ s.len) :
    ∃ k ≤ s.len, (s.ahead source j).loop source n more = s.ahead source k ∧
      ((∀ t, more t = true) → s.len - k < n) := by
  obtain ⟨k, hk, heq, hend⟩ := loop_ahead source hn more (s.ahead source j)
    (Nat.le_trans (Nat.sub_le ..) h)
  simp only [ahead] at hk hend
  refine ⟨j + k, by omega, by rw [heq, ahead_ahead source s (by omega)], fun hall => ?_⟩
  have := hend hall
  omega

end Cursor

end Phi.Move
