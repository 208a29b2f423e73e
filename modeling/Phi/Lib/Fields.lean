import Mathlib.Algebra.GroupWithZero.Nat
import Mathlib.Data.Nat.Bitwise
import Mathlib.Tactic.Common

/-!
# Phi.Lib.Fields

Fields of `k` bits packed into words of `n` bits.

The fields and the words are two cuts of one stream of bits.  A field that
starts in a word may end in the next one; `extract` puts it together from the
two, and `piece` is what a field leaves in a word.
-/

namespace Phi.Fields

variable {n k : Nat}

/-- The low `k` bits. -/
def low (n k : Nat) : BitVec n := BitVec.ofNat n (2 ^ k - 1)

theorem getLsbD_low (hk : k ≤ n) (b : Nat) : (low n k).getLsbD b = decide (b < k) := by
  rw [low, BitVec.getLsbD_ofNat, Nat.testBit_two_pow_sub_one]
  by_cases hb : b < k <;> simp [hb]
  omega

theorem getLsbD_and_low (hk : k ≤ n) (x : BitVec n) (b : Nat) :
    (x &&& low n k).getLsbD b = (x.getLsbD b && decide (b < k)) := by
  rw [BitVec.getLsbD_and, getLsbD_low hk]

/-- Everything fits in the whole word. -/
theorem and_low_self (x : BitVec n) : x &&& low n n = x := by
  apply BitVec.eq_of_getLsbD_eq
  intro i hi
  rw [getLsbD_and_low (Nat.le_refl n)]
  simp [hi]

/-- The stream of the fields, or of the words at `k = n`. -/
def stream (k : Nat) (x : Nat → BitVec n) (i : Nat) : Bool := (x (i / k)).getLsbD (i % k)

theorem stream_of_eq (x : Nat → BitVec n) {i w c : Nat} (hi : i = k * w + c) (hc : c < k) :
    stream k x i = (x w).getLsbD c := by
  have hk : 0 < k := by omega
  rw [stream, hi, Nat.mul_add_div hk, Nat.mul_add_mod, Nat.div_eq_of_lt hc, Nat.mod_eq_of_lt hc,
    Nat.add_zero]

/-- Field `v` out of the words. -/
def extract (k : Nat) (word : Nat → BitVec n) (v : Nat) : BitVec n :=
  (word (k * v / n) >>> (k * v % n) |||
    if n < k * v % n + k then word (k * v / n + 1) <<< (n - k * v % n) else 0) &&& low n k

theorem getLsbD_extract (hk : k ≤ n) (word : Nat → BitVec n) (v : Nat) {b : Nat} (hb : b < k) :
    (extract k word v).getLsbD b = stream n word (k * v + b) := by
  have hsplit := Nat.div_add_mod (k * v) n
  have hs : k * v % n < n := Nat.mod_lt _ (by omega)
  rw [extract, getLsbD_and_low hk, BitVec.getLsbD_or, BitVec.getLsbD_ushiftRight]
  generalize k * v / n = w at hsplit ⊢
  generalize k * v % n = s at hsplit hs ⊢
  by_cases hin : s + b < n
  · -- the bit lies in the first word, below the part of the second
    rw [stream_of_eq word (w := w) (c := s + b) (by omega) hin]
    split
    · have hlow : b < n - s := by omega
      simp [hb, hlow, BitVec.getLsbD_shiftLeft]
    · simp [hb]
  · have hnext : k * v + b = n * (w + 1) + (s + b - n) := by
      rw [Nat.mul_succ]
      omega
    have hout : (word w).getLsbD (s + b) = false := BitVec.getLsbD_of_ge _ _ (by omega)
    have hhigh : ¬ b < n - s := by omega
    rw [stream_of_eq word hnext (by omega), if_pos (by omega), hout]
    have hshift : b - (n - s) = s + b - n := by omega
    simp [hb, hhigh, BitVec.getLsbD_shiftLeft, hshift]
    omega

/-- Words that hold the fields' stream give every field back. -/
theorem extract_of_stream (hk : k ≤ n) {word x : Nat → BitVec n} {v : Nat}
    (h : ∀ b < k, stream n word (k * v + b) = stream k x (k * v + b)) :
    extract k word v = x v &&& low n k := by
  apply BitVec.eq_of_getLsbD_eq
  intro b hb
  by_cases hbk : b < k
  · rw [getLsbD_extract hk word v hbk, h b hbk, stream_of_eq x rfl hbk, getLsbD_and_low hk]
    simp [hbk]
  · rw [extract, getLsbD_and_low hk, getLsbD_and_low hk]
    simp [hbk]

/-- What field `v` leaves in the word it starts in. -/
def leftPiece (k : Nat) (x : Nat → BitVec n) (v : Nat) : BitVec n :=
  (x v &&& low n k) <<< (k * v % n)

/-- What it leaves in the next one. -/
def rightPiece (k : Nat) (x : Nat → BitVec n) (v : Nat) : BitVec n :=
  (x v &&& low n k) >>> (n - k * v % n)

/-- A piece is the part of the stream that the field covers. -/
theorem getLsbD_leftPiece (hk : k ≤ n) (h0 : 0 < k) (x : Nat → BitVec n) (v : Nat) {b : Nat}
    (hb : b < n) :
    (leftPiece k x v).getLsbD b =
      (decide ((n * (k * v / n) + b) / k = v) && stream k x (n * (k * v / n) + b)) := by
  have hsplit := Nat.div_add_mod (k * v) n
  rw [leftPiece, BitVec.getLsbD_shiftLeft, getLsbD_and_low hk]
  generalize k * v / n = w at hsplit ⊢
  generalize k * v % n = s at hsplit ⊢
  by_cases hin : s ≤ b ∧ b - s < k
  · have hi : n * w + b = k * v + (b - s) := by omega
    have hv : (n * w + b) / k = v := by
      rw [hi, Nat.mul_add_div h0, Nat.div_eq_of_lt hin.2, Nat.add_zero]
    rw [hv, stream_of_eq x hi hin.2]
    simp [hb, hin]
  · have hv : (n * w + b) / k ≠ v := by
      intro hv
      have hlow := Nat.div_mul_le_self (n * w + b) k
      have hhigh := Nat.lt_mul_div_succ (n * w + b) h0
      rw [hv, Nat.mul_succ] at hhigh
      rw [hv, Nat.mul_comm v k] at hlow
      omega
    by_cases hs : b < s
    · simp [hv, hs]
    · have hout : ¬ b - s < k := by omega
      simp [hv, hout]

theorem getLsbD_rightPiece (hk : k ≤ n) (h0 : 0 < k) (x : Nat → BitVec n) (v : Nat) {b : Nat}
    (hb : b < n) :
    (rightPiece k x v).getLsbD b =
      (decide ((n * (k * v / n + 1) + b) / k = v) && stream k x (n * (k * v / n + 1) + b)) := by
  have hsplit := Nat.div_add_mod (k * v) n
  have hs : k * v % n < n := Nat.mod_lt _ (by omega)
  rw [rightPiece, BitVec.getLsbD_ushiftRight, getLsbD_and_low hk]
  generalize k * v / n = w at hsplit ⊢
  generalize k * v % n = s at hsplit hs ⊢
  have hnext : n * (w + 1) = n * w + n := Nat.mul_succ n w
  by_cases hin : n - s + b < k
  · have hi : n * (w + 1) + b = k * v + (n - s + b) := by omega
    have hv : (n * (w + 1) + b) / k = v := by
      rw [hi, Nat.mul_add_div h0, Nat.div_eq_of_lt hin, Nat.add_zero]
    rw [hv, stream_of_eq x hi hin]
    simp [hin]
  · have hv : (n * (w + 1) + b) / k ≠ v := by
      intro hv
      have hhigh := Nat.lt_mul_div_succ (n * (w + 1) + b) h0
      rw [hv, Nat.mul_succ k v] at hhigh
      omega
    simp [hv, hin]

/-- The field that covers a bit of a word starts in that word or in the one
before. -/
theorem field_of_bit (hk : k ≤ n) (h0 : 0 < k) {w b : Nat} (hb : b < n) :
    let v := (n * w + b) / k
    (k * v / n = w) ∨ (k * v / n + 1 = w ∧ n < k * v % n + k) := by
  intro v
  have hn : 0 < n := by omega
  have hlow : k * v ≤ n * w + b := Nat.mul_div_le _ _
  have hhigh : n * w + b < k * v + k := by
    have h := Nat.lt_mul_div_succ (n * w + b) h0
    rwa [Nat.mul_succ] at h
  have hsplit := Nat.div_add_mod (k * v) n
  have hs : k * v % n < n := Nat.mod_lt _ hn
  generalize k * v % n = s at hsplit hs ⊢
  generalize k * v / n = u at hsplit ⊢
  rw [← hsplit] at hlow hhigh
  have hle : u ≤ w := by
    by_contra hc
    have := Nat.mul_le_mul_left n (show w + 1 ≤ u by omega)
    rw [Nat.mul_succ] at this
    omega
  have hge : w ≤ u + 1 := by
    by_contra hc
    have := Nat.mul_le_mul_left n (show u + 1 + 1 ≤ w by omega)
    rw [Nat.mul_succ, Nat.mul_succ] at this
    omega
  rcases Nat.eq_or_lt_of_le hle with heq | hlt
  · exact .inl heq
  · obtain rfl : w = u + 1 := by omega
    rw [Nat.mul_succ] at hhigh
    exact .inr ⟨rfl, by omega⟩

/-- Field `v` sets bit `b` of word `w`. -/
def Leaves (k : Nat) (x : Nat → BitVec n) (w b v : Nat) : Prop :=
  (k * v / n = w ∧ (leftPiece k x v).getLsbD b = true) ∨
    (n < k * v % n + k ∧ k * v / n + 1 = w ∧ (rightPiece k x v).getLsbD b = true)

/-- The words that the pieces of the fields make up are the stream. -/
theorem exists_leaves_iff (hk : k ≤ n) (h0 : 0 < k) {x : Nat → BitVec n} {w b m : Nat}
    (hb : b < n) (hm : (n * w + b) / k < m) :
    (∃ v < m, Leaves k x w b v) ↔ stream k x (n * w + b) = true := by
  constructor
  · rintro ⟨v, -, ⟨hw, hbit⟩ | ⟨-, hw, hbit⟩⟩
    · rw [getLsbD_leftPiece hk h0 x v hb, hw, Bool.and_eq_true] at hbit
      exact hbit.2
    · rw [getLsbD_rightPiece hk h0 x v hb, hw, Bool.and_eq_true] at hbit
      exact hbit.2
  · intro hbit
    refine ⟨(n * w + b) / k, hm, ?_⟩
    rcases field_of_bit hk h0 hb (w := w) with hw | ⟨hw, hlong⟩
    · refine .inl ⟨hw, ?_⟩
      rw [getLsbD_leftPiece hk h0 x _ hb, hw]
      simpa using hbit
    · refine .inr ⟨hlong, hw, ?_⟩
      rw [getLsbD_rightPiece hk h0 x _ hb, hw]
      simpa using hbit

/-- The words of `m` fields hold no others. -/
theorem field_lt {m c w b : Nat} (hw : w < c * k) (hb : b < n) (hm : c * n = m) :
    (n * w + b) / k < m := by
  have hle : n * (w + 1) ≤ n * (c * k) := Nat.mul_le_mul_left n hw
  have hcomm : n * (c * k) = k * m := by
    rw [← hm, Nat.mul_comm c k, Nat.mul_comm c n, Nat.mul_left_comm]
  rw [Nat.mul_succ] at hle
  exact Nat.div_lt_of_lt_mul (by omega)

end Phi.Fields
