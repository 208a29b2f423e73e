import Mathlib.Logic.Function.Basic
import Phi.Lib.Circular

/-!
# Phi.Lib.CString

NUL-terminated strings copied byte by byte.

A copy stops at the NUL, wherever it finds one.  `copyText_eq` is the copy of a
string that ends before the place it is copied to; where the destination lies
in front of the string's end the copy reads what it has written and never finds
a NUL (`copyText_chases`).  The memory from the destination on is bounded: a
copy that reaches the bound faults.
-/

namespace Phi

/-- The string at `p`. -/
structure Cstr (m : Nat → UInt8) (p : Nat) (xs : List UInt8) : Prop where
  bytes : ∀ k (h : k < xs.length), m (p + k) = xs[k]
  nonzero : 0 ∉ xs
  nul : m (p + xs.length) = 0

namespace Cstr

variable {m : Nat → UInt8} {p : Nat} {x : UInt8} {xs : List UInt8}

theorem head (h : Cstr m p (x :: xs)) : m p = x ∧ x ≠ 0 := by
  refine ⟨h.bytes 0 (Nat.zero_lt_succ _), ?_⟩
  rintro rfl
  exact h.nonzero (by simp)

theorem tail (h : Cstr m p (x :: xs)) : Cstr m (p + 1) xs where
  bytes k hk := by
    have := h.bytes (k + 1) (by simpa using hk)
    simpa [Nat.add_assoc, Nat.add_comm 1 k] using this
  nonzero hx := h.nonzero (List.mem_cons_of_mem x hx)
  nul := by
    have := h.nul
    rwa [List.length_cons, Nat.add_comm xs.length 1, ← Nat.add_assoc] at this

/-- A store elsewhere. -/
theorem write (h : Cstr m p xs) {off : Nat} {ys : List UInt8}
    (hapart : off + ys.length ≤ p ∨ p + xs.length < off) : Cstr (Circular.write m off ys) p xs where
  bytes k hk := by
    rw [Circular.write_of_not_mem m (by omega)]
    exact h.bytes k hk
  nonzero := h.nonzero
  nul := by
    rw [Circular.write_of_not_mem m (by omega)]
    exact h.nul

end Cstr

namespace CString

variable {m : Nat → UInt8} {src dst n : Nat} {xs : List UInt8}

/-- The bytes up to the NUL, to `dst` on; where they end there. -/
def copyText : Nat → (Nat → UInt8) → Nat → Nat → Option ((Nat → UInt8) × Nat)
  | 0, m, src, dst => if m src = 0 then some (m, dst) else none
  | n + 1, m, src, dst =>
      if m src = 0 then some (m, dst)
      else copyText n (Function.update m dst (m src)) (src + 1) (dst + 1)

/-- The same with the NUL. -/
def copyString : Nat → (Nat → UInt8) → Nat → Nat → Option (Nat → UInt8)
  | 0, _, _, _ => none
  | n + 1, m, src, dst =>
      let moved := Function.update m dst (m src)
      if m src = 0 then some moved else copyString n moved (src + 1) (dst + 1)

theorem update_eq_write (m : Nat → UInt8) (p : Nat) (x : UInt8) :
    Function.update m p x = Circular.write m p [x] := by
  funext i
  rw [Function.update_apply, Circular.write_apply, List.length_singleton]
  by_cases h : i = p
  · subst h
    simp
  · rw [if_neg h, if_neg (by omega)]

/-- **A string that ends in front of its copy.** -/
theorem copyText_eq (h : Cstr m src xs) (hapart : src + xs.length < dst) (hn : xs.length ≤ n) :
    copyText n m src dst = some (Circular.write m dst xs, dst + xs.length) := by
  induction xs generalizing n m src dst with
  | nil =>
      have hnul : m src = 0 := h.nul
      cases n <;> simp [copyText, hnul]
  | cons x xs ih =>
      obtain ⟨hx, hne⟩ := h.head
      rw [List.length_cons] at hapart hn
      obtain ⟨n, rfl⟩ : ∃ k, n = k + 1 := ⟨n - 1, by omega⟩
      have hrest : Cstr (Circular.write m dst [x]) (src + 1) xs := h.tail.write (.inr (by omega))
      rw [copyText, hx, if_neg hne, update_eq_write, ih hrest (by omega) (by omega),
        List.length_cons]
      have happ := Circular.write_append m dst [x] xs
      rw [List.length_singleton] at happ
      rw [happ, Nat.add_assoc, Nat.add_comm 1]
      rfl

theorem copyString_eq (h : Cstr m src xs) (hapart : src + xs.length < dst) (hn : xs.length < n) :
    copyString n m src dst = some (Circular.write m dst (xs ++ [0])) := by
  induction xs generalizing n m src dst with
  | nil =>
      obtain ⟨n, rfl⟩ : ∃ k, n = k + 1 := ⟨n - 1, by simp at hn; omega⟩
      have hnul : m src = 0 := h.nul
      simp [copyString, hnul, update_eq_write]
  | cons x xs ih =>
      obtain ⟨hx, hne⟩ := h.head
      rw [List.length_cons] at hapart hn
      obtain ⟨n, rfl⟩ : ∃ k, n = k + 1 := ⟨n - 1, by omega⟩
      have hrest : Cstr (Circular.write m dst [x]) (src + 1) xs := h.tail.write (.inr (by omega))
      rw [copyString, hx, if_neg hne, update_eq_write, ih hrest (by omega) (by omega)]
      have happ := Circular.write_append m dst [x] (xs ++ [0])
      rw [List.length_singleton] at happ
      rw [happ]
      rfl

/-- **A copy that reads what it has written.** -/
theorem copyText_chases (h : ∀ i, src ≤ i → i < dst → m i ≠ 0) (hlt : src < dst) :
    copyText n m src dst = none := by
  induction n generalizing m src dst with
  | zero => rw [copyText, if_neg (h src (Nat.le_refl src) hlt)]
  | succ n ih =>
      rw [copyText, if_neg (h src (Nat.le_refl src) hlt)]
      refine ih (fun i hi hid => ?_) (by omega)
      by_cases hd : i = dst
      · rw [hd, Function.update_self]
        exact h src (Nat.le_refl src) hlt
      · rw [Function.update_of_ne hd]
        exact h i (by omega) (by omega)

end CString

end Phi
