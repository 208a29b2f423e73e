import Phi.Knc.Cascade

/-!
# Phi.Knc.Streams

The kernels over whole buffers, as the card's Python and JavaScript have them
(`kncmodule.c`, `qjs_knc.c`).

Both modules check the width and that the buffers are aligned, and then go
through as many whole blocks as the buffers hold, one call of a kernel each.
They differ in what they say of an argument they refuse.
-/

namespace Phi.Knc

open Mvex Fields

/-! ## the scalar decodes -/

/-- The memory of an argument (`Py_buffer`, and what `knc_bytes` returns). -/
structure Buffer where
  buf : Nat
  len : Nat

/-- A kernel, and the pointers it is called with. -/
structure KernelCall where
  kernel : List Line
  args : List (Gpr × Nat)

section modules

variable (r : Refusals)

end modules

/-! ## calls one after the other -/

/-- Called in turn, the kernels all come to their end, and leave memory so. -/
def Calls (symbols : String → Nat) : List KernelCall → Ram → (Ram → Prop) → Prop
  | [], ram, P => P ram
  | c :: cs, ram, P => Call symbols c.kernel c.args ram fun ram' => Calls symbols cs ram' P

section calls

variable {symbols : String → Nat} {P Q : Ram → Prop}

theorem Calls.mono {cs : List KernelCall} {ram : Ram} (h : Calls symbols cs ram P)
    (hPQ : ∀ ram', P ram' → Q ram') : Calls symbols cs ram Q := by
  induction cs generalizing ram with
  | nil => exact hPQ _ h
  | cons c cs ih => exact Call.mono h fun _ => ih

theorem Calls.append {cs ds : List KernelCall} {ram : Ram}
    (h : Calls symbols cs ram fun ram' => Calls symbols ds ram' P) :
    Calls symbols (cs ++ ds) ram P := by
  induction cs generalizing ram with
  | nil => exact h
  | cons c cs ih => exact Call.mono h fun _ => ih

theorem Calls.one {c : KernelCall} {ram : Ram} (h : Call symbols c.kernel c.args ram P) :
    Calls symbols [c] ram P := h

/-- The arrays of `m` words from `d` on are the `v i`, and nothing else has changed. -/
structure Ranged (d m n : Nat) (v : Nat → Block) (ram ram' : Ram) : Prop where
  blocks : ∀ i < n, ∀ j < m, arrayAt ram' (d + 4 * m * i) j = v i j
  other : ∀ x, (x < d ∨ d + 4 * m * n ≤ x) → ram' x = ram x

theorem Ranged.none (d m : Nat) (v : Nat → Block) (ram : Ram) : Ranged d m 0 v ram ram :=
  ⟨fun _ hi => absurd hi (Nat.not_lt_zero _), fun _ _ => rfl⟩

theorem arrayAt_congr {ram ram' : Ram} {a m : Nat}
    (h : ∀ x, a ≤ x → x < a + 4 * m → ram' x = ram x) :
    ∀ j < m, arrayAt ram' a j = arrayAt ram a j := fun _ _ =>
  dword_congr fun x hx hx' => h x (by omega) (by omega)

/-- One more array. -/
theorem Ranged.succ {d m n : Nat} {v : Nat → Block} {ram ram' ram'' : Ram}
    (h : Ranged d m n v ram ram') (hw : Wrote (d + 4 * m * n) m (v n) ram' ram'') :
    Ranged d m (n + 1) v ram ram'' where
  blocks i hi j hj := by
    by_cases hin : i = n
    · rw [hin]
      exact hw.array j hj
    · have hle : 4 * m * (i + 1) ≤ 4 * m * n := Nat.mul_le_mul_left _ (by omega)
      rw [Nat.mul_succ] at hle
      rw [arrayAt_congr (fun x _ hx => hw.other x (.inl (by omega))) j hj]
      exact h.blocks i (by omega) j hj
  other x hx := by
    rw [Nat.mul_succ] at hx
    rw [hw.other x (by omega), h.other x (by omega)]

end calls

/-! ## the passes -/

theorem Wrote.congr {a n : Nat} {v w : Block} {ram ram' : Ram} (h : Wrote a n v ram ram')
    (hvw : ∀ j < n, v j = w j) : Wrote a n w ram ram' where
  array j hj := (h.array j hj).trans (hvw j hj)
  other := h.other

section passes

variable {symbols : String → Nat} {bits n : Nat} {ram : Ram} {values res packed out base : Nat}

/-- An array in front of what is filled, or behind it. -/
theorem Ranged.apart {d m k a l : Nat} {v : Nat → Block} {ram' : Ram}
    (h : Ranged d m k v ram ram') (hl : Beside a (4 * l) d (4 * m * k)) :
    ∀ j < l, arrayAt ram' a j = arrayAt ram a j :=
  arrayAt_congr fun x hx hx' => h.other x (by unfold Beside at hl; omega)

end passes

/-! ## what is accepted -/

section accepted

variable {r : Refusals} {bits : Int} {values res packed out base : Buffer}
  {cs : List KernelCall} {n : Nat}

end accepted

/-! ## there and back -/

/-- A byte of the buffer. -/
def Buffer.Holds (b : Buffer) (x : Nat) : Prop := b.buf ≤ x ∧ x < b.buf + b.len

/-- Two buffers share no byte. -/
def Buffer.Apart (a b : Buffer) : Prop := Beside a.buf a.len b.buf b.len

section back

variable {symbols : String → Nat} {ram : Ram} {bits : Int} {values res packed out base : Buffer}

/-- What is filled of a buffer leaves everything outside it. -/
theorem Ranged.outside {d : Buffer} {m n : Nat} {v : Nat → Block} {ram ram' : Ram}
    (h : Ranged d.buf m n v ram ram') (hn : 4 * m * n ≤ d.len) {x : Nat} (hx : ¬ d.Holds x) :
    ram' x = ram x :=
  h.other x (by unfold Buffer.Holds at hx; omega)

end back

end Phi.Knc
