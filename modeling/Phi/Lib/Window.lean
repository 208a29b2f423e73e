import Mathlib.Data.List.Basic
import Phi.Lib.Circular

/-!
# Phi.Lib.Window

Flat buffers: a window between a head and a tail that only move forward until
what it holds is moved to the front.

`Window.content` is what the window holds.  Appending, taking off the front,
moving to the front and clearing are what they are on lists, as long as the
head is not past the tail.
-/

namespace Phi

open Circular

/-- Cells, of which those from `head` on before `tail` are in use. -/
structure Window (α : Type) where
  cells : Nat → α
  head : Nat
  tail : Nat

namespace Window

variable {α : Type}

def size (w : Window α) : Nat := w.tail - w.head

def content (w : Window α) : List α := Circular.read w.cells w.head w.size

/-- What is held, moved to the front. -/
def compact (w : Window α) : Window α where
  cells := write w.cells 0 w.content
  head := 0
  tail := w.size

/-- `xs` behind what is held. -/
def append (xs : List α) (w : Window α) : Window α :=
  { w with cells := write w.cells w.tail xs, tail := w.tail + xs.length }

/-- The first `n` cells given up. -/
def advance (n : Nat) (w : Window α) : Window α := { w with head := w.head + n }

def clear (w : Window α) : Window α := { w with head := 0, tail := 0 }

/-! ## what the window holds -/

@[simp] theorem length_content (w : Window α) : w.content.length = w.size := length_read _ _ _

@[simp] theorem content_compact (w : Window α) : w.compact.content = w.content := by
  have h := read_write w.cells 0 w.content
  rw [length_content] at h
  exact h

theorem content_append {w : Window α} (h : w.head ≤ w.tail) (xs : List α) :
    (w.append xs).content = w.content ++ xs := by
  have hsize : (w.append xs).size = w.size + xs.length := by
    unfold size append
    dsimp only
    omega
  have hend : w.head + w.size = w.tail := by
    unfold size
    omega
  unfold content
  rw [hsize, read_append]
  congr 1
  · exact read_write_before _ (Nat.le_of_eq hend) xs
  · show Circular.read (write w.cells w.tail xs) (w.head + w.size) xs.length = xs
    rw [hend, read_write]

@[simp] theorem content_advance (w : Window α) (n : Nat) :
    (w.advance n).content = w.content.drop n := by
  have hsize : (w.advance n).size = w.size - n := by
    unfold size advance
    dsimp only
    omega
  unfold content
  rw [hsize, drop_read]
  rfl

@[simp] theorem content_clear (w : Window α) : w.clear.content = [] := rfl

theorem content_eq_nil_iff {w : Window α} : w.content = [] ↔ w.size = 0 := by
  rw [← List.length_eq_zero_iff, length_content]

end Window

end Phi
