import Phi.Rpc.Validate
import Phi.Rpc.Walked

/-!
# Phi.Card.Arena

The decoder of a command (`ex_copy` and `ex_decode` of `exec.S`).

The body of an Exec frame was checked by `validate`; here a bare cursor walks
over it, and strings, pointers and records go into one arena, each where the
next free byte is.  Every store is noted.
-/

namespace Phi.Card

open Rpc Walk

def arenaCap : Nat := 8 * 1048576

/-- The decoded command: memory with the arena in it, the next free byte, and
the addresses and counts noted of what lies there. -/
structure Ex where
  mem : Nat → UInt8
  stored : List (Nat × Nat)
  ab : Nat
  argc : Nat
  argv : Nat
  progLen : Nat
  envc : Nat
  envrec : Nat
  idxA : Nat
  idxB : Nat
  envp : Nat
  cwd : Nat
  nul : Bool

namespace Ex

def store (s : Ex) (p : Nat) (bs : List UInt8) : Ex :=
  { s with mem := Circular.write s.mem p bs, stored := s.stored ++ [(p, bs.length)] }

def load (s : Ex) (p n : Nat) : List UInt8 := Circular.read s.mem p n

/-- A quadword, and a doubleword. -/
def word (s : Ex) (p : Nat) : Nat := ofLe (s.load p 8)
def dword (s : Ex) (p : Nat) : Nat := ofLe (s.load p 4)

/-- `ab_align`. -/
def abAlign (s : Ex) : Ex := { s with ab := (s.ab + 7) / 8 * 8 }

/-- A string and its NUL at the next free byte. -/
def copied (s : Ex) (bs : List UInt8) : Ex :=
  { (s.store s.ab bs).store (s.ab + bs.length) [0] with ab := s.ab + bs.length + 1 }

/-- Room for the records, the two areas of the sort and the environment's
pointers. -/
def layOut (s : Ex) (r12 : Nat) : Ex :=
  let s := { s with envc := r12 }.abAlign
  let idxA := s.ab + 32 * r12
  let idxB := idxA + 4 * r12
  let s := { s with envrec := s.ab, idxA, idxB, ab := idxB + 4 * r12 }.abAlign
  { s with envp := s.ab, ab := s.ab + 8 + 8 * r12 }

end Ex

/-- The mark that a string holds a NUL byte. -/
def nulFlag (b : Bool) : Nat := if b then 1 else 0

/-! ## the walk -/

/-- `ex_copy`: the copy, its length, and whether it holds a NUL byte. -/
def exCopy : Walk Ex (Nat × Nat × Bool) := do
  let edx ← peekU16 0
  let bs ← peek 2 edx
  let s ← built
  build fun s => s.copied bs
  move (2 + edx)
  pure (s.ab, edx, bs.contains 0)

/-- An argument: from label 1 on. -/
def argStep (r13 : Nat) : Walk Ex Unit := do
  let (rax, rdx, ecx) ← exCopy
  build fun s =>
    { s.store (s.argv + 8 * r13) (leBytes 8 rax) with
      nul := s.nul || ecx
      progLen := if r13 = 0 then rdx else s.progLen }

/-- An entry of the environment: from label 3 on. -/
def envStep (r13 : Nat) : Walk Ex Unit := do
  let s ← built
  let r8 := s.envrec + 32 * r13
  let (rax, edx, ecx) ← exCopy
  build fun s =>
    ((s.store r8 (leBytes 8 rax)).store (r8 + 16) (leBytes 4 edx)).store (r8 + 24)
      (leBytes 4 (nulFlag ecx))
  let (rax, edx, ecx) ← exCopy
  build fun s =>
    let s := (s.store (r8 + 8) (leBytes 8 rax)).store (r8 + 20) (leBytes 4 edx)
    s.store (r8 + 24) (leBytes 4 (s.dword (r8 + 24) ||| nulFlag ecx))

/-- `ex_decode`. -/
def exDecode (arena : Nat) : Walk Ex Unit := do
  build fun s => { s with ab := arena, nul := false }
  let r12 ← peekU16 0
  move 2
  build fun s => { s with argc := r12, argv := s.ab, ab := s.ab + 8 + 8 * r12 }
  loop argStep 0 r12
  build fun s => s.store (s.argv + 8 * s.argc) (leBytes 8 0)
  let r12 ← peekU16 0
  move 2
  build fun s => s.layOut r12
  loop envStep 0 r12
  let (rax, rdx, ecx) ← exCopy
  build fun s => { s with nul := s.nul || ecx, cwd := if rdx = 0 then 0 else rax }

end Phi.Card
