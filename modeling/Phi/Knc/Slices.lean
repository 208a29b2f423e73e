import Phi.Knc.Copy

/-!
# Phi.Knc.Slices

`memcpy64` of `knc-rs`: a safe function over `knc_memcpy64`, which trusts its
arguments.

The function checks the slices against `blocks * 64`, and in a release build the
product wraps.
-/

namespace Phi.Knc

open Mvex Labels

/-- A slice: it does not reach round the end of memory, and is no longer than
`isize::MAX`. -/
structure Slice where
  ptr : BitVec 64
  len : Nat
  fits : ptr.toNat + len ≤ 2 ^ 64
  small : len < 2 ^ 63

/-- The registers of the call. -/
def Core.call (c : Core) (dst src blocks : BitVec 64) : Core :=
  ((c.setGpr .rdi dst).setGpr .rsi src).setGpr .rdx blocks

/-- `memcpy64`, the kernel running for `fuel` lines at most. -/
def memcpy64 (fuel : Nat) (dst src : Slice) (blocks : BitVec 64) (c : Core) :
    Option (Except String Unit × Core) :=
  let bytes := blocks * 64
  if dst.len < bytes.toNat ∨ src.len < bytes.toNat then
    some (.error "knc::memcpy64: slice shorter than blocks * 64", c)
  else if dst.ptr.toNat % 64 ≠ 0 ∨ src.ptr.toNat % 64 ≠ 0 then
    some (.error "knc::memcpy64: both pointers must be 64-byte aligned", c)
  else
    (Labels.run Insn.exec Cond.holds memcpyKernel fuel memcpyKernel
      (c.call dst.ptr src.ptr blocks)).map fun t => (.ok (), t)

/-! ## the property -/

/-- The 64 bytes at `a` are of the slice. -/
def Slice.Has (s : Slice) (a : Nat) : Prop := s.ptr.toNat ≤ a ∧ a + 64 ≤ s.ptr.toNat + s.len

/-- Whatever the core was like: success means that the slices are long enough and
that the kernel kept to them, slices that are too short are refused, and after an
error nothing has changed. -/
structure Safe (dst src : Slice) (blocks : BitVec 64) : Prop where
  long : ∀ fuel c t, memcpy64 fuel dst src blocks c = some (.ok (), t) →
    blocks.toNat * 64 ≤ dst.len ∧ blocks.toNat * 64 ≤ src.len
  inside : ∀ fuel c t, memcpy64 fuel dst src blocks c = some (.ok (), t) →
    ∃ loads stores, t.loads = c.loads ++ loads ∧ t.stores = c.stores ++ stores ∧
      (∀ a ∈ loads, src.Has a) ∧ ∀ a ∈ stores, dst.Has a
  refused : ¬ (blocks.toNat * 64 ≤ dst.len ∧ blocks.toNat * 64 ≤ src.len) →
    ∀ fuel c, ∃ e, memcpy64 fuel dst src blocks c = some (.error e, c)
  error : ∀ fuel c e t, memcpy64 fuel dst src blocks c = some (.error e, t) → t = c

/-- The product does not wrap, or what it wraps to is longer than a slice, or a
slice is not aligned. -/
def Guarded (dst src : Slice) (blocks : BitVec 64) : Prop :=
  blocks.toNat * 64 < 2 ^ 64 ∨ dst.len < blocks.toNat * 64 % 2 ^ 64 ∨
    src.len < blocks.toNat * 64 % 2 ^ 64 ∨ dst.ptr.toNat % 64 ≠ 0 ∨ src.ptr.toNat % 64 ≠ 0

instance (dst src : Slice) (blocks : BitVec 64) : Decidable (Guarded dst src blocks) :=
  inferInstanceAs (Decidable (_ ∨ _))

/-! ## what the function comes to -/

section

variable {fuel : Nat} {dst src : Slice} {blocks : BitVec 64} {c t : Core}

theorem toNat_bytes (blocks : BitVec 64) : (blocks * 64).toNat = blocks.toNat * 64 % 2 ^ 64 := by
  rw [BitVec.toNat_mul]
  rfl

/-- The two checks passed. -/
structure Checked (dst src : Slice) (blocks : BitVec 64) : Prop where
  dst_long : blocks.toNat * 64 % 2 ^ 64 ≤ dst.len
  src_long : blocks.toNat * 64 % 2 ^ 64 ≤ src.len
  dst_aligned : dst.ptr.toNat % 64 = 0
  src_aligned : src.ptr.toNat % 64 = 0

theorem memcpy64_of_checked (h : Checked dst src blocks) (fuel : Nat) (c : Core) :
    memcpy64 fuel dst src blocks c =
      (Labels.run Insn.exec Cond.holds memcpyKernel fuel memcpyKernel
        (c.call dst.ptr src.ptr blocks)).map fun t => (.ok (), t) := by
  have hlong := h.dst_long
  have hlong' := h.src_long
  unfold memcpy64
  dsimp only
  rw [toNat_bytes, if_neg (by omega), if_neg (by rw [h.dst_aligned, h.src_aligned]; decide)]

theorem memcpy64_of_not_checked (h : ¬ Checked dst src blocks) (fuel : Nat) (c : Core) :
    ∃ e, memcpy64 fuel dst src blocks c = some (.error e, c) := by
  unfold memcpy64
  dsimp only
  rw [toNat_bytes]
  split
  · exact ⟨_, rfl⟩
  · next hlong =>
      split
      · exact ⟨_, rfl⟩
      · next haligned =>
          rw [not_or, Nat.not_lt, Nat.not_lt] at hlong
          rw [not_or, Decidable.not_not, Decidable.not_not] at haligned
          exact absurd ⟨hlong.1, hlong.2, haligned.1, haligned.2⟩ h

/-- Success comes from the kernel, which copies what it was told to. -/
theorem copied_of_ok (h : memcpy64 fuel dst src blocks c = some (.ok (), t)) :
    Checked dst src blocks ∧
      Copied (c.call dst.ptr src.ptr blocks) blocks.toNat blocks.toNat t := by
  by_cases hchecked : Checked dst src blocks
  · rw [memcpy64_of_checked hchecked] at h
    obtain ⟨u, hrun, heq⟩ := Option.map_eq_some_iff.mp h
    cases heq
    have hends := memcpy_ends (c.call dst.ptr src.ptr blocks) hchecked.dst_aligned
      hchecked.src_aligned
    exact ⟨hchecked, hends.of_run hrun⟩
  · obtain ⟨e, herror⟩ := memcpy64_of_not_checked hchecked fuel c
    rw [herror] at h
    cases h

/-- Every block is of the slice when all are. -/
theorem has_of_mem_blocks {s : Slice} {n : Nat} (h : n * 64 ≤ s.len) :
    ∀ a ∈ Knc.blocks s.ptr n, s.Has a := by
  intro a ha
  obtain ⟨i, hi, rfl⟩ := List.mem_map.mp ha
  have hlt := List.mem_range.mp hi
  have hfits := s.fits
  rw [Slice.Has, blockAt_eq (n := n) (by omega) hlt]
  omega

/-- A count that wraps goes through. -/
theorem not_safe_of_wraps (h : Checked dst src blocks) (hwraps : 2 ^ 64 ≤ blocks.toNat * 64) :
    ¬ Safe dst src blocks := by
  intro hsafe
  obtain ⟨fuel, t, hrun, -⟩ := memcpy_ends (calling.call dst.ptr src.ptr blocks) h.dst_aligned
    h.src_aligned
  have hok : memcpy64 fuel dst src blocks calling = some (.ok (), t) := by
    rw [memcpy64_of_checked h, hrun]
    rfl
  obtain ⟨hlong, -⟩ := hsafe.long fuel calling t hok
  have hsmall := dst.small
  omega

theorem safe_of_guarded (h : Guarded dst src blocks) : Safe dst src blocks := by
  have hlong : Checked dst src blocks →
      blocks.toNat * 64 ≤ dst.len ∧ blocks.toNat * 64 ≤ src.len := by
    intro hchecked
    have hdst := hchecked.dst_long
    have hsrc := hchecked.src_long
    obtain hfits | hshort | hshort | hpointer | hpointer := h
    · rw [Nat.mod_eq_of_lt hfits] at hdst hsrc
      exact ⟨hdst, hsrc⟩
    · omega
    · omega
    · exact absurd hchecked.dst_aligned hpointer
    · exact absurd hchecked.src_aligned hpointer
  constructor
  · intro fuel c t hok
    exact hlong (copied_of_ok hok).1
  · intro fuel c t hok
    obtain ⟨hchecked, hcopied⟩ := copied_of_ok hok
    obtain ⟨hdst, hsrc⟩ := hlong hchecked
    exact ⟨_, _, hcopied.loads, hcopied.stores, has_of_mem_blocks hsrc, has_of_mem_blocks hdst⟩
  · intro hshort fuel c
    exact memcpy64_of_not_checked (hshort ∘ hlong) fuel c
  · intro fuel c e t herror
    by_cases hchecked : Checked dst src blocks
    · rw [memcpy64_of_checked hchecked] at herror
      obtain ⟨u, -, heq⟩ := Option.map_eq_some_iff.mp herror
      cases heq
    · obtain ⟨e', he⟩ := memcpy64_of_not_checked hchecked fuel c
      rw [he] at herror
      cases herror
      rfl

end

/-- **`memcpy64` is safe exactly where its product does not mislead it.** -/
theorem memcpy64_safe_iff (dst src : Slice) (blocks : BitVec 64) :
    Safe dst src blocks ↔ Guarded dst src blocks := by
  refine ⟨fun hsafe => Decidable.byContradiction fun hnot => ?_, safe_of_guarded⟩
  unfold Guarded at hnot
  simp only [not_or, Nat.not_lt, Decidable.not_not] at hnot
  obtain ⟨hwraps, hdst, hsrc, hdst', hsrc'⟩ := hnot
  exact not_safe_of_wraps ⟨hdst, hsrc, hdst', hsrc'⟩ hwraps hsafe

/-- Slices of one block, and 2^58 + 1 blocks of them. -/
theorem one_block_overrun :
    ¬ Safe ⟨4096, 64, by decide, by decide⟩ ⟨8192, 64, by decide, by decide⟩
      288230376151711745 :=
  not_safe_of_wraps ⟨by decide, by decide, by decide, by decide⟩ (by decide)

end Phi.Knc
