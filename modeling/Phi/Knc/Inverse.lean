import Phi.Knc.Pack
import Phi.Knc.Unpack

/-!
# Phi.Knc.Inverse

The pack and the unpack kernels against the scalar code, and against each
other.

Both are the scalar functions of the arrays they are given, and write the array
they are to and nothing else; what was packed is then unpacked, because the
scalar functions do so.
-/

namespace Phi.Knc

open Mvex Fields

variable (symbols : String → Nat) {bits : Nat} {ram : Ram} {values packed out : Nat}

/-- The values of a group's words are the scalar code's. -/
theorem row_scalarUnpack (h32 : bits ≤ 32) (ram : Ram) (packed u : Nat) :
    row (scalarUnpack bits (arrayAt ram packed)) u = unpacked bits ram packed u := by
  funext l
  have hword : (fun w => wordsAt ram packed w l) = lane (arrayAt ram packed) l := by
    funext w
    rw [wordsAt, ← row_arrayAt]
    rfl
  rw [row, scalarUnpack_lane h32 l.isLt, unpacked, hword]

/-- `knc_pack_bN` is `scalar_pack`. -/
theorem packKernel_wrote (h0 : 0 < bits) (h32 : bits ≤ 32) (hload : Loaded symbols bits ram)
    (hvalues : values % 64 = 0) (hpacked : packed % 64 = 0)
    (hapart : Beside values 4096 packed (128 * bits)) :
    Call symbols (packKernel bits) [(.rdi, packed), (.rsi, values)] ram
      (Wrote packed (32 * bits) (scalarPack bits (arrayAt ram values)) ram) := by
  refine (packKernel_spec symbols h0 h32 hload hvalues hpacked hapart).mono fun _ h => ?_
  have hwrote := h.wrote
  rwa [← Nat.mul_assoc] at hwrote

/-- `knc_unpack_bN` is `scalar_unpack`. -/
theorem unpackKernel_wrote (h0 : 0 < bits) (h32 : bits ≤ 32) (hload : Loaded symbols bits ram)
    (hout : out % 64 = 0) (hpacked : packed % 64 = 0)
    (hapart : Beside packed (128 * bits) out 4096) :
    Call symbols (unpackKernel bits .plain) [(.rdi, out), (.rsi, packed)] ram
      (Wrote out kncBlock (scalarUnpack bits (arrayAt ram packed)) ram) := by
  intro m hargs hram
  have hrow : decoded .plain (vecAt ram (m.gpr .rdx)) (unpacked bits ram packed) =
      row (scalarUnpack bits (arrayAt ram packed)) :=
    funext fun u => (row_scalarUnpack h32 ram packed u).symm
  have hcall := unpackKernel_spec symbols h0 h32 .plain (m.gpr .rdx) hload hout hpacked
    (fun h => absurd rfl h) hapart
  rw [hrow] at hcall
  refine hcall.mono (fun _ h => h.wrote) m (fun a ha => ?_) hram
  simp only [List.mem_cons, List.not_mem_nil, or_false] at ha
  obtain rfl | rfl | rfl := ha
  · exact hargs (.rdi, out) (by simp)
  · exact hargs (.rsi, packed) (by simp)
  · rfl

/-- A caller's three buffers. -/
structure Buffers (values packed out bits : Nat) : Prop where
  values_align : values % 64 = 0
  packed_align : packed % 64 = 0
  out_align : out % 64 = 0
  source : Beside values 4096 packed (128 * bits)
  target : Beside packed (128 * bits) out 4096

/-- **The kernels are the scalar code, and each other's inverse**: for every width
and every block. -/
theorem kernels_inverse (h0 : 0 < bits) (h32 : bits ≤ 32) (hload : Loaded symbols bits ram)
    (hmask : bits < 32 → Beside (symbols (maskSymbol bits)) 64 packed (128 * bits))
    (h : Buffers values packed out bits) :
    Call symbols (packKernel bits) [(.rdi, packed), (.rsi, values)] ram
        (Wrote packed (32 * bits) (scalarPack bits (arrayAt ram values)) ram) ∧
      Call symbols (unpackKernel bits .plain) [(.rdi, out), (.rsi, packed)] ram
        (Wrote out kncBlock (scalarUnpack bits (arrayAt ram packed)) ram) ∧
      Call symbols (packKernel bits) [(.rdi, packed), (.rsi, values)] ram fun ram' =>
        Call symbols (unpackKernel bits .plain) [(.rdi, out), (.rsi, packed)] ram' fun ram'' =>
          ∀ i < kncBlock,
            (arrayAt ram'' out i).toNat = (arrayAt ram values i).toNat % 2 ^ bits := by
  have hpack := packKernel_wrote symbols h0 h32 hload h.values_align h.packed_align h.source
  refine ⟨hpack, unpackKernel_wrote symbols h0 h32 hload h.out_align h.packed_align h.target,
    hpack.mono fun ram' hwrote => ?_⟩
  have hsize : 4 * (32 * bits) = 128 * bits := by omega
  have hload' := hload.kept hwrote.other (by rwa [hsize])
  refine (unpackKernel_wrote symbols h0 h32 hload' h.out_align h.packed_align h.target).mono
    fun ram'' hwrote' i hi => ?_
  rw [hwrote'.array i hi, scalarUnpack_scalarPack h0 h32 hwrote.array i hi, toNat_and_lowmask h32]

/-- Memory with the mask of five bits at its start, and rubbish behind. -/
def maskAtZero : Ram := putVec (fun x => UInt8.ofNat (7 * x)) 0 fun _ => maskConstant 5

theorem kernels_inverse_five :
    Call (fun _ => 0) (packKernel 5) [(.rdi, 4160), (.rsi, 64)] maskAtZero fun ram' =>
      Call (fun _ => 0) (unpackKernel 5 .plain) [(.rdi, 4800), (.rsi, 4160)] ram' fun ram'' =>
        ∀ i < kncBlock,
          (arrayAt ram'' 4800 i).toNat = (arrayAt maskAtZero 64 i).toNat % 2 ^ 5 :=
  (kernels_inverse (fun _ => 0) (show 0 < 5 by decide) (by decide)
    ⟨fun _ => rfl, fun _ => vecAt_putVec _ _ _⟩ (fun _ => .inl (by decide))
    ⟨rfl, rfl, rfl, .inl (by decide), .inl (by decide)⟩).2.2

end Phi.Knc
