import Phi.Knc.Layout
import Phi.Knc.Steps

/-!
# Phi.Knc.Calls

The kernels as their callers see them: pointers in, memory out.

A caller passes pointers in the registers of the C ABI and finds what the
kernel left in memory; what the other registers hold is nobody's business.  The
masks are rows of a table that the generator writes beside the kernels.
-/

namespace Phi.Knc

open Mvex Fields

/-- The row of `mask_constants` for a width, as loaded; the whole word has none. -/
structure Loaded (symbols : String → Nat) (bits : Nat) (ram : Ram) : Prop where
  align : bits < 32 → symbols (maskSymbol bits) % 64 = 0
  mask : bits < 32 → vecAt ram (symbols (maskSymbol bits)) = fun _ => maskConstant bits

/-- Called with these arguments a kernel comes to its end, and leaves memory so. -/
def Call (symbols : String → Nat) (kernel : List Line) (args : List (Gpr × Nat)) (ram : Ram)
    (P : Ram → Prop) : Prop :=
  ∀ m : Machine, (∀ a ∈ args, m.gpr a.1 = a.2) → m.ram = ram →
    ∃ t, Mvex.run symbols kernel m = some t ∧ P t.ram

/-- Two stretches of memory do not meet. -/
def Beside (a n b m : Nat) : Prop := a + n ≤ b ∨ b + m ≤ a

theorem maskConstant_eq {bits : Nat} (h : bits ≤ 32) : maskConstant bits = low 32 bits := by
  have hall : ∀ b < 33, maskConstant b = low 32 b := by decide
  exact hall bits (by omega)

/-- The array at `a` is `v`, and nothing else has changed. -/
structure Wrote (a n : Nat) (v : Block) (ram ram' : Ram) : Prop where
  array : ∀ i < n, arrayAt ram' a i = v i
  other : ∀ x, (x < a ∨ a + 4 * n ≤ x) → ram' x = ram x

theorem Stored.wrote {a n : Nat} {v : Block} {ram ram' : Ram}
    (h : Stored a 0 n (row v) ram ram') : Wrote a (16 * n) v ram ram' where
  array := eq_of_rows fun u hu => by
    have hslot := h.slots u hu
    rwa [Nat.zero_add, ← row_arrayAt] at hslot
  other x hx := h.other x (by omega)

theorem Call.mono {symbols : String → Nat} {kernel : List Line} {args : List (Gpr × Nat)}
    {ram : Ram} {P Q : Ram → Prop} (h : Call symbols kernel args ram P)
    (hPQ : ∀ ram', P ram' → Q ram') : Call symbols kernel args ram Q := by
  intro m hargs hram
  obtain ⟨t, hrun, ht⟩ := h m hargs hram
  exact ⟨t, hrun, hPQ _ ht⟩

theorem vecAt_of_beside {ram ram' : Ram} {a n b : Nat}
    (h : ∀ x, (x < a ∨ a + n ≤ x) → ram' x = ram x) (hb : Beside b 64 a n) :
    vecAt ram' b = vecAt ram b :=
  vecAt_congr fun x hx hx' => h x (by unfold Beside at hb; omega)

section

variable (symbols : String → Nat) {bits : Nat}

theorem Loaded.kept {ram ram' : Ram} {a n : Nat} {symbols : String → Nat}
    (h : Loaded symbols bits ram) (hother : ∀ x, (x < a ∨ a + n ≤ x) → ram' x = ram x)
    (hb : bits < 32 → Beside (symbols (maskSymbol bits)) 64 a n) : Loaded symbols bits ram' where
  align := h.align
  mask hlt := by rw [vecAt_of_beside hother (hb hlt), h.mask hlt]

/-- A row of masks comes into its register. -/
theorem run_maskRow {symbol : String} {m : Machine} (hbits : bits ≤ 32)
    (halign : symbols symbol % 64 = 0)
    (hmask : vecAt m.ram (symbols symbol) = fun _ => maskConstant bits) :
    ∃ t, Mvex.run symbols [.leaq symbol .rax, .bytes (vmovapsLoad maskReg (mem .rax 0))] m =
        some t ∧ t.ram = m.ram ∧ (∀ r, r ≠ .rax → t.gpr r = m.gpr r) ∧
      (∀ r, r ≠ zmm 30 → t.zmm r = m.zmm r) ∧ t.zmm (zmm 30) = fun _ => low 32 bits := by
  have hleaq : Mvex.run symbols [.leaq symbol .rax] m = some (m.setGpr .rax (symbols symbol)) := rfl
  have haddr : (m.setGpr .rax (symbols symbol)).gpr .rax + 0 = symbols symbol := rfl
  have hload := exec_load symbols (m.setGpr .rax (symbols symbol)) maskReg .rax 0 (by decide)
    (by rw [haddr]; exact halign)
  rw [haddr, Machine.setGpr_ram, hmask, maskConstant_eq hbits] at hload
  exact ⟨_, run_append_of symbols hleaq (run_single symbols hload), rfl, fun r hr => if_neg hr,
    fun r hr => Machine.setZmm_of_ne _ _ hr, Machine.setZmm_self _ _ _⟩

/-- The mask's register is loaded, where there is a mask. -/
theorem run_maskLoad {m : Machine} (h : Loaded symbols bits m.ram) :
    ∃ t, Mvex.run symbols (maskLoad bits) m = some t ∧ t.ram = m.ram ∧
      (∀ r, r ≠ .rax → t.gpr r = m.gpr r) ∧ (∀ r, r ≠ zmm 30 → t.zmm r = m.zmm r) ∧
      (bits < 32 → t.zmm (zmm 30) = fun _ => low 32 bits) := by
  by_cases hb : bits < 32
  · obtain ⟨t, hrun, hram, hgpr, hzmm, hmask⟩ :=
      run_maskRow symbols (Nat.le_of_lt hb) (h.align hb) (h.mask hb)
    rw [maskLoad, if_pos hb]
    exact ⟨t, hrun, hram, hgpr, hzmm, fun _ => hmask⟩
  · exact ⟨m, by rw [maskLoad, if_neg hb]; rfl, rfl, fun _ _ => rfl, fun _ _ => rfl,
      fun h => absurd h hb⟩

end

end Phi.Knc
