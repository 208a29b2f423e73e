import Phi.Knc.Kernel
import Phi.Lib.Labels

/-!
# Phi.Knc.Copy

The block copy and the block clear that the generator writes (`memcpy_kernel`
and `memset_body` of `knc-mvex/src/main.rs`).

These two have loops, so here is more of the core: addresses and counts are 64
bits wide and wrap, compares set the flags that the jumps look at, and the
64-byte loads and stores are logged.
-/

namespace Phi.Knc

open Mvex Labels

/-! ## the core -/

/-- The registers, memory, the carry and the zero flag, and the addresses of the
64-byte loads and stores so far. -/
structure Core where
  gpr : Gpr → BitVec 64
  zmm : Zmm → Vec
  ram : Ram
  cf : Bool
  zf : Bool
  loads : List Nat
  stores : List Nat

/-- The instructions of these kernels: `bytes` are a vector instruction, and a
plain number is an immediate. -/
inductive Insn where
  | bytes (bs : List UInt8)
  | movq (src dst : Gpr)
  | cmpq (n : BitVec 64) (r : Gpr)
  | testq (r : Gpr)
  | addq (n : BitVec 64) (r : Gpr)
  | subq (n : BitVec 64) (r : Gpr)
  | decq (r : Gpr)
  | lockAddq (n : BitVec 64) (base : Gpr)
deriving DecidableEq, Repr

/-- `jb`, `jae`, `jz` and `jnz`. -/
inductive Cond where
  | b | ae | z | nz
deriving DecidableEq, Repr

/-- The eight bytes at `a`. -/
def qword (ram : Ram) (a : BitVec 64) : Nat :=
  ofLe ((List.range 8).map fun i => ram (a + BitVec.ofNat 64 i).toNat)

def putQword (ram : Ram) (a : BitVec 64) (v : Nat) : Ram := fun x =>
  let i := (BitVec.ofNat 64 x - a).toNat
  if x < 2 ^ 64 ∧ i < 8 then UInt8.ofNat (v / 256 ^ i) else ram x

namespace Core

def setGpr (c : Core) (r : Gpr) (v : BitVec 64) : Core :=
  { c with gpr := fun q => if q = r then v else c.gpr q }

def setZmm (c : Core) (r : Zmm) (v : Vec) : Core :=
  { c with zmm := fun q => if q = r then v else c.zmm q }

def flags (c : Core) (cf zf : Bool) : Core := { c with cf := cf, zf := zf }

def load (c : Core) (a : Nat) (r : Zmm) : Core :=
  { c.setZmm r (vecAt c.ram a) with loads := c.loads ++ [a] }

def store (c : Core) (a : Nat) (v : Vec) : Core :=
  { c with ram := putVec c.ram a v, stores := c.stores ++ [a] }

/-- A memory form; the address must be a multiple of 64. -/
def vectorMem (f : Fields) (a : Nat) (c : Core) : Option Core :=
  let reg := Fin.ofNat 32 f.reg
  if a % 64 = 0 then
    match f.map, f.pp, f.w, f.eh, f.opcode with
    -- vmovaps, load and store
    | .m0f, .none, false, false, 0x28 => some (c.load a reg)
    | .m0f, .none, false, false, 0x29 => some (c.store a (c.zmm reg))
    -- vmovnrngoaps; that others may see it late is not modelled
    | .m0f, .pf2, false, true, 0x29 => some (c.store a (c.zmm reg))
    | _, _, _, _, _ => none
  else none

/-- A register form. -/
def vectorReg (f : Fields) (src : Vec) (c : Core) : Option Core :=
  match f.map, f.pp, f.w, f.eh, f.opcode with
  -- vpxord
  | .m0f, .p66, false, false, 0xef =>
      some (c.setZmm (Fin.ofNat 32 f.reg) fun l => c.zmm (Fin.ofNat 32 f.vvvv) l ^^^ src l)
  | _, _, _, _, _ => none

/-- A vector instruction without a write mask or a conversion. -/
def vector (f : Fields) (c : Core) : Option Core :=
  if f.mask = 0 ∧ f.sss = 0 then
    match f.rm with
    | .mem base disp => c.vectorMem f (c.gpr (Gpr.ofNum base) + disp.signExtend 64).toNat
    | .zmm n => c.vectorReg f (c.zmm (Fin.ofNat 32 n))
  else none

end Core

def Insn.exec : Insn → Core → Option Core
  | .bytes bs, c => match decode bs with
      | some (.mvex f, []) => c.vector f
      | _ => none
  | .movq src dst, c => some (c.setGpr dst (c.gpr src))
  | .cmpq n r, c => some (c.flags (c.gpr r < n) (c.gpr r = n))
  | .testq r, c => some (c.flags false (c.gpr r = 0))
  | .addq n r, c =>
      let v := c.gpr r + n
      some ((c.setGpr r v).flags (2 ^ 64 ≤ (c.gpr r).toNat + n.toNat) (v = 0))
  | .subq n r, c =>
      let v := c.gpr r - n
      some ((c.setGpr r v).flags (c.gpr r < n) (v = 0))
  | .decq r, c =>
      let v := c.gpr r - 1
      some { c.setGpr r v with zf := v = 0 }
  | .lockAddq n base, c =>
      let old := qword c.ram (c.gpr base)
      let v := (old + n.toNat) % 2 ^ 64
      some { c.flags (2 ^ 64 ≤ old + n.toNat) (v = 0) with
        ram := putQword c.ram (c.gpr base) v }

def Cond.holds : Cond → Core → Bool
  | .b, c => c.cf
  | .ae, c => !c.cf
  | .z, c => c.zf
  | .nz, c => !c.zf

/-- A text comes to a return. -/
abbrev Ends (text : List (Labels.Line Insn Cond)) (c : Core) (P : Core → Prop) : Prop :=
  Returns Insn.exec Cond.holds text text c P

/-! ## the kernels -/

/-- Block `i` into its register, and out of it. -/
def loadBlock (i : Nat) : Insn := .bytes (vmovapsLoad (zmm i) (mem .rsi (64 * i)))

def storeBlock (i : Nat) : Insn := .bytes (vmovapsStore (mem .rdi (64 * i)) (zmm i))

/-- `memcpy_kernel`: `knc_memcpy64`. -/
def memcpyKernel : List (Labels.Line Insn Cond) :=
  ops [.movq .rdi .rax, .cmpq 4 .rdx] ++ [.forward .b 2, .label 1] ++
    ops ((List.range 4).map loadBlock) ++ ops ((List.range 4).map storeBlock) ++
    ops [.addq 256 .rsi, .addq 256 .rdi, .subq 4 .rdx, .cmpq 4 .rdx] ++
    [.backward .ae 1, .label 2] ++ ops [.testq .rdx] ++ [.forward .z 4, .label 3] ++
    ops [loadBlock 0, storeBlock 0, .addq 64 .rsi, .addq 64 .rdi, .decq .rdx] ++
    [.backward .nz 3, .label 4, .ret]

/-- The store of `memset_body`. -/
def clearStore (ngo : Bool) (i : Nat) : Insn :=
  if ngo then .bytes (vmovnrngoapsStore (mem .rdi (64 * i)) (zmm 0))
  else .bytes (vmovapsStore (mem .rdi (64 * i)) (zmm 0))

/-- `memset_body`: `knc_memset64` with the stores that do not fetch the line, and
`knc_memset64_ord` without. -/
def memsetBody (ngo : Bool) : List (Labels.Line Insn Cond) :=
  ops [.movq .rdi .rax, .bytes (vpxord (zmm 0) (zmm 0) (z (zmm 0)) 0), .cmpq 4 .rsi] ++
    [.forward .b 2, .label 1] ++ ops ((List.range 4).map (clearStore ngo)) ++
    ops [.addq 256 .rdi, .subq 4 .rsi, .cmpq 4 .rsi] ++
    [.backward .ae 1, .label 2] ++ ops [.testq .rsi] ++ [.forward .z 4, .label 3] ++
    ops [clearStore ngo 0, .addq 64 .rdi, .decq .rsi] ++
    [.backward .nz 3, .label 4] ++ ops (if ngo then [.lockAddq 0 .rsp] else []) ++ [.ret]

/-- What the two have in common: whole fours while there are four blocks, then one
block at a time, counted down in `count`. -/
def unrolled (count : Gpr) (four one last : List Insn) : List (Labels.Line Insn Cond) :=
  .forward .b 2 :: .label 1 :: (ops (four ++ [.subq 4 count, .cmpq 4 count]) ++
    .backward .ae 1 :: .label 2 :: (ops [.testq count] ++
      .forward .z 4 :: .label 3 :: (ops (one ++ [.decq count]) ++
        .backward .nz 3 :: .label 4 :: (ops last ++ [.ret]))))

def copyBlocks (n : Nat) : List Insn :=
  (List.range n).map loadBlock ++ (List.range n).map storeBlock ++
    [.addq (BitVec.ofNat 64 (64 * n)) .rsi, .addq (BitVec.ofNat 64 (64 * n)) .rdi]

def clearBlocks (ngo : Bool) (n : Nat) : List Insn :=
  (List.range n).map (clearStore ngo) ++ [.addq (BitVec.ofNat 64 (64 * n)) .rdi]

theorem memcpyKernel_eq : memcpyKernel = ops [.movq .rdi .rax, .cmpq 4 .rdx] ++
    unrolled .rdx (copyBlocks 4) (copyBlocks 1) [] := rfl

theorem memsetBody_eq (ngo : Bool) : memsetBody ngo =
    ops [.movq .rdi .rax, .bytes (vpxord (zmm 0) (zmm 0) (z (zmm 0)) 0), .cmpq 4 .rsi] ++
      unrolled .rsi (clearBlocks ngo 4) (clearBlocks ngo 1)
        (if ngo then [.lockAddq 0 .rsp] else []) := by
  cases ngo with
  | false => rfl
  | true => rfl

/-! ## what each instruction does -/

namespace Core

@[simp] theorem setGpr_self (c : Core) (r : Gpr) (v : BitVec 64) : (c.setGpr r v).gpr r = v :=
  if_pos rfl

@[simp] theorem setGpr_same (c : Core) (r : Gpr) : c.setGpr r (c.gpr r) = c := by
  have hgpr : (fun q => if q = r then c.gpr r else c.gpr q) = c.gpr := by
    funext q
    split
    · next h => rw [h]
    · rfl
  show { c with gpr := fun q => if q = r then c.gpr r else c.gpr q } = c
  rw [hgpr]

theorem setGpr_of_ne (c : Core) {q r : Gpr} (v : BitVec 64) (h : q ≠ r) :
    (c.setGpr r v).gpr q = c.gpr q := if_neg h

end Core

theorem exec_bytes {k : Ctor} {a : k.Args} {bs : List UInt8} {f : Fields}
    (h : callOf k a = some bs) (hf : emitted k a = .mvex f) (c : Core) :
    (Insn.bytes bs).exec c = c.vector f := by
  have hdec := decode_call h []
  rw [List.append_nil, hf] at hdec
  rw [Insn.exec, hdec]

/-- Where a memory operand points. -/
def Core.address (c : Core) (mem : Mem) : Nat := (c.gpr mem.base + mem.disp.signExtend 64).toNat

theorem exec_mem {k : Ctor} {a : k.Args} {bs : List UInt8} {f : Fields} {mem : Mem}
    (h : callOf k a = some bs) (hf : emitted k a = .mvex f) (hplain : f.mask = 0 ∧ f.sss = 0)
    (hrm : f.rm = (Rm.mem mem).operand) (c : Core) :
    (Insn.bytes bs).exec c = c.vectorMem f (c.address mem) := by
  rw [exec_bytes h hf, Core.vector, if_pos hplain, hrm]
  simp [Rm.operand, Core.address]

theorem Insn.exec_load (dst : Zmm) (mem : Mem) (c : Core) (h : c.address mem % 64 = 0) :
    (Insn.bytes (vmovapsLoad dst mem)).exec c = some (c.load (c.address mem) dst) := by
  refine (exec_mem (k := .vmovapsLoad) (a := (dst, mem)) rfl rfl ⟨rfl, rfl⟩ rfl c).trans ?_
  rw [Core.vectorMem, if_pos h]
  show some (c.load _ (Fin.ofNat 32 dst)) = _
  rw [ofNat_val]

theorem Insn.exec_store (src : Zmm) (mem : Mem) (c : Core) (h : c.address mem % 64 = 0) :
    (Insn.bytes (vmovapsStore mem src)).exec c =
      some (c.store (c.address mem) (c.zmm src)) := by
  refine (exec_mem (k := .vmovapsStore) (a := (mem, src)) rfl rfl ⟨rfl, rfl⟩ rfl c).trans ?_
  rw [Core.vectorMem, if_pos h]
  show some (c.store _ (c.zmm (Fin.ofNat 32 src))) = _
  rw [ofNat_val]

theorem Insn.exec_storeNgo (src : Zmm) (mem : Mem) (c : Core) (h : c.address mem % 64 = 0) :
    (Insn.bytes (vmovnrngoapsStore mem src)).exec c =
      some (c.store (c.address mem) (c.zmm src)) := by
  refine (exec_mem (k := .vmovnrngoapsStore) (a := (mem, src)) rfl rfl ⟨rfl, rfl⟩ rfl c).trans ?_
  rw [Core.vectorMem, if_pos h]
  show some (c.store _ (c.zmm (Fin.ofNat 32 src))) = _
  rw [ofNat_val]

/-- A register xored with itself is cleared. -/
theorem Insn.exec_clear (r : Zmm) (c : Core) :
    (Insn.bytes (vpxord r r (z r) 0)).exec c = some (c.setZmm r fun _ => 0) := by
  rw [exec_bytes (k := .vpxord) (a := (r, r, .reg r, 0)) rfl rfl]
  have hvector : c.vector (srcFields .m0f .p66 false 0xef r r (.reg r) 0 none) =
      c.vectorReg (srcFields .m0f .p66 false 0xef r r (.reg r) 0 none) (c.zmm r) := by
    simp [Core.vector, srcFields, fieldsOf, srcRm, Rm.operand, Src.conv, Conv.code]
  refine hvector.trans ?_
  show some (c.setZmm (Fin.ofNat 32 r) fun l => c.zmm (Fin.ofNat 32 r) l ^^^ c.zmm r l) = _
  rw [ofNat_val]
  simp

/-! ## counting down -/

/-- What the blocks of a kernel do: `Done k` says that `k` blocks are done, and
does not look at the count or the flags. -/
structure Steps (count : Gpr) (four one : List Insn) (n : Nat) (Done : Nat → Core → Prop) :
    Prop where
  four : ∀ k c, k + 4 ≤ n → Done k c → ∃ d, block Insn.exec four c = some d ∧
    d.gpr count = c.gpr count ∧ Done (k + 4) d
  one : ∀ k c, k + 1 ≤ n → Done k c → ∃ d, block Insn.exec one c = some d ∧
    d.gpr count = c.gpr count ∧ Done (k + 1) d
  counted : ∀ k c v cf zf, Done k c → Done k ((c.setGpr count v).flags cf zf)

section unrolled

variable {count : Gpr} {four one last : List Insn} {n : Nat} {Done : Nat → Core → Prop}
  {P : Core → Prop} {before : List (Labels.Line Insn Cond)}

/-- `left` blocks are left, and the count says so. -/
structure Left (count : Gpr) (n : Nat) (Done : Nat → Core → Prop) (left : Nat) (c : Core) :
    Prop where
  count : (c.gpr count).toNat = left
  le : left ≤ n
  done : Done (n - left) c

/-- A compare or a test leaves it so. -/
theorem Left.flags (h : Steps count four one n Done) {k : Nat} {c : Core}
    (hc : Left count n Done k c) (cf zf : Bool) : Left count n Done k (c.flags cf zf) where
  count := hc.count
  le := hc.le
  done := by
    have hdone := h.counted _ c (c.gpr count) cf zf hc.done
    rwa [Core.setGpr_same] at hdone

/-- Blocks are done, and counted. -/
theorem Left.less (h : Steps count four one n Done) {k m : Nat} {w : BitVec 64} {c d : Core}
    (hc : Left count n Done k c) (hw : w.toNat = m) (hm : m ≤ k)
    (hsame : d.gpr count = c.gpr count) (hdone : Done (n - k + m) d) (cf zf : Bool) :
    Left count n Done (k - m) ((d.setGpr count (d.gpr count - w)).flags cf zf) where
  count := by
    have hk : (d.gpr count).toNat = k := by rw [hsame, hc.count]
    show ((d.setGpr count (d.gpr count - w)).gpr count).toNat = k - m
    rw [Core.setGpr_self, BitVec.toNat_sub_of_le (by rwa [BitVec.le_def, hw, hk]), hk, hw]
  le := Nat.le_trans (Nat.sub_le _ _) hc.le
  done := by
    have hle := hc.le
    have hleft : n - k + m = n - (k - m) := by omega
    exact h.counted _ d _ cf zf (hleft ▸ hdone)

theorem Left.ltu {k m : Nat} {w : BitVec 64} {c : Core} (hc : Left count n Done k c)
    (hw : w.toNat = m) : decide (c.gpr count < w) = decide (k < m) := by
  refine decide_eq_decide.2 ?_
  rw [BitVec.lt_def, hc.count, hw]

theorem Left.zero {k : Nat} {c : Core} (hc : Left count n Done k c) :
    decide (c.gpr count = 0) = decide (k = 0) := by
  rw [← hc.count]
  exact decide_eq_decide.2 ⟨fun h => by rw [h]; rfl, fun h => BitVec.eq_of_toNat_eq h⟩

/-- From label 4 on. -/
def ended (last : List Insn) : List (Labels.Line Insn Cond) :=
  .label 4 :: (ops last ++ [.ret])

/-- From label 2 on. -/
def ones (count : Gpr) (one last : List Insn) : List (Labels.Line Insn Cond) :=
  .label 2 :: (ops [.testq count] ++ .forward .z 4 :: .label 3 ::
    (ops (one ++ [.decq count]) ++ .backward .nz 3 :: ended last))

theorem unrolled_eq (count : Gpr) (four one last : List Insn) :
    unrolled count four one last = .forward .b 2 :: .label 1 ::
      (ops (four ++ [.subq 4 count, .cmpq 4 count]) ++
        .backward .ae 1 :: ones count one last) := rfl

/-- The single blocks. -/
theorem returns_ones (h : Steps count four one n Done)
    (hlast : ∀ c, Done n c → ∃ d, block Insn.exec last c = some d ∧ P d) {k : Nat} {c : Core}
    (hc : Left count n Done k c) :
    Returns Insn.exec Cond.holds (before ++ unrolled count four one last) (ones count one last)
      c P := by
  have hend : ∀ d, Left count n Done 0 d → Returns Insn.exec Cond.holds
      (before ++ unrolled count four one last) (ended last) d P := by
    intro d hd
    obtain ⟨e, hblock, he⟩ := hlast d hd.done
    exact returns_label (returns_ops hblock (returns_ret he))
  have htext : before ++ unrolled count four one last =
      (before ++ .forward .b 2 :: .label 1 :: (ops (four ++ [.subq 4 count, .cmpq 4 count]) ++
        .backward .ae 1 :: .label 2 :: (ops [.testq count] ++ [.forward .z 4]))) ++
        .label 3 :: (ops (one ++ [.decq count]) ++ .backward .nz 3 :: ended last) := by
    simp [unrolled_eq, ones]
  have htest : block Insn.exec [.testq count] c = some (c.flags false (c.gpr count = 0)) := rfl
  have hc' := hc.flags h false (c.gpr count = 0)
  refine returns_label (returns_ops htest ?_)
  by_cases hnone : k = 0
  · have hahead : ahead 4 (.label 3 :: (ops (one ++ [.decq count]) ++ .backward .nz 3 ::
        ended last)) = some (ended last) := ahead_ops 4 _ _
    subst hnone
    exact returns_forward (hc.zero.trans rfl) hahead (hend _ hc')
  · refine returns_not_forward (hc.zero.trans (decide_eq_false hnone)) ?_
    refine returns_loop (I := fun k d => 0 < k ∧ Left count n Done k d) htext ?_
      ⟨Nat.pos_of_ne_zero hnone, hc'⟩
    rintro k d ⟨hpos, hd⟩
    have hle := hd.le
    obtain ⟨e, hblock, hsame, hdone⟩ := h.one (n - k) d (by omega) hd.done
    have hone : (1 : BitVec 64).toNat = 1 := rfl
    have hless := hd.less h hone hpos hsame hdone e.cf (e.gpr count - 1 = 0)
    have hzf : decide (e.gpr count - 1 = 0) = decide (k - 1 = 0) := by
      rw [← hless.zero]
      exact congrArg (fun v : BitVec 64 => decide (v = 0)) (Core.setGpr_self e count _).symm
    refine ⟨(e.setGpr count (e.gpr count - 1)).flags e.cf (e.gpr count - 1 = 0), ?_, ?_⟩
    · rw [block_append, hblock]
      rfl
    · by_cases hmore : k - 1 = 0
      · refine .inr ⟨?_, hend _ (hmore ▸ hless)⟩
        show (!decide (e.gpr count - 1 = 0)) = false
        rw [hzf, decide_eq_true hmore]
        rfl
      · refine .inl ⟨?_, k - 1, by omega, by omega, hless⟩
        show (!decide (e.gpr count - 1 = 0)) = true
        rw [hzf, decide_eq_false hmore]
        rfl

/-- **The loops do every block once**, however many there are. -/
theorem returns_unrolled (h : Steps count four one n Done)
    (hlast : ∀ c, Done n c → ∃ d, block Insn.exec last c = some d ∧ P d) {c : Core}
    (hdone : Done 0 c) (hcount : (c.gpr count).toNat = n)
    (hcf : c.cf = decide (c.gpr count < 4)) :
    Returns Insn.exec Cond.holds (before ++ unrolled count four one last)
      (unrolled count four one last) c P := by
  have hc : Left count n Done n c := ⟨hcount, Nat.le_refl n, by rwa [Nat.sub_self]⟩
  have htext : before ++ unrolled count four one last = (before ++ [.forward .b 2]) ++
      .label 1 :: (ops (four ++ [.subq 4 count, .cmpq 4 count]) ++
        .backward .ae 1 :: ones count one last) := by
    simp [unrolled_eq]
  have hw : (4 : BitVec 64).toNat = 4 := rfl
  have hbelow : c.cf = decide (n < 4) := by rw [hcf, hc.ltu hw]
  by_cases hfew : n < 4
  · have hahead : ahead 2 (.label 1 :: (ops (four ++ [.subq 4 count, .cmpq 4 count]) ++
        .backward .ae 1 :: ones count one last)) = some (ones count one last) := ahead_ops 2 _ _
    exact returns_forward (hbelow.trans (decide_eq_true hfew)) hahead (returns_ones h hlast hc)
  · refine returns_not_forward (hbelow.trans (decide_eq_false hfew)) ?_
    refine returns_loop (I := fun k d => 4 ≤ k ∧ Left count n Done k d) htext ?_ ⟨by omega, hc⟩
    rintro k d ⟨hfour, hd⟩
    have hle := hd.le
    obtain ⟨e, hblock, hsame, hdone⟩ := h.four (n - k) d (by omega) hd.done
    -- the subtraction's flags, and those of the compare
    have hsub := hd.less h hw hfour hsame hdone (e.gpr count < 4) (e.gpr count - 4 = 0)
    have hless := hsub.flags h (e.gpr count - 4 < 4) (e.gpr count - 4 = 4)
    have hcf' : decide (e.gpr count - 4 < 4) = decide (k - 4 < 4) := by
      rw [← hsub.ltu hw]
      exact congrArg (fun v : BitVec 64 => decide (v < 4)) (Core.setGpr_self e count _).symm
    refine ⟨((e.setGpr count (e.gpr count - 4)).flags (e.gpr count < 4)
      (e.gpr count - 4 = 0)).flags (e.gpr count - 4 < 4) (e.gpr count - 4 = 4), ?_, ?_⟩
    · rw [block_append, hblock]
      show some (((e.setGpr count (e.gpr count - 4)).flags _ _).flags
        ((e.setGpr count (e.gpr count - 4)).gpr count < 4)
        ((e.setGpr count (e.gpr count - 4)).gpr count = 4)) = _
      rw [Core.setGpr_self]
    · by_cases hmore : k - 4 < 4
      · refine .inr ⟨?_, returns_ones h hlast hless⟩
        show (!decide (e.gpr count - 4 < 4)) = false
        rw [hcf', decide_eq_true hmore]
        rfl
      · refine .inl ⟨?_, k - 4, by omega, by omega, hless⟩
        show (!decide (e.gpr count - 4 < 4)) = true
        rw [hcf', decide_eq_false hmore]
        rfl

end unrolled

/-! ## memory -/

/-- Byte `j` of a register. -/
def vecByte (v : Vec) (j : Nat) : UInt8 := byteOf (v (Fin.ofNat 16 (j / 4))) (j % 4)

theorem putVec_apply (ram : Ram) (v : Vec) {a x : Nat} (h : a ≤ x ∧ x < a + 64) :
    putVec ram a v x = vecByte v (x - a) := by
  rw [putVec, dif_pos h, vecByte]
  congr 2
  exact Fin.ext (Nat.mod_eq_of_lt (by omega)).symm

theorem byteOf_dword (ram : Ram) (a : Nat) {i : Nat} (hi : i < 4) :
    byteOf (dword ram a) i = ram (a + i) := by
  have hlt : ofLe [ram a, ram (a + 1), ram (a + 2), ram (a + 3)] < 256 ^ 4 := ofLe_lt _
  have hnat : (dword ram a).toNat = ofLe [ram a, ram (a + 1), ram (a + 2), ram (a + 3)] := by
    rw [dword, BitVec.toNat_ofNat]
    exact Nat.mod_eq_of_lt hlt
  rw [byteOf, hnat, ofNat_ofLe_div hi]
  obtain rfl | rfl | rfl | rfl : i = 0 ∨ i = 1 ∨ i = 2 ∨ i = 3 := by omega
  all_goals rfl

theorem vecByte_vecAt (ram : Ram) (a : Nat) {j : Nat} (hj : j < 64) :
    vecByte (vecAt ram a) j = ram (a + j) := by
  have hlane : (Fin.ofNat 16 (j / 4) : Nat) = j / 4 := Nat.mod_eq_of_lt (by omega)
  rw [vecByte, vecAt, hlane, byteOf_dword _ _ (Nat.mod_lt _ (by decide))]
  congr 1
  omega

@[simp] theorem vecByte_zero (j : Nat) : vecByte (fun _ => 0) j = 0 := by
  simp [vecByte, byteOf]

/-- The first `n` bytes from `d` on are `f`'s. -/
def filled (ram : Ram) (d : Nat) (f : Nat → UInt8) (n : Nat) : Ram := fun x =>
  if d ≤ x ∧ x < d + n then f (x - d) else ram x

@[simp] theorem filled_zero (ram : Ram) (d : Nat) (f : Nat → UInt8) : filled ram d f 0 = ram := by
  funext x
  exact if_neg (by omega)

/-- One more block. -/
theorem putVec_filled (ram : Ram) (d : Nat) {f : Nat → UInt8} {n : Nat} {v : Vec}
    (hv : ∀ j < 64, vecByte v j = f (n + j)) :
    putVec (filled ram d f n) (d + n) v = filled ram d f (n + 64) := by
  funext x
  by_cases hin : d + n ≤ x ∧ x < d + n + 64
  · rw [putVec_apply _ _ hin, hv _ (by omega), filled, if_pos (by omega)]
    congr 1
    omega
  · rw [putVec_of_apart _ _ (by omega)]
    unfold filled
    by_cases hold : d ≤ x ∧ x < d + n
    · rw [if_pos hold, if_pos (by omega)]
    · rw [if_neg hold, if_neg (by omega)]

/-! ## blocks -/

/-- Block `i` from `a` on. -/
def blockAt (a : BitVec 64) (i : Nat) : Nat := (a + BitVec.ofNat 64 (64 * i)).toNat

def blocks (a : BitVec 64) (n : Nat) : List Nat := (List.range n).map (blockAt a)

theorem blockAt_add (a : BitVec 64) (k i : Nat) :
    blockAt (a + BitVec.ofNat 64 (64 * k)) i = blockAt a (k + i) := by
  rw [blockAt, blockAt, BitVec.add_assoc, ← BitVec.ofNat_add, Nat.mul_add]

theorem blocks_add (a : BitVec 64) (k n : Nat) :
    blocks a (k + n) = blocks a k ++ blocks (a + BitVec.ofNat 64 (64 * k)) n := by
  rw [blocks, List.range_add, List.map_append, List.map_map]
  congr 1
  exact List.map_congr_left fun i _ => (blockAt_add a k i).symm

theorem blocks_succ (a : BitVec 64) (n : Nat) : blocks a (n + 1) = blocks a n ++ [blockAt a n] := by
  rw [blocks, List.range_succ, List.map_append]
  rfl

theorem blockAt_aligned {a : BitVec 64} (h : a.toNat % 64 = 0) (i : Nat) :
    blockAt a i % 64 = 0 := by
  rw [blockAt, BitVec.toNat_add, BitVec.toNat_ofNat]
  omega

/-- In a buffer that does not reach round the end of memory. -/
theorem blockAt_eq {a : BitVec 64} {i n : Nat} (h : a.toNat + 64 * n ≤ 2 ^ 64) (hi : i < n) :
    blockAt a i = a.toNat + 64 * i := by
  rw [blockAt, BitVec.toNat_add, BitVec.toNat_ofNat]
  omega

theorem Core.address_mem (c : Core) (base : Gpr) [Based base] {i : Nat} (hi : i < 32) :
    c.address (mem base (64 * i)) = blockAt (c.gpr base) i := by
  have hsign : (BitVec.ofNat 32 (64 * i)).signExtend 64 = BitVec.ofNat 64 (64 * i) := by
    have hmsb : (BitVec.ofNat 32 (64 * i)).msb = false := by
      rw [BitVec.msb_eq_false_iff_two_mul_lt, BitVec.toNat_ofNat]
      omega
    rw [BitVec.signExtend_eq_setWidth_of_msb_false hmsb]
    apply BitVec.eq_of_toNat_eq
    rw [BitVec.toNat_setWidth, BitVec.toNat_ofNat, BitVec.toNat_ofNat]
    omega
  show (c.gpr base + (BitVec.ofNat 32 (64 * i)).signExtend 64).toNat = _
  rw [hsign]
  rfl

theorem exec_loadBlock {i : Nat} (hi : i < 32) (c : Core) (h : (c.gpr .rsi).toNat % 64 = 0) :
    (loadBlock i).exec c = some (c.load (blockAt (c.gpr .rsi) i) (zmm i)) := by
  have haddress := Core.address_mem c .rsi hi
  have hexec := Insn.exec_load (zmm i) (mem .rsi (64 * i)) c
    (haddress.symm ▸ blockAt_aligned h i)
  rwa [haddress] at hexec

theorem exec_storeBlock {i : Nat} (hi : i < 32) (c : Core) (h : (c.gpr .rdi).toNat % 64 = 0) :
    (storeBlock i).exec c = some (c.store (blockAt (c.gpr .rdi) i) (c.zmm (zmm i))) := by
  have haddress := Core.address_mem c .rdi hi
  have hexec := Insn.exec_store (zmm i) (mem .rdi (64 * i)) c
    (haddress.symm ▸ blockAt_aligned h i)
  rwa [haddress] at hexec

theorem exec_clearStore (ngo : Bool) {i : Nat} (hi : i < 32) (c : Core)
    (h : (c.gpr .rdi).toNat % 64 = 0) :
    (clearStore ngo i).exec c = some (c.store (blockAt (c.gpr .rdi) i) (c.zmm (zmm 0))) := by
  have haddress := Core.address_mem c .rdi hi
  have haligned : c.address (mem .rdi (64 * i)) % 64 = 0 := haddress.symm ▸ blockAt_aligned h i
  cases ngo with
  | false =>
      have hexec := Insn.exec_store (zmm 0) (mem .rdi (64 * i)) c haligned
      rwa [haddress] at hexec
  | true =>
      have hexec := Insn.exec_storeNgo (zmm 0) (mem .rdi (64 * i)) c haligned
      rwa [haddress] at hexec

/-- The loads of `m` blocks. -/
theorem block_loads {m : Nat} (hm : m ≤ 32) (c : Core) (h : (c.gpr .rsi).toNat % 64 = 0) :
    block Insn.exec ((List.range m).map loadBlock) c =
      some { c with
        zmm := fun q => if (q : Nat) < m then vecAt c.ram (blockAt (c.gpr .rsi) q) else c.zmm q
        loads := c.loads ++ blocks (c.gpr .rsi) m } := by
  induction m with
  | zero => simp [blocks]
  | succ m ih =>
      have hreg : (zmm m : Nat) = m := Nat.mod_eq_of_lt (by omega)
      have hload : ∀ d : Core, d.gpr = c.gpr →
          block Insn.exec [loadBlock m] d = some (d.load (blockAt (c.gpr .rsi) m) (zmm m)) := by
        intro d hd
        rw [block_cons, exec_loadBlock (by omega) d (hd ▸ h), hd]
        rfl
      rw [List.range_succ, List.map_append, block_append, ih (by omega)]
      have hzmm : (fun q : Zmm => if q = zmm m then vecAt c.ram (blockAt (c.gpr .rsi) m)
          else if (q : Nat) < m then vecAt c.ram (blockAt (c.gpr .rsi) q) else c.zmm q) =
          fun q : Zmm => if (q : Nat) < m + 1 then vecAt c.ram (blockAt (c.gpr .rsi) q)
            else c.zmm q := by
        funext q
        by_cases hq : q = zmm m
        · rw [if_pos hq, if_pos (by rw [hq, hreg]; omega), hq, hreg]
        · have hne : (q : Nat) ≠ m := fun heq => hq (Fin.ext (heq.trans hreg.symm))
          rw [if_neg hq]
          by_cases hlt : (q : Nat) < m
          · rw [if_pos hlt, if_pos (by omega)]
          · rw [if_neg hlt, if_neg (by omega)]
      show block Insn.exec [loadBlock m] _ = _
      rw [hload _ (by rfl), blocks_succ, ← List.append_assoc, ← hzmm]
      rfl

/-- Memory after blocks were stored one behind the other. -/
def storeAll (ram : Ram) (a : BitVec 64) (v : Nat → Vec) (m : Nat) : Ram :=
  (List.range m).foldl (fun ram i => putVec ram (blockAt a i) (v i)) ram

theorem storeAll_succ (ram : Ram) (a : BitVec 64) (v : Nat → Vec) (m : Nat) :
    storeAll ram a v (m + 1) = putVec (storeAll ram a v m) (blockAt a m) (v m) := by
  rw [storeAll, List.range_succ, List.foldl_append]
  rfl

/-- The stores of `m` blocks. -/
theorem block_stores {line : Nat → Insn} {v : Nat → Vec} {m : Nat} (c : Core)
    (hline : ∀ i < m, ∀ d : Core, d.gpr = c.gpr → d.zmm = c.zmm →
      (line i).exec d = some (d.store (blockAt (c.gpr .rdi) i) (v i))) :
    block Insn.exec ((List.range m).map line) c =
      some { c with
        ram := storeAll c.ram (c.gpr .rdi) v m
        stores := c.stores ++ blocks (c.gpr .rdi) m } := by
  induction m with
  | zero => simp [blocks, storeAll]
  | succ m ih =>
      have hstore : ∀ d : Core, d.gpr = c.gpr → d.zmm = c.zmm →
          block Insn.exec [line m] d = some (d.store (blockAt (c.gpr .rdi) m) (v m)) := by
        intro d hd hz
        rw [block_cons, hline m (Nat.lt_succ_self m) d hd hz]
        rfl
      rw [List.range_succ, List.map_append, block_append,
        ih fun i hi => hline i (Nat.lt_succ_of_lt hi)]
      show block Insn.exec [line m] _ = _
      rw [hstore _ (by rfl) (by rfl)]
      unfold Core.store
      rw [blocks_succ, storeAll_succ, ← List.append_assoc]

/-- In a buffer whose front is filled already. -/
theorem storeAll_filled (ram : Ram) {a : BitVec 64} {f : Nat → UInt8} {v : Nat → Vec} {k m n : Nat}
    (hend : a.toNat + 64 * n ≤ 2 ^ 64) (hm : k + m ≤ n)
    (hv : ∀ i < m, ∀ j < 64, vecByte (v i) j = f (64 * (k + i) + j)) :
    storeAll (filled ram a.toNat f (64 * k)) (a + BitVec.ofNat 64 (64 * k)) v m =
      filled ram a.toNat f (64 * (k + m)) := by
  induction m with
  | zero => rfl
  | succ m ih =>
      rw [storeAll_succ, ih (by omega) fun i hi => hv i (Nat.lt_succ_of_lt hi), blockAt_add,
        blockAt_eq hend (by omega), putVec_filled _ _ (hv m (Nat.lt_succ_self m))]
      rfl

/-! ## the copy -/

/-- The two buffers of `n` blocks do not reach round the end of memory or into
each other. -/
structure Apart (dst src : BitVec 64) (n : Nat) : Prop where
  dst_le : dst.toNat + 64 * n ≤ 2 ^ 64
  src_le : src.toNat + 64 * n ≤ 2 ^ 64
  apart : dst.toNat + 64 * n ≤ src.toNat ∨ src.toNat + 64 * n ≤ dst.toNat

/-- After `k` blocks of the copy that `s` starts. -/
structure Copied (s : Core) (n k : Nat) (c : Core) : Prop where
  rax : c.gpr .rax = s.gpr .rdi
  rdi : c.gpr .rdi = s.gpr .rdi + BitVec.ofNat 64 (64 * k)
  rsi : c.gpr .rsi = s.gpr .rsi + BitVec.ofNat 64 (64 * k)
  loads : c.loads = s.loads ++ blocks (s.gpr .rsi) k
  stores : c.stores = s.stores ++ blocks (s.gpr .rdi) k
  ram : Apart (s.gpr .rdi) (s.gpr .rsi) n → c.ram =
    filled s.ram (s.gpr .rdi).toNat (fun j => s.ram ((s.gpr .rsi).toNat + j)) (64 * k)

section copy

variable {s c : Core} {n k m : Nat}

theorem aligned_add {a : BitVec 64} (h : a.toNat % 64 = 0) (k : Nat) :
    (a + BitVec.ofNat 64 (64 * k)).toNat % 64 = 0 := blockAt_aligned h k

/-- What is loaded is the source's, which no store has reached. -/
theorem Copied.loaded (h : Copied s n k c) (hapart : Apart (s.gpr .rdi) (s.gpr .rsi) n)
    (hk : k + m ≤ n) : ∀ i < m, ∀ j < 64,
      vecByte (vecAt c.ram (blockAt (c.gpr .rsi) i)) j =
        s.ram ((s.gpr .rsi).toNat + (64 * (k + i) + j)) := by
  intro i hi j hj
  have hold := hapart.apart
  rw [vecByte_vecAt _ _ hj, h.rsi, blockAt_add, blockAt_eq hapart.src_le (by omega), h.ram hapart,
    filled, if_neg (by omega), Nat.add_assoc]

/-- The pointers move on. -/
theorem block_moved (w : BitVec 64) (c : Core) :
    ∃ d, block Insn.exec [.addq w .rsi, .addq w .rdi] c = some d ∧ d.ram = c.ram ∧
      d.loads = c.loads ∧ d.stores = c.stores ∧ d.gpr .rdi = c.gpr .rdi + w ∧
      d.gpr .rsi = c.gpr .rsi + w ∧ d.gpr .rax = c.gpr .rax ∧ d.gpr .rdx = c.gpr .rdx :=
  ⟨_, rfl, rfl, rfl, rfl, rfl, rfl, rfl, rfl⟩

theorem add_blocks (a : BitVec 64) (k m : Nat) :
    a + BitVec.ofNat 64 (64 * k) + BitVec.ofNat 64 (64 * m) =
      a + BitVec.ofNat 64 (64 * (k + m)) := by
  rw [BitVec.add_assoc, ← BitVec.ofNat_add, Nat.mul_add]

/-- **Step lemma**: `m` blocks at a time, all loaded before the first is stored. -/
theorem Copied.step (h : Copied s n k c) (hdst : (s.gpr .rdi).toNat % 64 = 0)
    (hsrc : (s.gpr .rsi).toNat % 64 = 0) (hm : m ≤ 32) (hk : k + m ≤ n) :
    ∃ d, block Insn.exec (copyBlocks m) c = some d ∧ d.gpr .rdx = c.gpr .rdx ∧
      Copied s n (k + m) d := by
  have hrdi : (c.gpr .rdi).toNat % 64 = 0 := h.rdi ▸ aligned_add hdst k
  have hloads := block_loads hm c (h.rsi ▸ aligned_add hsrc k)
  have hvec : ∀ i < m, (if (zmm i : Nat) < m then vecAt c.ram (blockAt (c.gpr .rsi) (zmm i))
      else c.zmm (zmm i)) = vecAt c.ram (blockAt (c.gpr .rsi) i) := by
    intro i hi
    have hreg : (zmm i : Nat) = i := Nat.mod_eq_of_lt (by omega)
    rw [hreg, if_pos hi]
  have hstores : ∀ d : Core, d.gpr = c.gpr → (∀ i < m, d.zmm (zmm i) =
      vecAt c.ram (blockAt (c.gpr .rsi) i)) → block Insn.exec ((List.range m).map storeBlock) d =
        some { d with
          ram := storeAll d.ram (c.gpr .rdi) (fun i => vecAt c.ram (blockAt (c.gpr .rsi) i)) m
          stores := d.stores ++ blocks (c.gpr .rdi) m } := by
    intro d hgpr hzmm
    rw [← hgpr]
    refine block_stores d fun i hi e he hz => ?_
    rw [exec_storeBlock (by omega) e (by rw [he, hgpr]; exact hrdi), he, hz, hzmm i hi, hgpr]
  obtain ⟨d, hd, hram, hld, hst, hdi, hsi, hax, hdx⟩ :=
    block_moved (BitVec.ofNat 64 (64 * m)) { c with
      zmm := fun q => if (q : Nat) < m then vecAt c.ram (blockAt (c.gpr .rsi) q) else c.zmm q
      ram := storeAll c.ram (c.gpr .rdi) (fun i => vecAt c.ram (blockAt (c.gpr .rsi) i)) m
      loads := c.loads ++ blocks (c.gpr .rsi) m
      stores := c.stores ++ blocks (c.gpr .rdi) m }
  refine ⟨d, ?_, hdx, hax.trans h.rax, ?_, ?_, ?_, ?_, fun hapart => ?_⟩
  · rw [copyBlocks, block_append, block_append, hloads]
    show (block Insn.exec ((List.range m).map storeBlock) _ >>= _) = _
    rw [hstores _ (by rfl) hvec]
    exact hd
  · rw [hdi, ← add_blocks, ← h.rdi]
  · rw [hsi, ← add_blocks, ← h.rsi]
  · rw [hld, h.loads, blocks_add, h.rsi, List.append_assoc]
  · rw [hst, h.stores, blocks_add, h.rdi, List.append_assoc]
  · have hfilled := storeAll_filled s.ram (f := fun j => s.ram ((s.gpr .rsi).toNat + j))
      hapart.dst_le hk (h.loaded hapart hk)
    rw [← h.ram hapart, ← h.rdi] at hfilled
    exact hram.trans hfilled

theorem copied_steps (hdst : (s.gpr .rdi).toNat % 64 = 0) (hsrc : (s.gpr .rsi).toNat % 64 = 0) :
    Steps .rdx (copyBlocks 4) (copyBlocks 1) n (Copied s n) where
  four _ _ hk h := h.step hdst hsrc (by decide) hk
  one _ _ hk h := h.step hdst hsrc (by decide) hk
  counted _ _ _ _ _ h := ⟨h.rax, h.rdi, h.rsi, h.loads, h.stores, h.ram⟩

/-- `knc_memcpy64` copies all its blocks. -/
theorem memcpy_ends (s : Core) (hdst : (s.gpr .rdi).toNat % 64 = 0)
    (hsrc : (s.gpr .rsi).toNat % 64 = 0) :
    Ends memcpyKernel s (Copied s (s.gpr .rdx).toNat (s.gpr .rdx).toNat) := by
  have hstart : block Insn.exec [.movq .rdi .rax, .cmpq 4 .rdx] s =
      some ((s.setGpr .rax (s.gpr .rdi)).flags (s.gpr .rdx < 4) (s.gpr .rdx = 4)) := rfl
  have hnone : Copied s (s.gpr .rdx).toNat 0
      ((s.setGpr .rax (s.gpr .rdi)).flags (s.gpr .rdx < 4) (s.gpr .rdx = 4)) :=
    ⟨rfl, (BitVec.add_zero _).symm, (BitVec.add_zero _).symm, (List.append_nil _).symm,
      (List.append_nil _).symm, fun _ => (filled_zero _ _ _).symm⟩
  rw [Ends, memcpyKernel_eq]
  exact returns_ops hstart (returns_unrolled (copied_steps hdst hsrc) (fun c hc => ⟨c, rfl, hc⟩)
    hnone rfl rfl)

end copy

/-! ## the clear -/

/-- After `k` blocks of the clear that `s` starts. -/
structure Cleared (s : Core) (n k : Nat) (c : Core) : Prop where
  rax : c.gpr .rax = s.gpr .rdi
  rdi : c.gpr .rdi = s.gpr .rdi + BitVec.ofNat 64 (64 * k)
  zero : c.zmm (zmm 0) = fun _ => 0
  loads : c.loads = s.loads
  stores : c.stores = s.stores ++ blocks (s.gpr .rdi) k
  ram : (s.gpr .rdi).toNat + 64 * n ≤ 2 ^ 64 → c.ram =
    filled s.ram (s.gpr .rdi).toNat (fun _ => 0) (64 * k)

section clear

variable {s c : Core} {n k m : Nat}

theorem Cleared.step (h : Cleared s n k c) (hdst : (s.gpr .rdi).toNat % 64 = 0) (ngo : Bool)
    (hm : m ≤ 32) (hk : k + m ≤ n) :
    ∃ d, block Insn.exec (clearBlocks ngo m) c = some d ∧ d.gpr .rsi = c.gpr .rsi ∧
      Cleared s n (k + m) d := by
  have hrdi : (c.gpr .rdi).toNat % 64 = 0 := h.rdi ▸ aligned_add hdst k
  have hstores : block Insn.exec ((List.range m).map (clearStore ngo)) c =
      some { c with
        ram := storeAll c.ram (c.gpr .rdi) (fun _ _ => 0) m
        stores := c.stores ++ blocks (c.gpr .rdi) m } := by
    refine block_stores c fun i hi e he hz => ?_
    rw [exec_clearStore ngo (by omega) e (by rw [he]; exact hrdi), he, hz, h.zero]
  have hblock : block Insn.exec (clearBlocks ngo m) c = some ((({ c with
      ram := storeAll c.ram (c.gpr .rdi) (fun _ _ => 0) m
      stores := c.stores ++ blocks (c.gpr .rdi) m } : Core).setGpr .rdi
        (c.gpr .rdi + BitVec.ofNat 64 (64 * m))).flags
          (2 ^ 64 ≤ (c.gpr .rdi).toNat + (BitVec.ofNat 64 (64 * m)).toNat)
          (c.gpr .rdi + BitVec.ofNat 64 (64 * m) = 0)) := by
    rw [clearBlocks, block_append, hstores]
    rfl
  refine ⟨_, hblock, rfl, h.rax, ?_, h.zero, h.loads, ?_, fun hend => ?_⟩
  · show c.gpr .rdi + BitVec.ofNat 64 (64 * m) = _
    rw [h.rdi, add_blocks]
  · show c.stores ++ blocks (c.gpr .rdi) m = _
    rw [h.stores, blocks_add, h.rdi, List.append_assoc]
  · have hfilled := storeAll_filled s.ram (f := fun _ => 0) (v := fun _ _ => 0) hend hk
      fun i _ j _ => vecByte_zero j
    rw [← h.ram hend, ← h.rdi] at hfilled
    exact hfilled

theorem cleared_steps (hdst : (s.gpr .rdi).toNat % 64 = 0) (ngo : Bool) :
    Steps .rsi (clearBlocks ngo 4) (clearBlocks ngo 1) n (Cleared s n) where
  four _ _ hk h := h.step hdst ngo (by decide) hk
  one _ _ hk h := h.step hdst ngo (by decide) hk
  counted _ _ _ _ _ h := ⟨h.rax, h.rdi, h.zero, h.loads, h.stores, h.ram⟩

theorem qword_lt (ram : Ram) (a : BitVec 64) : qword ram a < 2 ^ 64 := by
  have hlt := ofLe_lt ((List.range 8).map fun i => ram (a + BitVec.ofNat 64 i).toNat)
  rw [List.length_map, List.length_range, show (256 : Nat) = 2 ^ 8 by rfl, ← Nat.pow_mul] at hlt
  exact hlt

/-- Nothing added to a word leaves memory as it is. -/
theorem putQword_qword (ram : Ram) (a : BitVec 64) : putQword ram a (qword ram a) = ram := by
  funext x
  unfold putQword
  dsimp only
  split
  · next h =>
      obtain ⟨hx, hi⟩ := h
      have hlen : (BitVec.ofNat 64 x - a).toNat <
          ((List.range 8).map fun i => ram (a + BitVec.ofNat 64 i).toNat).length := by
        simpa using hi
      have hback : a + (BitVec.ofNat 64 x - a) = BitVec.ofNat 64 x := by
        rw [BitVec.add_comm, BitVec.sub_add_cancel]
      rw [qword, ofNat_ofLe_div hlen, List.getElem_map, List.getElem_range, BitVec.ofNat_toNat,
        BitVec.setWidth_eq, hback, BitVec.toNat_ofNat, Nat.mod_eq_of_lt hx]
  · rfl

/-- The fence changes no more than flags. -/
theorem Insn.exec_fence (base : Gpr) (c : Core) :
    ∃ cf zf, (Insn.lockAddq 0 base).exec c = some (c.flags cf zf) := by
  have hold : (qword c.ram (c.gpr base) + (0 : BitVec 64).toNat) % 2 ^ 64 =
      qword c.ram (c.gpr base) := by
    rw [show (0 : BitVec 64).toNat = 0 by rfl, Nat.add_zero, Nat.mod_eq_of_lt (qword_lt _ _)]
  rw [Insn.exec]
  dsimp only
  rw [hold, putQword_qword]
  generalize decide (2 ^ 64 ≤ _) = cf
  generalize decide (qword c.ram (c.gpr base) = 0) = zf
  exact ⟨cf, zf, rfl⟩

theorem Cleared.fenced (h : Cleared s n n c) (ngo : Bool) :
    ∃ d, block Insn.exec (if ngo then [.lockAddq 0 .rsp] else []) c = some d ∧
      Cleared s n n d := by
  cases ngo with
  | false => exact ⟨c, rfl, h⟩
  | true =>
      obtain ⟨cf, zf, hexec⟩ := Insn.exec_fence .rsp c
      rw [if_pos rfl, block_cons, hexec]
      exact ⟨c.flags cf zf, rfl, h.rax, h.rdi, h.zero, h.loads, h.stores, h.ram⟩

/-- `knc_memset64` and `knc_memset64_ord` clear all their blocks. -/
theorem memset_ends (s : Core) (hdst : (s.gpr .rdi).toNat % 64 = 0) (ngo : Bool) :
    Ends (memsetBody ngo) s (Cleared s (s.gpr .rsi).toNat (s.gpr .rsi).toNat) := by
  have hstart : block Insn.exec
      [.movq .rdi .rax, .bytes (vpxord (zmm 0) (zmm 0) (z (zmm 0)) 0), .cmpq 4 .rsi] s =
      some (((s.setGpr .rax (s.gpr .rdi)).setZmm (zmm 0) fun _ => 0).flags (s.gpr .rsi < 4)
        (s.gpr .rsi = 4)) := by
    show ((Insn.bytes (vpxord (zmm 0) (zmm 0) (z (zmm 0)) 0)).exec (s.setGpr .rax (s.gpr .rdi)) >>=
      block Insn.exec [.cmpq 4 .rsi]) = _
    rw [Insn.exec_clear]
    rfl
  have hnone : Cleared s (s.gpr .rsi).toNat 0
      (((s.setGpr .rax (s.gpr .rdi)).setZmm (zmm 0) fun _ => 0).flags (s.gpr .rsi < 4)
        (s.gpr .rsi = 4)) :=
    ⟨rfl, (BitVec.add_zero _).symm, rfl, rfl, (List.append_nil _).symm,
      fun _ => (filled_zero _ _ _).symm⟩
  rw [Ends, memsetBody_eq]
  exact returns_ops hstart (returns_unrolled (cleared_steps hdst ngo) (fun c hc => hc.fenced ngo)
    hnone rfl rfl)

end clear

/-! ## both -/

/-- **The kernels are exact**: for every count they come to a return with what
they are to return, and have loaded and stored just the blocks they are to; where
the buffers do not reach into each other, memory is as it is to be. -/
theorem kernels_exact (s : Core) (hdst : (s.gpr .rdi).toNat % 64 = 0) :
    ((s.gpr .rsi).toNat % 64 = 0 →
      Ends memcpyKernel s (Copied s (s.gpr .rdx).toNat (s.gpr .rdx).toNat)) ∧
    ∀ ngo, Ends (memsetBody ngo) s (Cleared s (s.gpr .rsi).toNat (s.gpr .rsi).toNat) :=
  ⟨memcpy_ends s hdst, memset_ends s hdst⟩

/-- A core that calls them for buffers at 4096 and 8192: five blocks to copy,
8192 to clear. -/
def calling : Core where
  gpr
    | .rdi => 4096
    | .rsi => 8192
    | .rdx => 5
    | _ => 0
  zmm := fun _ _ => 0
  ram := fun x => UInt8.ofNat x
  cf := false
  zf := false
  loads := []
  stores := []

theorem kernels_exact_calling :
    Ends memcpyKernel calling (Copied calling 5 5) ∧
    ∀ ngo, Ends (memsetBody ngo) calling (Cleared calling 8192 8192) :=
  have h := kernels_exact calling rfl
  ⟨h.1 rfl, h.2⟩

end Phi.Knc
