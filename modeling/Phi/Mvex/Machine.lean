import Phi.Mvex.Faithful

/-!
# Phi.Mvex.Machine

The card's vector unit running straight-line code of the encoder.

A line of an emitted file is a `.byte` sequence or the `leaq` of a constant's
address; a run decodes each sequence with the reference decoder and carries
out what it says.  A register is sixteen lanes of 32 bits, memory is bytes,
and an address a load or a store cannot take ends the run.  Only the
instructions the bit packing kernels use have a meaning here.
-/

namespace Phi.Mvex

/-! ## memory -/

abbrev Lane := Fin 16

/-- A vector register. -/
abbrev Vec := Lane → BitVec 32

abbrev Ram := Nat → UInt8

def dword (ram : Ram) (a : Nat) : BitVec 32 :=
  BitVec.ofNat 32 (ofLe [ram a, ram (a + 1), ram (a + 2), ram (a + 3)])

/-- The 64 bytes at `a`. -/
def vecAt (ram : Ram) (a : Nat) : Vec := fun l => dword ram (a + 4 * l)

def byteOf (d : BitVec 32) (i : Nat) : UInt8 := UInt8.ofNat (d.toNat / 256 ^ i)

def putVec (ram : Ram) (a : Nat) (v : Vec) : Ram := fun x =>
  if h : a ≤ x ∧ x < a + 64 then byteOf (v ⟨(x - a) / 4, by omega⟩) ((x - a) % 4) else ram x

/-- The dwords from `a` on that lie in its line, over the old register. -/
def unpackLow (ram : Ram) (a : Nat) (old : Vec) : Vec := fun l =>
  if (l : Nat) < (64 - a % 64) / 4 then dword ram (a + 4 * l) else old l

/-- The rest of the dwords from `a - 64` on, which lie in the line of `a`. -/
def unpackHigh (ram : Ram) (a : Nat) (old : Vec) : Vec := fun l =>
  if (64 - a % 64) / 4 ≤ (l : Nat) then dword ram (a - 64 + 4 * l) else old l

theorem dword_putVec (ram : Ram) (a : Nat) (v : Vec) (l : Lane) :
    dword (putVec ram a v) (a + 4 * l) = v l := by
  have hbyte : ∀ i < 4, putVec ram a v (a + 4 * l + i) = byteOf (v l) i := by
    intro i hi
    have hl := l.isLt
    have hin : a ≤ a + 4 * l + i ∧ a + 4 * l + i < a + 64 := by omega
    have hlane : (⟨(a + 4 * l + i - a) / 4, by omega⟩ : Lane) = l := Fin.ext (by simp; omega)
    rw [putVec, dif_pos hin, hlane]
    congr
    omega
  have h0 := hbyte 0 (by decide)
  rw [Nat.add_zero] at h0
  have hle : [byteOf (v l) 0, byteOf (v l) 1, byteOf (v l) 2, byteOf (v l) 3] =
      leBytes 4 (v l).toNat := by
    simp [byteOf, leBytes, Nat.div_div_eq_div_mul]
  rw [dword, h0, hbyte 1 (by decide), hbyte 2 (by decide), hbyte 3 (by decide), hle,
    ofLe_leBytes (v l).isLt]
  simp

@[simp] theorem vecAt_putVec (ram : Ram) (a : Nat) (v : Vec) : vecAt (putVec ram a v) a = v :=
  funext (dword_putVec ram a v)

/-- A store leaves the bytes outside its 64 alone. -/
theorem putVec_of_apart (ram : Ram) (v : Vec) {a x : Nat} (h : x < a ∨ a + 64 ≤ x) :
    putVec ram a v x = ram x := dif_neg (by omega)

theorem dword_congr {ram ram' : Ram} {a : Nat} (h : ∀ x, a ≤ x → x < a + 4 → ram' x = ram x) :
    dword ram' a = dword ram a := by
  rw [dword, dword, h a (by omega) (by omega), h (a + 1) (by omega) (by omega),
    h (a + 2) (by omega) (by omega), h (a + 3) (by omega) (by omega)]

theorem vecAt_congr {ram ram' : Ram} {a : Nat} (h : ∀ x, a ≤ x → x < a + 64 → ram' x = ram x) :
    vecAt ram' a = vecAt ram a :=
  funext fun l => dword_congr fun x hx hx' => h x (by omega) (by omega)

/-- The two halves of an unaligned load. -/
theorem unpackHigh_unpackLow (ram : Ram) (a : Nat) (old : Vec) :
    unpackHigh ram (a + 64) (unpackLow ram a old) = vecAt ram a := by
  funext l
  have hmod : (a + 64) % 64 = a % 64 := by omega
  simp only [unpackHigh, unpackLow, vecAt, hmod, Nat.add_sub_cancel]
  split
  · rfl
  · next h => rw [if_pos (by omega)]

/-! ## the machine -/

structure Machine where
  gpr : Gpr → Nat
  zmm : Zmm → Vec
  ram : Ram

namespace Machine

def setZmm (m : Machine) (r : Zmm) (v : Vec) : Machine :=
  { m with zmm := fun q => if q = r then v else m.zmm q }

def setGpr (m : Machine) (r : Gpr) (n : Nat) : Machine :=
  { m with gpr := fun q => if q = r then n else m.gpr q }

def store (m : Machine) (a : Nat) (v : Vec) : Machine := { m with ram := putVec m.ram a v }

@[simp] theorem setZmm_ram (m : Machine) (r : Zmm) (v : Vec) : (m.setZmm r v).ram = m.ram := rfl

@[simp] theorem setZmm_gpr (m : Machine) (r : Zmm) (v : Vec) : (m.setZmm r v).gpr = m.gpr := rfl

@[simp] theorem setZmm_self (m : Machine) (r : Zmm) (v : Vec) : (m.setZmm r v).zmm r = v :=
  if_pos rfl

theorem setZmm_of_ne (m : Machine) {q r : Zmm} (v : Vec) (h : q ≠ r) :
    (m.setZmm r v).zmm q = m.zmm q := if_neg h

@[simp] theorem setGpr_ram (m : Machine) (r : Gpr) (n : Nat) : (m.setGpr r n).ram = m.ram := rfl

@[simp] theorem setGpr_zmm (m : Machine) (r : Gpr) (n : Nat) : (m.setGpr r n).zmm = m.zmm := rfl

@[simp] theorem store_gpr (m : Machine) (a : Nat) (v : Vec) : (m.store a v).gpr = m.gpr := rfl

@[simp] theorem store_zmm (m : Machine) (a : Nat) (v : Vec) : (m.store a v).zmm = m.zmm := rfl

@[simp] theorem store_ram (m : Machine) (a : Nat) (v : Vec) :
    (m.store a v).ram = putVec m.ram a v := rfl

end Machine

/-! ## instructions -/

def Gpr.ofNum : Nat → Gpr
  | 0 => .rax
  | 1 => .rcx
  | 2 => .rdx
  | 3 => .rbx
  | 4 => .rsp
  | 5 => .rbp
  | 6 => .rsi
  | 7 => .rdi
  | 8 => .r8
  | 9 => .r9
  | 10 => .r10
  | 11 => .r11
  | 12 => .r12
  | 13 => .r13
  | 14 => .r14
  | _ => .r15

@[simp] theorem Gpr.ofNum_num (r : Gpr) : Gpr.ofNum r.num.toNat = r := by cases r <;> rfl

def Machine.address (m : Machine) (base : Gpr) (disp : BitVec 32) : Nat :=
  ((m.gpr base : Int) + disp.toInt).toNat

/-- A memory form. -/
def execMem (f : Fields) (m : Machine) (a : Nat) : Option Machine :=
  let reg := Fin.ofNat 32 f.reg
  match f.map, f.pp, f.w, f.opcode with
  -- vmovaps, load and store
  | .m0f, .none, false, 0x28 => if a % 64 = 0 then some (m.setZmm reg (vecAt m.ram a)) else none
  | .m0f, .none, false, 0x29 => if a % 64 = 0 then some (m.store a (m.zmm reg)) else none
  -- vloadunpackld, vloadunpackhd
  | .m0f38, .none, false, 0xd0 =>
      if a % 4 = 0 then some (m.setZmm reg (unpackLow m.ram a (m.zmm reg))) else none
  | .m0f38, .none, false, 0xd4 =>
      if a % 4 = 0 then some (m.setZmm reg (unpackHigh m.ram a (m.zmm reg))) else none
  -- vpbroadcastd
  | .m0f38, .p66, false, 0x58 =>
      if a % 4 = 0 then some (m.setZmm reg fun _ => dword m.ram a) else none
  | _, _, _, _ => none

/-- A register form. -/
def execReg (f : Fields) (m : Machine) (src : Vec) : Option Machine :=
  let reg := Fin.ofNat 32 f.reg
  let vvvv := Fin.ofNat 32 f.vvvv
  match f.map, f.pp, f.w, f.opcode with
  -- vmovapd
  | .m0f, .p66, true, 0x28 => some (m.setZmm reg src)
  -- vpaddd, vpsubd, vpandd, vpord
  | .m0f, .p66, false, 0xfe => some (m.setZmm reg fun l => m.zmm vvvv l + src l)
  | .m0f, .p66, false, 0xfa => some (m.setZmm reg fun l => m.zmm vvvv l - src l)
  | .m0f, .p66, false, 0xdb => some (m.setZmm reg fun l => m.zmm vvvv l &&& src l)
  | .m0f, .p66, false, 0xeb => some (m.setZmm reg fun l => m.zmm vvvv l ||| src l)
  -- the shifts by an immediate, whose destination is in vvvv
  | .m0f, .p66, false, 0x72 =>
      match f.reg, f.imm with
      | 2, some n => some (m.setZmm vvvv fun l => src l >>> n.toNat)
      | 6, some n => some (m.setZmm vvvv fun l => src l <<< n.toNat)
      | _, _ => none
  | _, _, _, _ => none

/-- An instruction without a write mask, a conversion or a hint. -/
def exec (f : Fields) (m : Machine) : Option Machine :=
  if f.eh = false ∧ f.mask = 0 ∧ f.sss = 0 then
    match f.rm with
    | .mem base disp => execMem f m (m.address (Gpr.ofNum base) disp)
    | .zmm n => execReg f m (m.zmm (Fin.ofNat 32 n))
  else none

/-! ## lines -/

/-- A line of the emitted code. -/
inductive Line where
  | bytes (bs : List UInt8)
  | leaq (symbol : String) (dst : Gpr)
deriving DecidableEq, Repr

def Line.exec (symbols : String → Nat) (line : Line) (m : Machine) : Option Machine :=
  match line with
  | .bytes bs =>
      match decode bs with
      | some (.mvex f, []) => Mvex.exec f m
      | _ => none
  | .leaq symbol dst => some (m.setGpr dst (symbols symbol))

def run (symbols : String → Nat) : List Line → Machine → Option Machine
  | [], m => some m
  | line :: lines, m => line.exec symbols m >>= run symbols lines

section steps

variable (symbols : String → Nat)

theorem run_append (xs ys : List Line) (m : Machine) :
    run symbols (xs ++ ys) m = run symbols xs m >>= run symbols ys := by
  induction xs generalizing m with
  | nil => rfl
  | cons x xs ih =>
      rw [List.cons_append, run, run, bind_assoc]
      exact congrArg _ (funext ih)

@[simp] theorem ofNat_val (z : Zmm) : Fin.ofNat 32 (z : Nat) = z := by simp

theorem exec_of_emitted {c : Ctor} {a : c.Args} {bs : List UInt8} {f : Fields}
    (h : callOf c a = some bs) (hf : emitted c a = .mvex f) (m : Machine) :
    (Line.bytes bs).exec symbols m = exec f m := by
  have hdec := decode_call h []
  rw [List.append_nil, hf] at hdec
  rw [Line.exec, hdec]

variable {map : Map} {pp : Pp} {w : Bool} {reg vvvv : Fin 32} {opcode : UInt8}
  {imm : Option UInt8}

theorem exec_srcFields (src : Zmm) (m : Machine) :
    exec (srcFields map pp w opcode reg vvvv (.reg src) 0 imm) m =
      execReg (srcFields map pp w opcode reg vvvv (.reg src) 0 imm) m (m.zmm src) := by
  simp [exec, srcFields, fieldsOf, srcRm, Rm.operand, Src.conv, Conv.code]

theorem exec_memFields (mem : Mem) (m : Machine) :
    exec (fieldsOf map pp w opcode reg vvvv (.mem mem) 0 .none imm) m =
      execMem (fieldsOf map pp w opcode reg vvvv (.mem mem) 0 .none imm) m
        (m.address mem.base mem.disp) := by
  simp [exec, fieldsOf, Rm.operand, Conv.code]

/-! ## what each constructor does -/

theorem exec_vmovapsLoad (dst : Zmm) (mem : Mem) (m : Machine) :
    (Line.bytes (vmovapsLoad dst mem)).exec symbols m =
      if m.address mem.base mem.disp % 64 = 0 then
        some (m.setZmm dst (vecAt m.ram (m.address mem.base mem.disp))) else none := by
  rw [exec_of_emitted symbols (c := .vmovapsLoad) (a := (dst, mem)) rfl rfl, exec_memFields]
  show (if _ then some (m.setZmm (Fin.ofNat 32 dst) _) else none) = _
  rw [ofNat_val]

theorem exec_vmovapsStore (mem : Mem) (src : Zmm) (m : Machine) :
    (Line.bytes (vmovapsStore mem src)).exec symbols m =
      if m.address mem.base mem.disp % 64 = 0 then
        some (m.store (m.address mem.base mem.disp) (m.zmm src)) else none := by
  rw [exec_of_emitted symbols (c := .vmovapsStore) (a := (mem, src)) rfl rfl, exec_memFields]
  show (if _ then some (m.store _ (m.zmm (Fin.ofNat 32 src))) else none) = _
  rw [ofNat_val]

theorem exec_vloadunpackld (dst : Zmm) (mem : Mem) (m : Machine) :
    (Line.bytes (vloadunpackld dst mem 0)).exec symbols m =
      if m.address mem.base mem.disp % 4 = 0 then
        some (m.setZmm dst (unpackLow m.ram (m.address mem.base mem.disp) (m.zmm dst)))
      else none := by
  rw [exec_of_emitted symbols (c := .vloadunpackld) (a := (dst, mem, 0)) rfl rfl, exec_memFields]
  show (if _ then
      some (m.setZmm (Fin.ofNat 32 dst) (unpackLow _ _ (m.zmm (Fin.ofNat 32 dst)))) else none) = _
  rw [ofNat_val]

theorem exec_vloadunpackhd (dst : Zmm) (mem : Mem) (m : Machine) :
    (Line.bytes (vloadunpackhd dst mem 0)).exec symbols m =
      if m.address mem.base mem.disp % 4 = 0 then
        some (m.setZmm dst (unpackHigh m.ram (m.address mem.base mem.disp) (m.zmm dst)))
      else none := by
  rw [exec_of_emitted symbols (c := .vloadunpackhd) (a := (dst, mem, 0)) rfl rfl, exec_memFields]
  show (if _ then
      some (m.setZmm (Fin.ofNat 32 dst) (unpackHigh _ _ (m.zmm (Fin.ofNat 32 dst)))) else none) = _
  rw [ofNat_val]

theorem exec_vpbroadcastd (dst : Zmm) (mem : Mem) (m : Machine) :
    (Line.bytes (vpbroadcastd dst mem 0)).exec symbols m =
      if m.address mem.base mem.disp % 4 = 0 then
        some (m.setZmm dst fun _ => dword m.ram (m.address mem.base mem.disp)) else none := by
  rw [exec_of_emitted symbols (c := .vpbroadcastd) (a := (dst, mem, 0)) rfl rfl, exec_memFields]
  show (if _ then some (m.setZmm (Fin.ofNat 32 dst) _) else none) = _
  rw [ofNat_val]

theorem exec_vmovapdLoad (dst src : Zmm) (m : Machine) :
    (Line.bytes (vmovapdLoad dst (.reg src) 0)).exec symbols m =
      some (m.setZmm dst (m.zmm src)) := by
  rw [exec_of_emitted symbols (c := .vmovapdLoad) (a := (dst, .reg src, 0)) rfl rfl]
  refine (exec_srcFields src m).trans ?_
  show some (m.setZmm (Fin.ofNat 32 dst) _) = _
  rw [ofNat_val]

theorem exec_vpaddd (dst src1 src2 : Zmm) (m : Machine) :
    (Line.bytes (vpaddd dst src1 (.reg src2) 0)).exec symbols m =
      some (m.setZmm dst fun l => m.zmm src1 l + m.zmm src2 l) := by
  rw [exec_of_emitted symbols (c := .vpaddd) (a := (dst, src1, .reg src2, 0)) rfl rfl]
  refine (exec_srcFields src2 m).trans ?_
  show some (m.setZmm (Fin.ofNat 32 dst) fun l => m.zmm (Fin.ofNat 32 src1) l + m.zmm src2 l) = _
  rw [ofNat_val, ofNat_val]

theorem exec_vpsubd (dst src1 src2 : Zmm) (m : Machine) :
    (Line.bytes (vpsubd dst src1 (.reg src2) 0)).exec symbols m =
      some (m.setZmm dst fun l => m.zmm src1 l - m.zmm src2 l) := by
  rw [exec_of_emitted symbols (c := .vpsubd) (a := (dst, src1, .reg src2, 0)) rfl rfl]
  refine (exec_srcFields src2 m).trans ?_
  show some (m.setZmm (Fin.ofNat 32 dst) fun l => m.zmm (Fin.ofNat 32 src1) l - m.zmm src2 l) = _
  rw [ofNat_val, ofNat_val]

theorem exec_vpandd (dst src1 src2 : Zmm) (m : Machine) :
    (Line.bytes (vpandd dst src1 (.reg src2) 0)).exec symbols m =
      some (m.setZmm dst fun l => m.zmm src1 l &&& m.zmm src2 l) := by
  rw [exec_of_emitted symbols (c := .vpandd) (a := (dst, src1, .reg src2, 0)) rfl rfl]
  refine (exec_srcFields src2 m).trans ?_
  show some (m.setZmm (Fin.ofNat 32 dst) fun l => m.zmm (Fin.ofNat 32 src1) l &&& m.zmm src2 l) = _
  rw [ofNat_val, ofNat_val]

theorem exec_vpord (dst src1 src2 : Zmm) (m : Machine) :
    (Line.bytes (vpord dst src1 (.reg src2) 0)).exec symbols m =
      some (m.setZmm dst fun l => m.zmm src1 l ||| m.zmm src2 l) := by
  rw [exec_of_emitted symbols (c := .vpord) (a := (dst, src1, .reg src2, 0)) rfl rfl]
  refine (exec_srcFields src2 m).trans ?_
  show some (m.setZmm (Fin.ofNat 32 dst) fun l => m.zmm (Fin.ofNat 32 src1) l ||| m.zmm src2 l) = _
  rw [ofNat_val, ofNat_val]

theorem exec_vpsrld (dst src : Zmm) (n : UInt8) (m : Machine) :
    (Line.bytes (vpsrld dst (.reg src) n 0)).exec symbols m =
      some (m.setZmm dst fun l => m.zmm src l >>> n.toNat) := by
  rw [exec_of_emitted symbols (c := .vpsrld) (a := (dst, .reg src, n, 0)) rfl rfl]
  refine (exec_srcFields src m).trans ?_
  show some (m.setZmm (Fin.ofNat 32 dst) _) = _
  rw [ofNat_val]

theorem exec_vpslld (dst src : Zmm) (n : UInt8) (m : Machine) :
    (Line.bytes (vpslld dst (.reg src) n 0)).exec symbols m =
      some (m.setZmm dst fun l => m.zmm src l <<< n.toNat) := by
  rw [exec_of_emitted symbols (c := .vpslld) (a := (dst, .reg src, n, 0)) rfl rfl]
  refine (exec_srcFields src m).trans ?_
  show some (m.setZmm (Fin.ofNat 32 dst) _) = _
  rw [ofNat_val]

end steps

end Phi.Mvex
