import Phi.Lib.Bytes

/-!
# Phi.Mvex.Encode

The encoder of the card's vector instructions (`knc-mvex`).

`mvex` assembles the four prefix bytes, the opcode, ModRM, a displacement and
an immediate; each instruction has a constructor over it.  Registers are
numbers below 32 and masks below 8, as `mvex` asserts, and a memory operand has
a base without a SIB byte, as `Mem::new` does.  The conversion of a memory
operand is no argument of `mvex`: a constructor sets its bits afterwards, with
`withSss`.  The text beside the bytes is left out.
-/

namespace Phi.Mvex

/-! ## operands -/

/-- `zmm0` to `zmm31`. -/
abbrev Zmm := Fin 32

/-- `k0` to `k7`. -/
abbrev K := Fin 8

-- the numerals of the two types
instance K.neZero : NeZero 8 := ⟨by decide⟩
instance Zmm.neZero : NeZero 32 := ⟨by decide⟩

inductive Gpr where
  | rax | rcx | rdx | rbx | rsp | rbp | rsi | rdi
  | r8 | r9 | r10 | r11 | r12 | r13 | r14 | r15
deriving DecidableEq, Repr

def Gpr.num : Gpr → UInt8
  | .rax => 0
  | .rcx => 1
  | .rdx => 2
  | .rbx => 3
  | .rsp => 4
  | .rbp => 5
  | .rsi => 6
  | .rdi => 7
  | .r8 => 8
  | .r9 => 9
  | .r10 => 10
  | .r11 => 11
  | .r12 => 12
  | .r13 => 13
  | .r14 => 14
  | .r15 => 15

/-- `[base + disp]`, with a base that needs no SIB byte. -/
structure Mem where
  base : Gpr
  disp : BitVec 32
  noSib : base.num &&& 7 ≠ 4
deriving DecidableEq, Repr

/-- What a memory operand is read through. -/
inductive Conv where
  | none | bcast1 | bcast4 | f16 | u8 | s8 | u16 | s16
deriving DecidableEq, Repr

def Conv.code : Conv → UInt8
  | .none => 0
  | .bcast1 => 1
  | .bcast4 => 2
  | .f16 => 3
  | .u8 => 4
  | .s8 => 5
  | .u16 => 6
  | .s16 => 7

/-- The second source of an instruction. -/
inductive Src where
  | reg (z : Zmm)
  | mem (m : Mem)
  | memConv (m : Mem) (c : Conv)
deriving DecidableEq, Repr

/-- The predicate of a compare. -/
inductive Cmp where
  | eq | lt | le | unord | neq | nlt | nle | ord
deriving DecidableEq, Repr

def Cmp.code : Cmp → UInt8
  | .eq => 0
  | .lt => 1
  | .le => 2
  | .unord => 3
  | .neq => 4
  | .nlt => 5
  | .nle => 6
  | .ord => 7

/-- The mode of a rounding. -/
inductive Round where
  | nearest | down | up | zero
deriving DecidableEq, Repr

def Round.code : Round → UInt8
  | .nearest => 0
  | .down => 1
  | .up => 2
  | .zero => 3

/-- The scale of a conversion to fixed point. -/
inductive ExpAdj where
  | none | q28_4 | q27_5 | q24_8 | q16_16 | q8_24 | q1_31 | q0_32
deriving DecidableEq, Repr

def ExpAdj.code : ExpAdj → UInt8
  | .none => 0
  | .q28_4 => 1
  | .q27_5 => 2
  | .q24_8 => 3
  | .q16_16 => 4
  | .q8_24 => 5
  | .q1_31 => 6
  | .q0_32 => 7

/-- The cache a prefetch fills. -/
inductive Cache where
  | l1 | l2
deriving DecidableEq, Repr

def Cache.code : Cache → Fin 32
  | .l1 => 1
  | .l2 => 2

/-! ## mvex -/

/-- The opcode map. -/
inductive Map where
  | m0f | m0f38 | m0f3a
deriving DecidableEq, Repr

def Map.code : Map → UInt8
  | .m0f => 1
  | .m0f38 => 2
  | .m0f3a => 3

/-- The legacy prefix. -/
inductive Pp where
  | none | p66 | pf2
deriving DecidableEq, Repr

def Pp.code : Pp → UInt8
  | .none => 0
  | .p66 => 1
  | .pf2 => 3

/-- The r/m operand. -/
inductive Rm where
  | zmm (z : Zmm)
  | mem (m : Mem)
deriving DecidableEq, Repr

def u8 {n : Nat} (i : Fin n) : UInt8 := UInt8.ofNat i

/-- Bit 3 and bit 4 of the r/m register. -/
def Rm.ext : Rm → UInt8 × UInt8
  | .zmm z => (u8 z >>> (3 : UInt8) &&& 1, u8 z >>> (4 : UInt8) &&& 1)
  | .mem m => (m.base.num >>> (3 : UInt8) &&& 1, 0)

/-- ModRM, and the displacement of a memory operand. -/
def Rm.modrm (reg : Fin 32) : Rm → List UInt8
  | .zmm z => [0xc0 ||| (u8 reg &&& 7) <<< (3 : UInt8) ||| (u8 z &&& 7)]
  | .mem m =>
      (0x80 ||| (u8 reg &&& 7) <<< (3 : UInt8) ||| (m.base.num &&& 7)) :: leBytes 4 m.disp.toNat

def p0 (map : Map) (reg : Fin 32) (b x : UInt8) : UInt8 :=
  (~~~(u8 reg >>> (3 : UInt8) &&& 1) &&& 1) <<< (7 : UInt8) ||| (~~~x &&& 1) <<< (6 : UInt8) |||
    (~~~b &&& 1) <<< (5 : UInt8) |||
    (~~~(u8 reg >>> (4 : UInt8) &&& 1) &&& 1) <<< (4 : UInt8) ||| map.code

def p1 (pp : Pp) (w : Bool) (vvvv : Fin 32) : UInt8 :=
  (if w then 1 else 0) <<< (7 : UInt8) ||| (~~~u8 vvvv &&& 0xf) <<< (3 : UInt8) ||| pp.code

def p2 (vvvv : Fin 32) (aaa : Fin 8) : UInt8 :=
  (~~~(u8 vvvv >>> (4 : UInt8)) &&& 1) <<< (3 : UInt8) ||| u8 aaa

/-- `mvex`: one instruction. -/
def mvex (map : Map) (pp : Pp) (w : Bool) (reg vvvv : Fin 32) (rm : Rm) (aaa : Fin 8)
    (opcode : UInt8) (imm : Option UInt8) : List UInt8 :=
  [0x62, p0 map reg rm.ext.1 rm.ext.2, p1 pp w vvvv, p2 vvvv aaa, opcode] ++ rm.modrm reg ++
    imm.toList

/-- `with_sss`. -/
def withSss (bytes : List UInt8) (sss : UInt8) : List UInt8 :=
  bytes.modify 3 (· ||| sss <<< (4 : UInt8))

/-- `src_rm`. -/
def srcRm : Src → Rm
  | .reg z => .zmm z
  | .mem m => .mem m
  | .memConv m _ => .mem m

/-- `src_sss`. -/
def srcSss : Src → UInt8
  | .memConv _ c => c.code
  | _ => 0

/-- A mask register in the field of a vector register. -/
def kReg (k : K) : Fin 32 := ⟨k, by omega⟩

/-! ## moves (lib.rs) -/

def vmovapsStore (mem : Mem) (src : Zmm) : List UInt8 :=
  mvex .m0f .none false src 0 (.mem mem) 0 0x29 none

def vmovnrapsStore (mem : Mem) (src : Zmm) : List UInt8 :=
  mvex .m0f .pf2 false src 0 (.mem mem) 0 0x29 none

/-- The same with the EH bit. -/
def vmovnrngoapsStore (mem : Mem) (src : Zmm) : List UInt8 :=
  (mvex .m0f .pf2 false src 0 (.mem mem) 0 0x29 none).modify 3 (· ||| 0x80)

def vmovapsLoad (dst : Zmm) (mem : Mem) : List UInt8 :=
  mvex .m0f .none false dst 0 (.mem mem) 0 0x28 none

def vmovapsLoadF16 (dst : Zmm) (mem : Mem) : List UInt8 :=
  (mvex .m0f .none false dst 0 (.mem mem) 0 0x28 none).modify 3 (· ||| 3 <<< (4 : UInt8))

/-- Without `withSss`. -/
def vmovapdLoad (dst : Zmm) (src : Src) (k : K) : List UInt8 :=
  mvex .m0f .p66 true dst 0 (srcRm src) k 0x28 none

def vmovapdStore (mem : Mem) (src : Zmm) (k : K) : List UInt8 :=
  mvex .m0f .p66 true src 0 (.mem mem) k 0x29 none

/-! ## arithmetic (lib.rs) -/

def arith (map : Map) (w : Bool) (opcode : UInt8) (dst src1 : Zmm) (src2 : Src) (k : K) :
    List UInt8 :=
  withSss (mvex map .p66 w dst src1 (srcRm src2) k opcode none) (srcSss src2)

def vaddpd : Zmm → Zmm → Src → K → List UInt8 := arith .m0f true 0x58

def vsubpd : Zmm → Zmm → Src → K → List UInt8 := arith .m0f true 0x5c

def vmulpd : Zmm → Zmm → Src → K → List UInt8 := arith .m0f true 0x59

def vfmadd213pd : Zmm → Zmm → Src → K → List UInt8 := arith .m0f38 true 0xa8

def vfmadd231pd : Zmm → Zmm → Src → K → List UInt8 := arith .m0f38 true 0xb8

/-- Without `withSss`. -/
def vcmppd (dst : K) (src1 : Zmm) (src2 : Src) (pred : Cmp) (k : K) : List UInt8 :=
  mvex .m0f .p66 true (kReg dst) src1 (srcRm src2) k 0xc2 (some pred.code)

def arithPs (map : Map) (opcode : UInt8) (dst src1 : Zmm) (src2 : Src) (k : K) : List UInt8 :=
  withSss (mvex map .none false dst src1 (srcRm src2) k opcode none) (srcSss src2)

def vaddps : Zmm → Zmm → Src → K → List UInt8 := arithPs .m0f 0x58

def vsubps : Zmm → Zmm → Src → K → List UInt8 := arithPs .m0f 0x5c

def vmulps : Zmm → Zmm → Src → K → List UInt8 := arithPs .m0f 0x59

def vfmadd213ps : Zmm → Zmm → Src → K → List UInt8 := arith .m0f38 false 0xa8

def vfmadd231ps : Zmm → Zmm → Src → K → List UInt8 := arith .m0f38 false 0xb8

/-- Without `withSss`. -/
def vcmpps (dst : K) (src1 : Zmm) (src2 : Src) (pred : Cmp) (k : K) : List UInt8 :=
  mvex .m0f .none false (kReg dst) src1 (srcRm src2) k 0xc2 (some pred.code)

def vpackstoreld (mem : Mem) (src : Zmm) (k : K) : List UInt8 :=
  mvex .m0f38 .p66 false src 0 (.mem mem) k 0xd0 none

def vpackstorehd (mem : Mem) (src : Zmm) (k : K) : List UInt8 :=
  mvex .m0f38 .p66 false src 0 (.mem mem) k 0xd4 none

def vpaddd : Zmm → Zmm → Src → K → List UInt8 := arith .m0f false 0xfe

def vpsubd : Zmm → Zmm → Src → K → List UInt8 := arith .m0f false 0xfa

def vpandd : Zmm → Zmm → Src → K → List UInt8 := arith .m0f false 0xdb

def vpandnd : Zmm → Zmm → Src → K → List UInt8 := arith .m0f false 0xdf

def vpord : Zmm → Zmm → Src → K → List UInt8 := arith .m0f false 0xeb

def vpxord : Zmm → Zmm → Src → K → List UInt8 := arith .m0f false 0xef

def vpsllvd : Zmm → Zmm → Src → K → List UInt8 := arith .m0f38 false 0x47

def vpsrlvd : Zmm → Zmm → Src → K → List UInt8 := arith .m0f38 false 0x45

/-- `shift_imm`: the destination in `vvvv`, the opcode extension in ModRM.reg;
without `withSss`. -/
def shiftImm (ext : Fin 8) (dst : Zmm) (src : Src) (count : UInt8) (k : K) : List UInt8 :=
  mvex .m0f .p66 false (kReg ext) dst (srcRm src) k 0x72 (some count)

def vpslld : Zmm → Src → UInt8 → K → List UInt8 := shiftImm 6

def vpsrld : Zmm → Src → UInt8 → K → List UInt8 := shiftImm 2

def vpsrad : Zmm → Src → UInt8 → K → List UInt8 := shiftImm 4

def vloadunpackld (dst : Zmm) (mem : Mem) (k : K) : List UInt8 :=
  mvex .m0f38 .none false dst 0 (.mem mem) k 0xd0 none

def vloadunpackhd (dst : Zmm) (mem : Mem) (k : K) : List UInt8 :=
  mvex .m0f38 .none false dst 0 (.mem mem) k 0xd4 none

def vpbroadcastd (dst : Zmm) (mem : Mem) (k : K) : List UInt8 :=
  mvex .m0f38 .p66 false dst 0 (.mem mem) k 0x58 none

/-! ## converting forms (conv.rs) -/

def vmovapsLoadConv (dst : Zmm) (mem : Mem) (conv : Conv) (k : K) : List UInt8 :=
  withSss (mvex .m0f .none false dst 0 (.mem mem) k 0x28 none) conv.code

def vmovdqa32LoadConv (dst : Zmm) (mem : Mem) (conv : Conv) (k : K) : List UInt8 :=
  withSss (mvex .m0f .p66 false dst 0 (.mem mem) k 0x6f none) conv.code

/-- Neither of the two broadcasts, which some constructors refuse. -/
def Conv.Unbroadcast (c : Conv) : Prop := c ≠ .bcast1 ∧ c ≠ .bcast4

instance (c : Conv) : Decidable c.Unbroadcast := inferInstanceAs (Decidable (_ ∧ _))

def vloadunpackldConv (dst : Zmm) (mem : Mem) (conv : Conv) (k : K) : Option (List UInt8) :=
  if conv.Unbroadcast then
    some (withSss (mvex .m0f38 .none false dst 0 (.mem mem) k 0xd0 none) conv.code)
  else none

def vloadunpackhdConv (dst : Zmm) (mem : Mem) (conv : Conv) (k : K) : Option (List UInt8) :=
  if conv.Unbroadcast then
    some (withSss (mvex .m0f38 .none false dst 0 (.mem mem) k 0xd4 none) conv.code)
  else none

def vcvtfxpntdq2ps (dst : Zmm) (src : Src) (k : K) : List UInt8 :=
  withSss (mvex .m0f3a .none false dst 0 (srcRm src) k 0xcb (some 0)) (srcSss src)

def vrndfxpntps (dst : Zmm) (src : Src) (mode : Round) (k : K) : List UInt8 :=
  withSss (mvex .m0f3a .p66 false dst 0 (srcRm src) k 0x52 (some mode.code)) (srcSss src)

def fma (opcode : UInt8) (dst src1 : Zmm) (src2 : Src) (k : K) : List UInt8 :=
  withSss (mvex .m0f38 .p66 false dst src1 (srcRm src2) k opcode none) (srcSss src2)

def vfnmadd231ps : Zmm → Zmm → Src → K → List UInt8 := fma 0xbc

def vfmsub213ps : Zmm → Zmm → Src → K → List UInt8 := fma 0xaa

def vfmsub231ps : Zmm → Zmm → Src → K → List UInt8 := fma 0xba

def vpermd (dst idx : Zmm) (src2 : Src) (k : K) : List UInt8 :=
  withSss (mvex .m0f38 .p66 false dst idx (srcRm src2) k 0x36 none) (srcSss src2)

def vcvtfxpntps2dq (dst : Zmm) (src : Src) (mode : Round) (k : K) : List UInt8 :=
  withSss (mvex .m0f3a .p66 false dst 0 (srcRm src) k 0xcb (some mode.code)) (srcSss src)

def vmovapsStoreConv (mem : Mem) (src : Zmm) (conv : Conv) (k : K) : Option (List UInt8) :=
  if conv.Unbroadcast then
    some (withSss (mvex .m0f .none false src 0 (.mem mem) k 0x29 none) conv.code)
  else none

/-- The immediate of `vcvtfxpntps2dq_adj`. -/
def adjImm (mode : Round) (adj : ExpAdj) : UInt8 := adj.code <<< (4 : UInt8) ||| mode.code

def vcvtfxpntps2dqAdj (dst : Zmm) (src : Src) (mode : Round) (adj : ExpAdj) (k : K) :
    List UInt8 :=
  withSss (mvex .m0f3a .p66 false dst 0 (srcRm src) k 0xcb (some (adjImm mode adj))) (srcSss src)

def vloadunpacklpsConv (dst : Zmm) (mem : Mem) (conv : Conv) (k : K) : List UInt8 :=
  withSss (mvex .m0f38 .none false dst 0 (.mem mem) k 0xd1 none) conv.code

def vloadunpackhpsConv (dst : Zmm) (mem : Mem) (conv : Conv) (k : K) : List UInt8 :=
  withSss (mvex .m0f38 .none false dst 0 (.mem mem) k 0xd5 none) conv.code

def vprefetch (mem : Mem) (cache : Cache) : List UInt8 :=
  mvex .m0f .none false cache.code 0 (.mem mem) 0 0x18 none

/-! ## approximations (transc.rs) -/

def vexp223ps (dst src : Zmm) (k : K) : List UInt8 :=
  mvex .m0f38 .p66 false dst 0 (srcRm (.reg src)) k 0xc8 none

def vrcp23ps (dst src : Zmm) (k : K) : List UInt8 :=
  mvex .m0f38 .p66 false dst 0 (srcRm (.reg src)) k 0xca none

/-! ## mask moves (lib.rs) -/

/-- `vex_k`: a two-byte VEX instruction on registers 0 to 7. -/
def vexK (opcode reg rm : UInt8) : Option (List UInt8) :=
  if reg < 8 ∧ rm < 8 then some [0xc5, 0xf8, opcode, 0xc0 ||| reg <<< (3 : UInt8) ||| rm] else none

def kmovR32K (dst : Gpr) (src : K) : Option (List UInt8) := vexK 0x93 dst.num (u8 src)

def kmovKR32 (dst : K) (src : Gpr) : Option (List UInt8) := vexK 0x92 (u8 dst) src.num

def kmovKK (dst src : K) : Option (List UInt8) := vexK 0x90 (u8 dst) (u8 src)

def kortest (a b : K) : Option (List UInt8) := vexK 0x98 (u8 a) (u8 b)

end Phi.Mvex
