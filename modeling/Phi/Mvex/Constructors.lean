import Phi.Mvex.Decode

/-!
# Phi.Mvex.Constructors

The constructors of `knc-mvex` as one table: the operands each takes, the
bytes it makes of them, and what its documentation says the instruction is.

`callOf` is the code and `givenOf` is the reference: the opcode map, the prefix and
W of the constructor's own description, with the operands of the call in the
fields they belong in.
-/

namespace Phi.Mvex

/-! ## the table -/

/-- The operands a constructor takes. -/
inductive Shape where
  | store | load | unary | maskedStore | binary | compare | shift | maskedLoad | convLoad
  | convStore | round | adjust | prefetch | approx | gprMask | maskGpr | masks
deriving DecidableEq, Repr

def Shape.Args : Shape → Type
  | .store => Mem × Zmm
  | .load => Zmm × Mem
  | .unary => Zmm × Src × K
  | .maskedStore => Mem × Zmm × K
  | .binary => Zmm × Zmm × Src × K
  | .compare => K × Zmm × Src × Cmp × K
  | .shift => Zmm × Src × UInt8 × K
  | .maskedLoad => Zmm × Mem × K
  | .convLoad => Zmm × Mem × Conv × K
  | .convStore => Mem × Zmm × Conv × K
  | .round => Zmm × Src × Round × K
  | .adjust => Zmm × Src × Round × ExpAdj × K
  | .prefetch => Mem × Cache
  | .approx => Zmm × Zmm × K
  | .gprMask => Gpr × K
  | .maskGpr => K × Gpr
  | .masks => K × K

/-- The constructors. -/
inductive Ctor where
  | vmovapsStore | vmovnrapsStore | vmovnrngoapsStore | vmovapsLoad | vmovapsLoadF16
  | vmovapdLoad | vmovapdStore | vaddpd | vsubpd | vmulpd | vfmadd213pd | vfmadd231pd | vaddps
  | vsubps | vmulps | vfmadd213ps | vfmadd231ps | vpaddd | vpsubd | vpandd | vpandnd | vpord
  | vpxord | vpsllvd | vpsrlvd | vfnmadd231ps | vfmsub213ps | vfmsub231ps | vpermd | vcmppd
  | vcmpps | vpackstoreld | vpackstorehd | vpslld | vpsrld | vpsrad | vloadunpackld
  | vloadunpackhd | vpbroadcastd | vmovapsLoadConv | vmovdqa32LoadConv | vloadunpackldConv
  | vloadunpackhdConv | vloadunpacklpsConv | vloadunpackhpsConv | vmovapsStoreConv
  | vcvtfxpntdq2ps | vrndfxpntps | vcvtfxpntps2dq | vcvtfxpntps2dqAdj | vprefetch | vexp223ps
  | vrcp23ps | kmovR32K | kmovKR32 | kmovKK | kortest
deriving DecidableEq, Repr

def Ctor.shape : Ctor → Shape
  | .vmovapsStore | .vmovnrapsStore | .vmovnrngoapsStore => .store
  | .vmovapsLoad | .vmovapsLoadF16 => .load
  | .vmovapdLoad | .vcvtfxpntdq2ps => .unary
  | .vmovapdStore | .vpackstoreld | .vpackstorehd => .maskedStore
  | .vaddpd | .vsubpd | .vmulpd | .vfmadd213pd | .vfmadd231pd | .vaddps | .vsubps | .vmulps
  | .vfmadd213ps | .vfmadd231ps | .vpaddd | .vpsubd | .vpandd | .vpandnd | .vpord | .vpxord
  | .vpsllvd | .vpsrlvd | .vfnmadd231ps | .vfmsub213ps | .vfmsub231ps | .vpermd => .binary
  | .vcmppd | .vcmpps => .compare
  | .vpslld | .vpsrld | .vpsrad => .shift
  | .vloadunpackld | .vloadunpackhd | .vpbroadcastd => .maskedLoad
  | .vmovapsLoadConv | .vmovdqa32LoadConv | .vloadunpackldConv | .vloadunpackhdConv
  | .vloadunpacklpsConv | .vloadunpackhpsConv => .convLoad
  | .vmovapsStoreConv => .convStore
  | .vrndfxpntps | .vcvtfxpntps2dq => .round
  | .vcvtfxpntps2dqAdj => .adjust
  | .vprefetch => .prefetch
  | .vexp223ps | .vrcp23ps => .approx
  | .kmovR32K => .gprMask
  | .kmovKR32 => .maskGpr
  | .kmovKK | .kortest => .masks

abbrev Ctor.Args (c : Ctor) : Type := c.shape.Args

/-- The bytes of a call; none where the constructor refuses an operand. -/
def callOf : (c : Ctor) → c.Args → Option (List UInt8)
  | .vmovapsStore, (mem, src) => some (vmovapsStore mem src)
  | .vmovnrapsStore, (mem, src) => some (vmovnrapsStore mem src)
  | .vmovnrngoapsStore, (mem, src) => some (vmovnrngoapsStore mem src)
  | .vmovapsLoad, (dst, mem) => some (vmovapsLoad dst mem)
  | .vmovapsLoadF16, (dst, mem) => some (vmovapsLoadF16 dst mem)
  | .vmovapdLoad, (dst, src, k) => some (vmovapdLoad dst src k)
  | .vmovapdStore, (mem, src, k) => some (vmovapdStore mem src k)
  | .vaddpd, (dst, src1, src2, k) => some (vaddpd dst src1 src2 k)
  | .vsubpd, (dst, src1, src2, k) => some (vsubpd dst src1 src2 k)
  | .vmulpd, (dst, src1, src2, k) => some (vmulpd dst src1 src2 k)
  | .vfmadd213pd, (dst, src1, src2, k) => some (vfmadd213pd dst src1 src2 k)
  | .vfmadd231pd, (dst, src1, src2, k) => some (vfmadd231pd dst src1 src2 k)
  | .vaddps, (dst, src1, src2, k) => some (vaddps dst src1 src2 k)
  | .vsubps, (dst, src1, src2, k) => some (vsubps dst src1 src2 k)
  | .vmulps, (dst, src1, src2, k) => some (vmulps dst src1 src2 k)
  | .vfmadd213ps, (dst, src1, src2, k) => some (vfmadd213ps dst src1 src2 k)
  | .vfmadd231ps, (dst, src1, src2, k) => some (vfmadd231ps dst src1 src2 k)
  | .vpaddd, (dst, src1, src2, k) => some (vpaddd dst src1 src2 k)
  | .vpsubd, (dst, src1, src2, k) => some (vpsubd dst src1 src2 k)
  | .vpandd, (dst, src1, src2, k) => some (vpandd dst src1 src2 k)
  | .vpandnd, (dst, src1, src2, k) => some (vpandnd dst src1 src2 k)
  | .vpord, (dst, src1, src2, k) => some (vpord dst src1 src2 k)
  | .vpxord, (dst, src1, src2, k) => some (vpxord dst src1 src2 k)
  | .vpsllvd, (dst, src1, src2, k) => some (vpsllvd dst src1 src2 k)
  | .vpsrlvd, (dst, src1, src2, k) => some (vpsrlvd dst src1 src2 k)
  | .vfnmadd231ps, (dst, src1, src2, k) => some (vfnmadd231ps dst src1 src2 k)
  | .vfmsub213ps, (dst, src1, src2, k) => some (vfmsub213ps dst src1 src2 k)
  | .vfmsub231ps, (dst, src1, src2, k) => some (vfmsub231ps dst src1 src2 k)
  | .vpermd, (dst, src1, src2, k) => some (vpermd dst src1 src2 k)
  | .vcmppd, (dst, src1, src2, pred, k) => some (vcmppd dst src1 src2 pred k)
  | .vcmpps, (dst, src1, src2, pred, k) => some (vcmpps dst src1 src2 pred k)
  | .vpackstoreld, (mem, src, k) => some (vpackstoreld mem src k)
  | .vpackstorehd, (mem, src, k) => some (vpackstorehd mem src k)
  | .vpslld, (dst, src, count, k) => some (vpslld dst src count k)
  | .vpsrld, (dst, src, count, k) => some (vpsrld dst src count k)
  | .vpsrad, (dst, src, count, k) => some (vpsrad dst src count k)
  | .vloadunpackld, (dst, mem, k) => some (vloadunpackld dst mem k)
  | .vloadunpackhd, (dst, mem, k) => some (vloadunpackhd dst mem k)
  | .vpbroadcastd, (dst, mem, k) => some (vpbroadcastd dst mem k)
  | .vmovapsLoadConv, (dst, mem, conv, k) => some (vmovapsLoadConv dst mem conv k)
  | .vmovdqa32LoadConv, (dst, mem, conv, k) => some (vmovdqa32LoadConv dst mem conv k)
  | .vloadunpackldConv, (dst, mem, conv, k) => vloadunpackldConv dst mem conv k
  | .vloadunpackhdConv, (dst, mem, conv, k) => vloadunpackhdConv dst mem conv k
  | .vloadunpacklpsConv, (dst, mem, conv, k) => some (vloadunpacklpsConv dst mem conv k)
  | .vloadunpackhpsConv, (dst, mem, conv, k) => some (vloadunpackhpsConv dst mem conv k)
  | .vmovapsStoreConv, (mem, src, conv, k) => vmovapsStoreConv mem src conv k
  | .vcvtfxpntdq2ps, (dst, src, k) => some (vcvtfxpntdq2ps dst src k)
  | .vrndfxpntps, (dst, src, mode, k) => some (vrndfxpntps dst src mode k)
  | .vcvtfxpntps2dq, (dst, src, mode, k) => some (vcvtfxpntps2dq dst src mode k)
  | .vcvtfxpntps2dqAdj, (dst, src, mode, adj, k) => some (vcvtfxpntps2dqAdj dst src mode adj k)
  | .vprefetch, (mem, cache) => some (vprefetch mem cache)
  | .vexp223ps, (dst, src, k) => some (vexp223ps dst src k)
  | .vrcp23ps, (dst, src, k) => some (vrcp23ps dst src k)
  | .kmovR32K, (dst, src) => kmovR32K dst src
  | .kmovKR32, (dst, src) => kmovKR32 dst src
  | .kmovKK, (dst, src) => kmovKK dst src
  | .kortest, (a, b) => kortest a b

/-! ## what a call asks for -/

/-- A decoded instruction: one of the vector unit, or one of the mask
registers. -/
inductive Decoded where
  | mvex (f : Fields)
  | vex (opcode : UInt8) (reg rm : Nat)
deriving DecidableEq, Repr

def fieldsOf (map : Map) (pp : Pp) (w : Bool) (opcode : UInt8) (reg vvvv : Fin 32) (rm : Rm)
    (k : K) (conv : Conv) (imm : Option UInt8) : Fields where
  map := map
  pp := pp
  w := w
  eh := false
  opcode := opcode
  reg := reg
  vvvv := vvvv
  rm := rm.operand
  mask := k
  sss := conv.code.toNat
  imm := imm

/-- The conversion of a source. -/
def Src.conv : Src → Conv
  | .memConv _ c => c
  | _ => .none

def srcFields (map : Map) (pp : Pp) (w : Bool) (opcode : UInt8) (reg vvvv : Fin 32) (src : Src)
    (k : K) (imm : Option UInt8) : Fields :=
  fieldsOf map pp w opcode reg vvvv (srcRm src) k src.conv imm

/-- The instruction a call asks for. -/
def givenOf : (c : Ctor) → c.Args → Decoded
  | .vmovapsStore, (mem, src) =>
      .mvex (fieldsOf .m0f .none false 0x29 src 0 (.mem mem) 0 .none none)
  | .vmovnrapsStore, (mem, src) =>
      .mvex (fieldsOf .m0f .pf2 false 0x29 src 0 (.mem mem) 0 .none none)
  | .vmovnrngoapsStore, (mem, src) =>
      .mvex { fieldsOf .m0f .pf2 false 0x29 src 0 (.mem mem) 0 .none none with eh := true }
  | .vmovapsLoad, (dst, mem) => .mvex (fieldsOf .m0f .none false 0x28 dst 0 (.mem mem) 0 .none none)
  | .vmovapsLoadF16, (dst, mem) =>
      .mvex (fieldsOf .m0f .none false 0x28 dst 0 (.mem mem) 0 .f16 none)
  | .vmovapdLoad, (dst, src, k) => .mvex (srcFields .m0f .p66 true 0x28 dst 0 src k none)
  | .vmovapdStore, (mem, src, k) =>
      .mvex (fieldsOf .m0f .p66 true 0x29 src 0 (.mem mem) k .none none)
  | .vaddpd, (dst, src1, src2, k) => .mvex (srcFields .m0f .p66 true 0x58 dst src1 src2 k none)
  | .vsubpd, (dst, src1, src2, k) => .mvex (srcFields .m0f .p66 true 0x5c dst src1 src2 k none)
  | .vmulpd, (dst, src1, src2, k) => .mvex (srcFields .m0f .p66 true 0x59 dst src1 src2 k none)
  | .vfmadd213pd, (dst, src1, src2, k) =>
      .mvex (srcFields .m0f38 .p66 true 0xa8 dst src1 src2 k none)
  | .vfmadd231pd, (dst, src1, src2, k) =>
      .mvex (srcFields .m0f38 .p66 true 0xb8 dst src1 src2 k none)
  | .vaddps, (dst, src1, src2, k) => .mvex (srcFields .m0f .none false 0x58 dst src1 src2 k none)
  | .vsubps, (dst, src1, src2, k) => .mvex (srcFields .m0f .none false 0x5c dst src1 src2 k none)
  | .vmulps, (dst, src1, src2, k) => .mvex (srcFields .m0f .none false 0x59 dst src1 src2 k none)
  | .vfmadd213ps, (dst, src1, src2, k) =>
      .mvex (srcFields .m0f38 .p66 false 0xa8 dst src1 src2 k none)
  | .vfmadd231ps, (dst, src1, src2, k) =>
      .mvex (srcFields .m0f38 .p66 false 0xb8 dst src1 src2 k none)
  | .vpaddd, (dst, src1, src2, k) => .mvex (srcFields .m0f .p66 false 0xfe dst src1 src2 k none)
  | .vpsubd, (dst, src1, src2, k) => .mvex (srcFields .m0f .p66 false 0xfa dst src1 src2 k none)
  | .vpandd, (dst, src1, src2, k) => .mvex (srcFields .m0f .p66 false 0xdb dst src1 src2 k none)
  | .vpandnd, (dst, src1, src2, k) => .mvex (srcFields .m0f .p66 false 0xdf dst src1 src2 k none)
  | .vpord, (dst, src1, src2, k) => .mvex (srcFields .m0f .p66 false 0xeb dst src1 src2 k none)
  | .vpxord, (dst, src1, src2, k) => .mvex (srcFields .m0f .p66 false 0xef dst src1 src2 k none)
  | .vpsllvd, (dst, src1, src2, k) => .mvex (srcFields .m0f38 .p66 false 0x47 dst src1 src2 k none)
  | .vpsrlvd, (dst, src1, src2, k) => .mvex (srcFields .m0f38 .p66 false 0x45 dst src1 src2 k none)
  | .vfnmadd231ps, (dst, src1, src2, k) =>
      .mvex (srcFields .m0f38 .p66 false 0xbc dst src1 src2 k none)
  | .vfmsub213ps, (dst, src1, src2, k) =>
      .mvex (srcFields .m0f38 .p66 false 0xaa dst src1 src2 k none)
  | .vfmsub231ps, (dst, src1, src2, k) =>
      .mvex (srcFields .m0f38 .p66 false 0xba dst src1 src2 k none)
  | .vpermd, (dst, src1, src2, k) => .mvex (srcFields .m0f38 .p66 false 0x36 dst src1 src2 k none)
  | .vcmppd, (dst, src1, src2, pred, k) =>
      .mvex (srcFields .m0f .p66 true 0xc2 (kReg dst) src1 src2 k (some pred.code))
  | .vcmpps, (dst, src1, src2, pred, k) =>
      .mvex (srcFields .m0f .none false 0xc2 (kReg dst) src1 src2 k (some pred.code))
  | .vpackstoreld, (mem, src, k) =>
      .mvex (fieldsOf .m0f38 .p66 false 0xd0 src 0 (.mem mem) k .none none)
  | .vpackstorehd, (mem, src, k) =>
      .mvex (fieldsOf .m0f38 .p66 false 0xd4 src 0 (.mem mem) k .none none)
  | .vpslld, (dst, src, count, k) => .mvex (srcFields .m0f .p66 false 0x72 6 dst src k (some count))
  | .vpsrld, (dst, src, count, k) => .mvex (srcFields .m0f .p66 false 0x72 2 dst src k (some count))
  | .vpsrad, (dst, src, count, k) => .mvex (srcFields .m0f .p66 false 0x72 4 dst src k (some count))
  | .vloadunpackld, (dst, mem, k) =>
      .mvex (fieldsOf .m0f38 .none false 0xd0 dst 0 (.mem mem) k .none none)
  | .vloadunpackhd, (dst, mem, k) =>
      .mvex (fieldsOf .m0f38 .none false 0xd4 dst 0 (.mem mem) k .none none)
  | .vpbroadcastd, (dst, mem, k) =>
      .mvex (fieldsOf .m0f38 .p66 false 0x58 dst 0 (.mem mem) k .none none)
  | .vmovapsLoadConv, (dst, mem, conv, k) =>
      .mvex (fieldsOf .m0f .none false 0x28 dst 0 (.mem mem) k conv none)
  | .vmovdqa32LoadConv, (dst, mem, conv, k) =>
      .mvex (fieldsOf .m0f .p66 false 0x6f dst 0 (.mem mem) k conv none)
  | .vloadunpackldConv, (dst, mem, conv, k) =>
      .mvex (fieldsOf .m0f38 .none false 0xd0 dst 0 (.mem mem) k conv none)
  | .vloadunpackhdConv, (dst, mem, conv, k) =>
      .mvex (fieldsOf .m0f38 .none false 0xd4 dst 0 (.mem mem) k conv none)
  | .vloadunpacklpsConv, (dst, mem, conv, k) =>
      .mvex (fieldsOf .m0f38 .none false 0xd1 dst 0 (.mem mem) k conv none)
  | .vloadunpackhpsConv, (dst, mem, conv, k) =>
      .mvex (fieldsOf .m0f38 .none false 0xd5 dst 0 (.mem mem) k conv none)
  | .vmovapsStoreConv, (mem, src, conv, k) =>
      .mvex (fieldsOf .m0f .none false 0x29 src 0 (.mem mem) k conv none)
  | .vcvtfxpntdq2ps, (dst, src, k) => .mvex (srcFields .m0f3a .none false 0xcb dst 0 src k (some 0))
  | .vrndfxpntps, (dst, src, mode, k) =>
      .mvex (srcFields .m0f3a .p66 false 0x52 dst 0 src k (some mode.code))
  | .vcvtfxpntps2dq, (dst, src, mode, k) =>
      .mvex (srcFields .m0f3a .p66 false 0xcb dst 0 src k (some mode.code))
  | .vcvtfxpntps2dqAdj, (dst, src, mode, adj, k) =>
      .mvex (srcFields .m0f3a .p66 false 0xcb dst 0 src k (some (adjImm mode adj)))
  | .vprefetch, (mem, cache) =>
      .mvex (fieldsOf .m0f .none false 0x18 cache.code 0 (.mem mem) 0 .none none)
  | .vexp223ps, (dst, src, k) =>
      .mvex (fieldsOf .m0f38 .p66 false 0xc8 dst 0 (.zmm src) k .none none)
  | .vrcp23ps, (dst, src, k) =>
      .mvex (fieldsOf .m0f38 .p66 false 0xca dst 0 (.zmm src) k .none none)
  | .kmovR32K, (dst, src) => .vex 0x93 dst.num.toNat src
  | .kmovKR32, (dst, src) => .vex 0x92 dst src.num.toNat
  | .kmovKK, (dst, src) => .vex 0x90 dst src
  | .kortest, (a, b) => .vex 0x98 a b

end Phi.Mvex
