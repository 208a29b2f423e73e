import Phi.Mvex.Encode

/-!
# Phi.Mvex.Decode

A decoder for the card's vector instructions, from the layout of the prefix in
the ISA reference, and the round trip with `mvex`.

The extension bits of the register fields are inverted and lie in P0, P1 and
P2; the opcode and its map say whether an immediate follows.  Of the memory
operands it reads those the encoder emits: a base without a SIB byte and a
displacement of 32 bits.
-/

namespace Phi.Mvex

/-! ## the decoder -/

/-- `width` bits of a byte from bit `lo` on. -/
def bits (b : UInt8) (lo width : Nat) : Nat := b.toNat / 2 ^ lo % 2 ^ width

/-- An r/m operand as decoded. -/
inductive Operand where
  | zmm (n : Nat)
  | mem (base : Nat) (disp : BitVec 32)
deriving DecidableEq, Repr

/-- The fields of an instruction. -/
structure Fields where
  map : Map
  pp : Pp
  w : Bool
  eh : Bool
  opcode : UInt8
  reg : Nat
  vvvv : Nat
  rm : Operand
  mask : Nat
  sss : Nat
  imm : Option UInt8
deriving DecidableEq, Repr

def mapOf : Nat → Option Map
  | 1 => some .m0f
  | 2 => some .m0f38
  | 3 => some .m0f3a
  | _ => none

def ppOf : Nat → Option Pp
  | 0 => some .none
  | 1 => some .p66
  | 3 => some .pf2
  | _ => none

/-- The opcodes with an immediate: the shuffle, the shifts by an immediate and
the compares of the 0F map, and the whole 0F3A map. -/
def hasImm : Map → UInt8 → Bool
  | .m0f, opcode => opcode = 0x70 || opcode = 0x72 || opcode = 0xc2
  | .m0f38, _ => false
  | .m0f3a, _ => true

/-- The r/m operand, with the bytes behind it. -/
def decodeRm (p0 modrm : UInt8) (rest : List UInt8) : Option (Operand × List UInt8) :=
  if bits modrm 6 2 = 3 then
    some (.zmm (bits modrm 0 3 + 8 * (1 - bits p0 5 1) + 16 * (1 - bits p0 6 1)), rest)
  else if bits modrm 6 2 = 2 ∧ bits modrm 0 3 ≠ 4 ∧ 4 ≤ rest.length then
    some (.mem (bits modrm 0 3 + 8 * (1 - bits p0 5 1)) (BitVec.ofNat 32 (ofLe (rest.take 4))),
      rest.drop 4)
  else none

def decodeImm (map : Map) (opcode : UInt8) (rest : List UInt8) :
    Option (Option UInt8 × List UInt8) :=
  if hasImm map opcode then
    match rest with
    | [] => none
    | b :: rest => some (some b, rest)
  else some (none, rest)

/-- The fields behind the byte 62H. -/
def decodeFields (p0 p1 p2 opcode modrm : UInt8) (rest : List UInt8) :
    Option (Fields × List UInt8) := do
  let map ← mapOf (bits p0 0 2)
  let pp ← ppOf (bits p1 0 2)
  let (rm, rest) ← decodeRm p0 modrm rest
  let (imm, rest) ← decodeImm map opcode rest
  return ({
    map := map
    pp := pp
    w := bits p1 7 1 = 1
    eh := bits p2 7 1 = 1
    opcode := opcode
    reg := bits modrm 3 3 + 8 * (1 - bits p0 7 1) + 16 * (1 - bits p0 4 1)
    vvvv := 15 - bits p1 3 4 + 16 * (1 - bits p2 3 1)
    rm := rm
    mask := bits p2 0 3
    sss := bits p2 4 3
    imm := imm }, rest)

/-- One instruction and the bytes behind it. -/
def decodeMvex : List UInt8 → Option (Fields × List UInt8)
  | e :: p0 :: p1 :: p2 :: opcode :: modrm :: rest =>
      if e = 0x62 ∧ bits p0 2 2 = 0 ∧ bits p1 2 1 = 0 then
        decodeFields p0 p1 p2 opcode modrm rest
      else none
  | _ => none

/-! ## the prefix bytes -/

theorem p0_bits (map : Map) (reg : Fin 32) (b x : Fin 2) :
    bits (p0 map reg (u8 b) (u8 x)) 0 2 = map.code.toNat ∧
      bits (p0 map reg (u8 b) (u8 x)) 2 2 = 0 ∧
      bits (p0 map reg (u8 b) (u8 x)) 4 1 = 1 - reg / 16 ∧
      bits (p0 map reg (u8 b) (u8 x)) 5 1 = 1 - b ∧
      bits (p0 map reg (u8 b) (u8 x)) 6 1 = 1 - x ∧
      bits (p0 map reg (u8 b) (u8 x)) 7 1 = 1 - reg / 8 % 2 := by
  revert reg b x
  cases map <;> decide

theorem p1_bits (pp : Pp) (w : Bool) (vvvv : Fin 32) :
    bits (p1 pp w vvvv) 0 2 = pp.code.toNat ∧ bits (p1 pp w vvvv) 2 1 = 0 ∧
      bits (p1 pp w vvvv) 3 4 = 15 - vvvv % 16 ∧ bits (p1 pp w vvvv) 7 1 = if w then 1 else 0 := by
  revert vvvv
  cases pp <;> cases w <;> decide

/-- The upper half of P2: the conversion and the eviction hint. -/
def upper (t : Fin 16) : UInt8 := u8 t <<< (4 : UInt8)

theorem p2_bits (vvvv : Fin 32) (aaa : Fin 8) (t : Fin 16) :
    bits (p2 vvvv aaa ||| upper t) 0 3 = aaa ∧
      bits (p2 vvvv aaa ||| upper t) 3 1 = 1 - vvvv / 16 ∧
      bits (p2 vvvv aaa ||| upper t) 4 3 = t % 8 ∧ bits (p2 vvvv aaa ||| upper t) 7 1 = t / 8 := by
  -- of `vvvv` only bit 4 matters
  have hv : ∀ v : Fin 32, ∃ h : Fin 2, (h : Nat) = 1 - v / 16 ∧
      (~~~(u8 v >>> (4 : UInt8)) &&& 1) <<< (3 : UInt8) = u8 h <<< (3 : UInt8) := by decide
  have hbits : ∀ (h : Fin 2) (a : Fin 8) (t : Fin 16),
      bits (u8 h <<< (3 : UInt8) ||| u8 a ||| upper t) 0 3 = a ∧
        bits (u8 h <<< (3 : UInt8) ||| u8 a ||| upper t) 3 1 = h ∧
        bits (u8 h <<< (3 : UInt8) ||| u8 a ||| upper t) 4 3 = t % 8 ∧
        bits (u8 h <<< (3 : UInt8) ||| u8 a ||| upper t) 7 1 = t / 8 := by decide
  obtain ⟨h, hh, heq⟩ := hv vvvv
  rw [p2, heq, ← hh]
  exact hbits h aaa t

/-- ModRM over two top bits. -/
theorem modrm_bits (reg : Fin 32) (rm : Fin 8) (b : Bool) :
    bits ((if b then 0xc0 else 0x80) ||| (u8 reg &&& 7) <<< (3 : UInt8) ||| u8 rm) 0 3 = rm ∧
      bits ((if b then 0xc0 else 0x80) ||| (u8 reg &&& 7) <<< (3 : UInt8) ||| u8 rm) 3 3 =
        reg % 8 ∧
      bits ((if b then 0xc0 else 0x80) ||| (u8 reg &&& 7) <<< (3 : UInt8) ||| u8 rm) 6 2 =
        if b then 3 else 2 := by
  revert reg rm b
  decide

/-! ## the r/m operand -/

def Rm.operand : Rm → Operand
  | .zmm z => .zmm z
  | .mem m => .mem m.base.num.toNat m.disp

theorem zmm_ext (z : Zmm) : ∃ b x : Fin 2, (Rm.zmm z).ext = (u8 b, u8 x) ∧
    (z : Nat) = z % 8 + 8 * b + 16 * x ∧ u8 z &&& 7 = u8 (⟨z % 8, by omega⟩ : Fin 8) := by
  revert z
  decide

theorem mem_ext (m : Mem) : ∃ b : Fin 2, (Rm.mem m).ext = (u8 b, 0) ∧
    m.base.num.toNat = (m.base.num &&& 7).toNat + 8 * b ∧ (m.base.num &&& 7).toNat < 8 ∧
      (m.base.num &&& 7).toNat ≠ 4 := by
  obtain ⟨base, disp, hsib⟩ := m
  simp only [Rm.ext]
  revert hsib
  cases base <;> decide

/-- ModRM and the displacement decode to the operand they were made of. -/
theorem decodeRm_modrm (map : Map) (reg : Fin 32) (rm : Rm) (rest : List UInt8) :
    ∃ modrm tail, rm.modrm reg ++ rest = modrm :: tail ∧ bits modrm 3 3 = reg % 8 ∧
      decodeRm (p0 map reg rm.ext.1 rm.ext.2) modrm tail = some (rm.operand, rest) := by
  cases rm with
  | zmm z =>
      obtain ⟨b, x, hext, hz, hlow⟩ := zmm_ext z
      have hmodrm := modrm_bits reg ⟨z % 8, by omega⟩ true
      rw [← hlow] at hmodrm
      obtain ⟨hrm, hreg, htop⟩ := hmodrm
      obtain ⟨-, -, -, hb, hx, -⟩ := p0_bits map reg b x
      refine ⟨0xc0 ||| (u8 reg &&& 7) <<< (3 : UInt8) ||| (u8 z &&& 7), rest, rfl, hreg, ?_⟩
      simp only [if_true] at hrm htop
      simp only [hext, decodeRm, htop, hrm, hb, hx, if_true, Rm.operand]
      congr
      omega
  | mem m =>
      obtain ⟨b, hext, hbase, hlt, hne⟩ := mem_ext m
      have hlow : m.base.num &&& 7 = u8 (⟨(m.base.num &&& 7).toNat, hlt⟩ : Fin 8) := by
        simp [u8]
      have hmodrm := modrm_bits reg ⟨(m.base.num &&& 7).toNat, hlt⟩ false
      rw [← hlow] at hmodrm
      obtain ⟨hrm, hreg, htop⟩ := hmodrm
      obtain ⟨-, -, -, hb, -, -⟩ := p0_bits map reg b 0
      have hdisp : ofLe (leBytes 4 m.disp.toNat) = m.disp.toNat := ofLe_leBytes m.disp.isLt
      have htake : (leBytes 4 m.disp.toNat ++ rest).take 4 = leBytes 4 m.disp.toNat := by simp
      have hdrop : (leBytes 4 m.disp.toNat ++ rest).drop 4 = rest := by simp
      have hlen : 4 ≤ (leBytes 4 m.disp.toNat ++ rest).length := by simp
      refine ⟨0x80 ||| (u8 reg &&& 7) <<< (3 : UInt8) ||| (m.base.num &&& 7),
        leBytes 4 m.disp.toNat ++ rest, rfl, hreg, ?_⟩
      have hb' : bits (p0 map reg (u8 b) 0) 5 1 = 1 - b := hb
      simp only [Bool.false_eq_true, if_false] at hrm htop
      rw [hext, decodeRm, htop, if_neg (by decide), hrm, if_pos ⟨rfl, hne, hlen⟩, htake, hdrop,
        hdisp, hb']
      simp only [Rm.operand, BitVec.ofNat_toNat, BitVec.setWidth_eq]
      congr
      omega

theorem decodeImm_toList {map : Map} {opcode : UInt8} {imm : Option UInt8}
    (h : imm.isSome = hasImm map opcode) (rest : List UInt8) :
    decodeImm map opcode (imm.toList ++ rest) = some (imm, rest) := by
  cases imm <;> simp_all [decodeImm]

/-- **The round trip**: what `mvex` assembles, with the upper half of P2 set
afterwards, decodes to its arguments. -/
theorem decode_mvex (map : Map) (pp : Pp) (w : Bool) (reg vvvv : Fin 32) (rm : Rm) (aaa : Fin 8)
    {opcode : UInt8} {imm : Option UInt8} (himm : imm.isSome = hasImm map opcode) (t : Fin 16)
    (rest : List UInt8) :
    decodeMvex ((mvex map pp w reg vvvv rm aaa opcode imm).modify 3 (· ||| upper t) ++ rest) =
      some ({
        map := map
        pp := pp
        w := w
        eh := t / 8 = (1 : Nat)
        opcode := opcode
        reg := reg
        vvvv := vvvv
        rm := rm.operand
        mask := aaa
        sss := t % 8
        imm := imm }, rest) := by
  have hext : ∃ b x : Fin 2, rm.ext = (u8 b, u8 x) := by
    cases rm with
    | zmm z => exact (zmm_ext z).imp fun b h => h.imp fun x h => h.1
    | mem m => exact (mem_ext m).imp fun b h => ⟨0, h.1⟩
  obtain ⟨b, x, hext⟩ := hext
  obtain ⟨modrm, tail, hmodrm, hreg, hrm⟩ := decodeRm_modrm map reg rm (imm.toList ++ rest)
  obtain ⟨hmap, hzero, hr', -, -, hr⟩ := p0_bits map reg b x
  obtain ⟨hpp, hzero', hv, hw⟩ := p1_bits pp w vvvv
  obtain ⟨hk, hv', hs, he⟩ := p2_bits vvvv aaa t
  have hbytes : (mvex map pp w reg vvvv rm aaa opcode imm).modify 3 (· ||| upper t) ++ rest =
      0x62 :: p0 map reg rm.ext.1 rm.ext.2 :: p1 pp w vvvv :: (p2 vvvv aaa ||| upper t) ::
        opcode :: modrm :: tail := by
    simp [mvex, ← hmodrm, List.modify_cons]
  have hmap' : mapOf map.code.toNat = some map := by cases map <;> rfl
  have hpp' : ppOf pp.code.toNat = some pp := by cases pp <;> rfl
  rw [hext] at hbytes hrm
  simp only at hbytes hrm
  rw [hbytes, decodeMvex, if_pos ⟨rfl, hzero, hzero'⟩, decodeFields, hmap, hmap', hpp, hpp']
  simp only [Option.bind_eq_bind, Option.bind_some, hrm, decodeImm_toList himm, hr', hr, hreg, hv,
    hw, hk, hv', hs, he]
  have hreglt := reg.isLt
  have hvlt := vvvv.isLt
  congr
  · cases w <;> rfl
  · omega
  · omega

end Phi.Mvex
