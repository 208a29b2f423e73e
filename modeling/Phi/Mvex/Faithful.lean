import Phi.Mvex.Constructors

/-!
# Phi.Mvex.Faithful

Which constructors lose an operand.

The bytes of a call decode to the instruction the call asks for, and so two
calls of one constructor with different operands have different bytes, but for
six constructors over `Src` that do not set the conversion: the float64 move,
the two compares and the three shifts by an immediate.
-/

namespace Phi.Mvex

/-! ## the conversion of a call -/

/-- The constructors that take a `Src` and leave its conversion out. -/
def Ctor.DropsConv (c : Ctor) : Prop :=
  c ∈ [Ctor.vmovapdLoad, .vcmppd, .vcmpps, .vpslld, .vpsrld, .vpsrad]

instance (c : Ctor) : Decidable c.DropsConv := inferInstanceAs (Decidable (_ ∈ _))

/-- A source read through `Conv::None` is plain memory. -/
def Src.norm : Src → Src
  | .memConv m .none => .mem m
  | s => s

/-- The source without its conversion. -/
def Src.plain : Src → Src
  | .memConv m _ => .mem m
  | s => s

/-- The operands with the source replaced. -/
def Shape.mapSrc (f : Src → Src) : (s : Shape) → s.Args → s.Args
  | .unary, (dst, src, k) => (dst, f src, k)
  | .binary, (dst, src1, src2, k) => (dst, src1, f src2, k)
  | .compare, (dst, src1, src2, pred, k) => (dst, src1, f src2, pred, k)
  | .shift, (dst, src, count, k) => (dst, f src, count, k)
  | .round, (dst, src, mode, k) => (dst, f src, mode, k)
  | .adjust, (dst, src, mode, adj, k) => (dst, f src, mode, adj, k)
  | .store, a | .load, a | .maskedStore, a | .maskedLoad, a | .convLoad, a | .convStore, a
  | .prefetch, a | .approx, a | .gprMask, a | .maskGpr, a | .masks, a => a

def Shape.norm (s : Shape) : s.Args → s.Args := s.mapSrc Src.norm

def Shape.plain (s : Shape) : s.Args → s.Args := s.mapSrc Src.plain

/-- The conversion of the call's source. -/
def Shape.srcConv : (s : Shape) → s.Args → Conv
  | .unary, (_, src, _) => src.conv
  | .binary, (_, _, src2, _) => src2.conv
  | .compare, (_, _, src2, _, _) => src2.conv
  | .shift, (_, src, _, _) => src.conv
  | .round, (_, src, _, _) => src.conv
  | .adjust, (_, src, _, _, _) => src.conv
  | .store, _ | .load, _ | .maskedStore, _ | .maskedLoad, _ | .convLoad, _ | .convStore, _
  | .prefetch, _ | .approx, _ | .gprMask, _ | .maskGpr, _ | .masks, _ => .none

/-- The call asks for a conversion that its constructor leaves out. -/
def Ctor.LosesConv (c : Ctor) (a : c.Args) : Prop :=
  c.DropsConv ∧ c.shape.srcConv a ≠ .none

/-! ## decoding a call -/

/-- An instruction of the mask registers. -/
def decodeVex : List UInt8 → Option (Decoded × List UInt8)
  | e :: p :: opcode :: modrm :: rest =>
      if e = 0xc5 ∧ p = 0xf8 ∧ bits modrm 6 2 = 3 then
        some (.vex opcode (bits modrm 3 3) (bits modrm 0 3), rest)
      else none
  | _ => none

/-- One instruction of either kind. -/
def decode (bs : List UInt8) : Option (Decoded × List UInt8) :=
  match decodeMvex bs with
  | some (f, rest) => some (.mvex f, rest)
  | none => decodeVex bs

theorem code_lt (c : Conv) : c.code.toNat < 8 := by cases c <;> decide

/-- The three bits of a conversion are the upper half of P2. -/
theorem withSss_eq (bs : List UInt8) (c : Conv) :
    withSss bs c.code =
      bs.modify 3 (· ||| upper ⟨c.code.toNat, Nat.lt_trans (code_lt c) (by decide)⟩) := by
  cases c <;> rfl

section assembled

variable {map : Map} {pp : Pp} {w : Bool} {reg vvvv : Fin 32} {rm : Rm} {k : K} {opcode : UInt8}
  {imm : Option UInt8}

theorem decode_withSss (himm : imm.isSome = hasImm map opcode) (c : Conv) (rest : List UInt8) :
    decode (withSss (mvex map pp w reg vvvv rm k opcode imm) c.code ++ rest) =
      some (.mvex (fieldsOf map pp w opcode reg vvvv rm k c imm), rest) := by
  have hlt := code_lt c
  rw [decode, withSss_eq, decode_mvex map pp w reg vvvv rm k himm]
  simp [fieldsOf, Nat.mod_eq_of_lt hlt, Nat.div_eq_of_lt hlt]

theorem decode_plain (himm : imm.isSome = hasImm map opcode) (rest : List UInt8) :
    decode (mvex map pp w reg vvvv rm k opcode imm ++ rest) =
      some (.mvex (fieldsOf map pp w opcode reg vvvv rm k .none imm), rest) := by
  have hsame : withSss (mvex map pp w reg vvvv rm k opcode imm) Conv.none.code =
      mvex map pp w reg vvvv rm k opcode imm := by
    simp [withSss, Conv.code, mvex, List.modify_cons]
  rw [← hsame, decode_withSss himm]

theorem srcSss_eq (s : Src) : srcSss s = s.conv.code := by cases s <;> rfl

theorem decode_src {src : Src} (himm : imm.isSome = hasImm map opcode) (rest : List UInt8) :
    decode (withSss (mvex map pp w reg vvvv (srcRm src) k opcode imm) (srcSss src) ++ rest) =
      some (.mvex (srcFields map pp w opcode reg vvvv src k imm), rest) := by
  rw [srcSss_eq, decode_withSss himm]
  rfl

/-- Without its conversion a source is the plain one. -/
theorem decode_dropped {src : Src} (himm : imm.isSome = hasImm map opcode) (rest : List UInt8) :
    decode (mvex map pp w reg vvvv (srcRm src) k opcode imm ++ rest) =
      some (.mvex (srcFields map pp w opcode reg vvvv src.plain k imm), rest) := by
  rw [decode_plain himm]
  cases src <;> rfl

/-- The eviction hint is the top bit of P2. -/
theorem decode_hint (himm : imm.isSome = hasImm map opcode) (rest : List UInt8) :
    decode ((mvex map pp w reg vvvv rm k opcode imm).modify 3 (· ||| 0x80) ++ rest) =
      some (.mvex { fieldsOf map pp w opcode reg vvvv rm k .none imm with eh := true }, rest) := by
  rw [decode, show (0x80 : UInt8) = upper 8 from rfl, decode_mvex map pp w reg vvvv rm k himm]
  rfl

end assembled

theorem decodeMvex_of_ne {e : UInt8} {bs : List UInt8} (he : e ≠ 0x62) :
    decodeMvex (e :: bs) = none := by
  unfold decodeMvex
  split
  · next h =>
      obtain ⟨rfl, -⟩ := List.cons.inj h
      exact if_neg fun hc => he hc.1
  · rfl

theorem decode_vexK {opcode reg rm : UInt8} {bs : List UInt8} (h : vexK opcode reg rm = some bs)
    (rest : List UInt8) : decode (bs ++ rest) = some (.vex opcode reg.toNat rm.toNat, rest) := by
  obtain ⟨⟨hreg, hrm⟩, h⟩ := Option.ite_none_right_eq_some.mp h
  obtain rfl := Option.some.inj h
  have hbits : ∀ r s : Fin 8, bits (0xc0 ||| u8 r <<< (3 : UInt8) ||| u8 s) 6 2 = 3 ∧
      bits (0xc0 ||| u8 r <<< (3 : UInt8) ||| u8 s) 3 3 = r ∧
      bits (0xc0 ||| u8 r <<< (3 : UInt8) ||| u8 s) 0 3 = s := by decide
  obtain ⟨htop, hr, hs⟩ := hbits ⟨reg.toNat, hreg⟩ ⟨rm.toNat, hrm⟩
  simp only [u8, UInt8.ofNat_toNat] at htop hr hs
  simp [decode, decodeMvex_of_ne, decodeVex, htop, hr, hs]

/-- What the bytes of a call say: what it asks for, but for a conversion left
out. -/
def emitted (c : Ctor) (a : c.Args) : Decoded :=
  if c.DropsConv then givenOf c (c.shape.plain a) else givenOf c a

theorem toNat_u8 (k : Fin 8) : (u8 k).toNat = k := by
  revert k
  decide

theorem vmovapsLoadF16_eq (dst : Zmm) (mem : Mem) :
    vmovapsLoadF16 dst mem =
      withSss (mvex .m0f .none false dst 0 (.mem mem) 0 0x28 none) Conv.f16.code := rfl

/-- A constructor that keeps the conversion. -/
theorem decode_keeps {c : Ctor} (hc : ¬ c.DropsConv) {a : c.Args} {bs : List UInt8}
    (h : callOf c a = some bs) (rest : List UInt8) :
    decode (bs ++ rest) = some (givenOf c a, rest) := by
  cases c
  case vmovapdLoad | vcmppd | vcmpps | vpslld | vpsrld | vpsrad => exact absurd (by decide) hc
  case vaddpd | vsubpd | vmulpd | vfmadd213pd | vfmadd231pd | vaddps | vsubps | vmulps
      | vfmadd213ps | vfmadd231ps | vpaddd | vpsubd | vpandd | vpandnd | vpord | vpxord
      | vpsllvd | vpsrlvd | vfnmadd231ps | vfmsub213ps | vfmsub231ps | vpermd
      | vcvtfxpntdq2ps | vrndfxpntps | vcvtfxpntps2dq | vcvtfxpntps2dqAdj =>
    obtain rfl := Option.some.inj h
    exact decode_src rfl _
  case vmovapsStore | vmovnrapsStore | vmovapsLoad | vmovapdStore | vpackstoreld | vpackstorehd
      | vloadunpackld | vloadunpackhd | vpbroadcastd | vprefetch | vexp223ps | vrcp23ps =>
    obtain rfl := Option.some.inj h
    exact decode_plain rfl _
  case vmovapsLoadF16 =>
    obtain rfl := Option.some.inj h
    rw [vmovapsLoadF16_eq]
    exact decode_withSss rfl .f16 _
  case vmovapsLoadConv | vmovdqa32LoadConv | vloadunpacklpsConv | vloadunpackhpsConv =>
    obtain rfl := Option.some.inj h
    exact decode_withSss rfl _ _
  case vloadunpackldConv | vloadunpackhdConv | vmovapsStoreConv =>
    obtain ⟨-, h⟩ := Option.ite_none_right_eq_some.mp h
    obtain rfl := Option.some.inj h
    exact decode_withSss rfl _ _
  case vmovnrngoapsStore =>
    obtain rfl := Option.some.inj h
    exact decode_hint rfl _
  case kmovR32K | kmovKR32 | kmovKK | kortest =>
    have hvex := decode_vexK h rest
    simp only [toNat_u8] at hvex
    exact hvex

/-- A constructor that leaves the conversion out. -/
theorem decode_drops {c : Ctor} (hc : c.DropsConv) {a : c.Args} {bs : List UInt8}
    (h : callOf c a = some bs) (rest : List UInt8) :
    decode (bs ++ rest) = some (givenOf c (c.shape.plain a), rest) := by
  cases c
  case vmovapdLoad | vcmppd | vcmpps | vpslld | vpsrld | vpsrad =>
    obtain rfl := Option.some.inj h
    exact decode_dropped rfl _
  all_goals exact absurd hc (by decide)

theorem decode_call {c : Ctor} {a : c.Args} {bs : List UInt8} (h : callOf c a = some bs)
    (rest : List UInt8) : decode (bs ++ rest) = some (emitted c a, rest) := by
  unfold emitted
  split
  · next hc => exact decode_drops hc h rest
  · next hc => exact decode_keeps hc h rest

/-! ## operands from fields -/

theorem Conv.code_inj {c d : Conv} (h : c.code.toNat = d.code.toNat) : c = d := by
  cases c <;> cases d <;> first | rfl | exact absurd h (by decide)

theorem Cmp.code_inj {c d : Cmp} (h : c.code = d.code) : c = d := by
  cases c <;> cases d <;> first | rfl | exact absurd h (by decide)

theorem Round.code_inj {c d : Round} (h : c.code = d.code) : c = d := by
  cases c <;> cases d <;> first | rfl | exact absurd h (by decide)

theorem Cache.code_inj {c d : Cache} (h : c.code = d.code) : c = d := by
  cases c <;> cases d <;> first | rfl | exact absurd h (by decide)

theorem ExpAdj.code_inj {c d : ExpAdj} (h : c.code.toNat = d.code.toNat) : c = d := by
  cases c <;> cases d <;> first | rfl | exact absurd h (by decide)

theorem Gpr.num_inj {r s : Gpr} (h : r.num.toNat = s.num.toNat) : r = s := by
  cases r <;> cases s <;> first | rfl | exact absurd h (by decide)

/-- The mode and the scale share a byte. -/
theorem adjImm_toNat (m : Round) (e : ExpAdj) :
    (adjImm m e).toNat = 16 * e.code.toNat + m.code.toNat ∧ m.code.toNat < 16 := by
  cases m <;> cases e <;> decide

theorem adjImm_inj {m n : Round} {e f : ExpAdj} (h : adjImm m e = adjImm n f) :
    m = n ∧ e = f := by
  obtain ⟨hm, hlt⟩ := adjImm_toNat m e
  obtain ⟨hn, hlt'⟩ := adjImm_toNat n f
  rw [h, hn] at hm
  exact ⟨Round.code_inj (UInt8.toNat_inj.mp (by omega)), ExpAdj.code_inj (by omega)⟩

theorem operand_inj {r s : Rm} (h : r.operand = s.operand) : r = s := by
  cases r with
  | zmm z =>
      cases s with
      | zmm y => exact congrArg Rm.zmm (Fin.ext (Operand.zmm.inj h))
      | mem m => cases h
  | mem m =>
      cases s with
      | zmm y => cases h
      | mem n =>
          obtain ⟨hbase, hdisp⟩ := Operand.mem.inj h
          obtain ⟨base, disp, hno⟩ := m
          obtain ⟨base', disp', hno'⟩ := n
          obtain rfl := Gpr.num_inj hbase
          obtain rfl := hdisp
          rfl

/-- A source is its r/m operand and its conversion. -/
theorem Src.norm_eq (s : Src) :
    s.norm = match srcRm s with
      | .zmm z => .reg z
      | .mem m => if s.conv = .none then .mem m else .memConv m s.conv := by
  cases s with
  | reg z => rfl
  | mem m => rfl
  | memConv m c => cases c <;> rfl

theorem Src.norm_ext {s t : Src} (hrm : srcRm s = srcRm t) (hconv : s.conv = t.conv) :
    s.norm = t.norm := by
  rw [Src.norm_eq s, Src.norm_eq t, hrm, hconv]

section fields

variable {map : Map} {pp : Pp} {w : Bool} {opcode : UInt8} {reg reg' vvvv vvvv' : Fin 32}
  {rm rm' : Rm} {k k' : K} {conv conv' : Conv} {imm imm' : Option UInt8} {src src' : Src}

theorem fieldsOf_inj
    (h : fieldsOf map pp w opcode reg vvvv rm k conv imm =
      fieldsOf map pp w opcode reg' vvvv' rm' k' conv' imm') :
    reg = reg' ∧ vvvv = vvvv' ∧ rm = rm' ∧ k = k' ∧ conv = conv' ∧ imm = imm' := by
  simp only [fieldsOf, Fields.mk.injEq, true_and] at h
  obtain ⟨hreg, hvvvv, hrm, hk, hconv, himm⟩ := h
  exact ⟨Fin.ext hreg, Fin.ext hvvvv, operand_inj hrm, Fin.ext hk, Conv.code_inj hconv, himm⟩

theorem srcFields_inj
    (h : srcFields map pp w opcode reg vvvv src k imm =
      srcFields map pp w opcode reg' vvvv' src' k' imm') :
    reg = reg' ∧ vvvv = vvvv' ∧ src.norm = src'.norm ∧ k = k' ∧ imm = imm' := by
  obtain ⟨hreg, hvvvv, hrm, hk, hconv, himm⟩ := fieldsOf_inj h
  exact ⟨hreg, hvvvv, Src.norm_ext hrm hconv, hk, himm⟩

end fields

/-- The eviction hint aside, the fields are the same. -/
theorem hint_inj {f g : Fields} (hf : f.eh = false) (hg : g.eh = false)
    (h : { f with eh := true } = { g with eh := true }) : f = g := by
  obtain ⟨⟩ := f
  obtain ⟨⟩ := g
  simp_all

theorem kReg_inj {k l : K} (h : kReg k = kReg l) : k = l :=
  Fin.ext (Fin.mk.inj h)

theorem vex_inj {opcode opcode' : UInt8} {reg reg' rm rm' : Nat}
    (h : Decoded.vex opcode reg rm = .vex opcode' reg' rm') : reg = reg' ∧ rm = rm' :=
  (Decoded.vex.inj h).2

/-- What a call asks for determines its operands. -/
theorem givenOf_inj {c : Ctor} {a b : c.Args} (h : givenOf c a = givenOf c b) :
    c.shape.norm a = c.shape.norm b := by
  cases c
  case vmovapsStore | vmovnrapsStore =>
    obtain ⟨hsrc, -, hmem, -⟩ := fieldsOf_inj (Decoded.mvex.inj h)
    exact Prod.ext (Rm.mem.inj hmem) hsrc
  case vmovnrngoapsStore =>
    obtain ⟨hsrc, -, hmem, -⟩ := fieldsOf_inj (hint_inj rfl rfl (Decoded.mvex.inj h))
    exact Prod.ext (Rm.mem.inj hmem) hsrc
  case vmovapsLoad | vmovapsLoadF16 =>
    obtain ⟨hdst, -, hmem, -⟩ := fieldsOf_inj (Decoded.mvex.inj h)
    exact Prod.ext hdst (Rm.mem.inj hmem)
  case vmovapdLoad | vcvtfxpntdq2ps =>
    obtain ⟨hdst, -, hsrc, hk, -⟩ := srcFields_inj (Decoded.mvex.inj h)
    exact Prod.ext hdst (Prod.ext hsrc hk)
  case vmovapdStore | vpackstoreld | vpackstorehd =>
    obtain ⟨hsrc, -, hmem, hk, -⟩ := fieldsOf_inj (Decoded.mvex.inj h)
    exact Prod.ext (Rm.mem.inj hmem) (Prod.ext hsrc hk)
  case vaddpd | vsubpd | vmulpd | vfmadd213pd | vfmadd231pd | vaddps | vsubps | vmulps
      | vfmadd213ps | vfmadd231ps | vpaddd | vpsubd | vpandd | vpandnd | vpord | vpxord
      | vpsllvd | vpsrlvd | vfnmadd231ps | vfmsub213ps | vfmsub231ps | vpermd =>
    obtain ⟨hdst, hsrc1, hsrc2, hk, -⟩ := srcFields_inj (Decoded.mvex.inj h)
    exact Prod.ext hdst (Prod.ext hsrc1 (Prod.ext hsrc2 hk))
  case vcmppd | vcmpps =>
    obtain ⟨hdst, hsrc1, hsrc2, hk, himm⟩ := srcFields_inj (Decoded.mvex.inj h)
    exact Prod.ext (kReg_inj hdst) (Prod.ext hsrc1 (Prod.ext hsrc2
      (Prod.ext (Cmp.code_inj (Option.some.inj himm)) hk)))
  case vpslld | vpsrld | vpsrad =>
    obtain ⟨-, hdst, hsrc, hk, himm⟩ := srcFields_inj (Decoded.mvex.inj h)
    exact Prod.ext hdst (Prod.ext hsrc (Prod.ext (Option.some.inj himm) hk))
  case vloadunpackld | vloadunpackhd | vpbroadcastd =>
    obtain ⟨hdst, -, hmem, hk, -⟩ := fieldsOf_inj (Decoded.mvex.inj h)
    exact Prod.ext hdst (Prod.ext (Rm.mem.inj hmem) hk)
  case vmovapsLoadConv | vmovdqa32LoadConv | vloadunpackldConv | vloadunpackhdConv
      | vloadunpacklpsConv | vloadunpackhpsConv =>
    obtain ⟨hdst, -, hmem, hk, hconv, -⟩ := fieldsOf_inj (Decoded.mvex.inj h)
    exact Prod.ext hdst (Prod.ext (Rm.mem.inj hmem) (Prod.ext hconv hk))
  case vmovapsStoreConv =>
    obtain ⟨hsrc, -, hmem, hk, hconv, -⟩ := fieldsOf_inj (Decoded.mvex.inj h)
    exact Prod.ext (Rm.mem.inj hmem) (Prod.ext hsrc (Prod.ext hconv hk))
  case vrndfxpntps | vcvtfxpntps2dq =>
    obtain ⟨hdst, -, hsrc, hk, himm⟩ := srcFields_inj (Decoded.mvex.inj h)
    exact Prod.ext hdst (Prod.ext hsrc (Prod.ext (Round.code_inj (Option.some.inj himm)) hk))
  case vcvtfxpntps2dqAdj =>
    obtain ⟨hdst, -, hsrc, hk, himm⟩ := srcFields_inj (Decoded.mvex.inj h)
    obtain ⟨hmode, hadj⟩ := adjImm_inj (Option.some.inj himm)
    exact Prod.ext hdst (Prod.ext hsrc (Prod.ext hmode (Prod.ext hadj hk)))
  case vprefetch =>
    obtain ⟨hcache, -, hmem, -⟩ := fieldsOf_inj (Decoded.mvex.inj h)
    exact Prod.ext (Rm.mem.inj hmem) (Cache.code_inj hcache)
  case vexp223ps | vrcp23ps =>
    obtain ⟨hdst, -, hsrc, hk, -⟩ := fieldsOf_inj (Decoded.mvex.inj h)
    exact Prod.ext hdst (Prod.ext (Rm.zmm.inj hsrc) hk)
  case kmovR32K =>
    obtain ⟨hdst, hsrc⟩ := vex_inj h
    exact Prod.ext (Gpr.num_inj hdst) (Fin.ext hsrc)
  case kmovKR32 =>
    obtain ⟨hdst, hsrc⟩ := vex_inj h
    exact Prod.ext (Fin.ext hdst) (Gpr.num_inj hsrc)
  case kmovKK | kortest =>
    obtain ⟨hdst, hsrc⟩ := vex_inj h
    exact Prod.ext (Fin.ext hdst) (Fin.ext hsrc)

/-! ## the calls that are faithful -/

/-- The decoder recovers what the call gave, whatever follows its bytes. -/
def Faithful (c : Ctor) (a : c.Args) : Prop :=
  ∀ bs, callOf c a = some bs → ∀ rest, decode (bs ++ rest) = some (givenOf c a, rest)

/-- No bytes are the bytes of both calls. -/
def Distinct (c : Ctor) (a b : c.Args) : Prop :=
  ∀ bs, callOf c a = some bs → callOf c b ≠ some bs

theorem emitted_unique {c : Ctor} {a b : c.Args} {bs : List UInt8} (ha : callOf c a = some bs)
    (hb : callOf c b = some bs) : emitted c a = emitted c b := by
  have h := (decode_call ha []).symm.trans (decode_call hb [])
  exact (Prod.mk.inj (Option.some.inj h)).1

theorem Src.norm_plain (s : Src) : s.plain.norm = s.plain := by cases s <;> rfl

theorem Src.conv_plain (s : Src) : s.plain.conv = .none := by cases s <;> rfl

theorem Src.conv_norm (s : Src) : s.norm.conv = s.conv := by
  cases s with
  | reg z => rfl
  | mem m => rfl
  | memConv m c => cases c <;> rfl

theorem Shape.norm_plain (s : Shape) (a : s.Args) : s.norm (s.plain a) = s.plain a := by
  cases s
  case unary | shift | round | adjust =>
    exact Prod.ext rfl (Prod.ext (Src.norm_plain _) rfl)
  case binary | compare =>
    exact Prod.ext rfl (Prod.ext rfl (Prod.ext (Src.norm_plain _) rfl))
  all_goals rfl

theorem Shape.srcConv_plain (s : Shape) (a : s.Args) : s.srcConv (s.plain a) = .none := by
  cases s
  case unary | shift | round | adjust | binary | compare => exact Src.conv_plain _
  all_goals rfl

theorem Shape.srcConv_norm (s : Shape) (a : s.Args) : s.srcConv (s.norm a) = s.srcConv a := by
  cases s
  case unary | shift | round | adjust | binary | compare => exact Src.conv_norm _
  all_goals rfl

/-- A constructor that leaves the conversion out accepts every operand, and its
bytes are those for plain memory. -/
theorem callOf_plain {c : Ctor} (hc : c.DropsConv) (a : c.Args) :
    (∃ bs, callOf c a = some bs) ∧ callOf c (c.shape.plain a) = callOf c a := by
  cases c
  case vmovapdLoad | vpslld | vpsrld | vpsrad =>
    obtain ⟨dst, src, k⟩ := a
    exact ⟨⟨_, rfl⟩, by cases src <;> rfl⟩
  case vcmppd | vcmpps =>
    obtain ⟨dst, src1, src2, k⟩ := a
    exact ⟨⟨_, rfl⟩, by cases src2 <;> rfl⟩
  all_goals exact absurd hc (by decide)

/-- A source without a conversion asks for plain memory. -/
theorem srcFields_plain {map : Map} {pp : Pp} {w : Bool} {opcode : UInt8} {reg vvvv : Fin 32}
    {src : Src} {k : K} {imm : Option UInt8} (h : src.conv = .none) :
    srcFields map pp w opcode reg vvvv src.plain k imm =
      srcFields map pp w opcode reg vvvv src k imm := by
  cases src with
  | reg z => rfl
  | mem m => rfl
  | memConv m c =>
      obtain rfl : c = .none := h
      rfl

theorem givenOf_plain {c : Ctor} (hc : c.DropsConv) {a : c.Args}
    (h : c.shape.srcConv a = .none) : givenOf c (c.shape.plain a) = givenOf c a := by
  cases c
  case vmovapdLoad | vcmppd | vcmpps | vpslld | vpsrld | vpsrad =>
    exact congrArg Decoded.mvex (srcFields_plain h)
  all_goals exact absurd hc (by decide)

theorem faithful_iff (c : Ctor) (a : c.Args) : Faithful c a ↔ ¬ c.LosesConv a := by
  constructor
  · rintro hfaith ⟨hc, hconv⟩
    obtain ⟨bs, hbs⟩ := (callOf_plain hc a).1
    have hsame : givenOf c a = givenOf c (c.shape.plain a) :=
      (Prod.mk.inj (Option.some.inj ((hfaith bs hbs []).symm.trans (decode_drops hc hbs [])))).1
    have hnorm := givenOf_inj hsame
    rw [Shape.norm_plain] at hnorm
    apply hconv
    rw [← Shape.srcConv_norm, hnorm, Shape.srcConv_plain]
  · intro hkept bs hbs rest
    by_cases hc : c.DropsConv
    · have hconv : c.shape.srcConv a = .none :=
        Decidable.byContradiction fun hne => hkept ⟨hc, hne⟩
      rw [decode_drops hc hbs, givenOf_plain hc hconv]
    · exact decode_keeps hc hbs rest

theorem distinct_iff (c : Ctor) {a b : c.Args} (hne : c.shape.norm a ≠ c.shape.norm b) :
    Distinct c a b ↔ ¬ (c.DropsConv ∧ c.shape.plain a = c.shape.plain b) := by
  constructor
  · rintro hdist ⟨hc, hplain⟩
    obtain ⟨⟨bs, hbs⟩, ha⟩ := callOf_plain hc a
    have hb := (callOf_plain hc b).2
    exact hdist bs hbs (by rw [← hb, ← hplain, ha, hbs])
  · intro hkept bs ha hb
    have hsame := emitted_unique ha hb
    unfold emitted at hsame
    split at hsame
    · next hc =>
        have hnorm := givenOf_inj hsame
        rw [Shape.norm_plain, Shape.norm_plain] at hnorm
        exact hkept ⟨hc, hnorm⟩
    · exact hne (givenOf_inj hsame)

/-- The bytes of a call decode to what it gave, and calls with different operands
have different bytes, but for the conversions left out. -/
theorem encoding_faithful_iff (c : Ctor) :
    (∀ a : c.Args, Faithful c a ↔ ¬ c.LosesConv a) ∧
      ∀ a b : c.Args, c.shape.norm a ≠ c.shape.norm b →
        (Distinct c a b ↔ ¬ (c.DropsConv ∧ c.shape.plain a = c.shape.plain b)) :=
  ⟨faithful_iff c, fun _ _ hne => distinct_iff c hne⟩

/-- `vcmpps k2, zmm1, [rdi]`, from sixteen elements or from one. -/
def comparing (src : Src) : Ctor.vcmpps.Args := (2, 1, src, .lt, 0)

def atRdi : Mem := ⟨.rdi, 0, by decide⟩

theorem comparing_norm_ne :
    Ctor.vcmpps.shape.norm (comparing (.mem atRdi)) ≠
      Ctor.vcmpps.shape.norm (comparing (.memConv atRdi .bcast1)) := by
  intro h
  injection h with _ h
  injection h with _ h
  injection h with h _
  cases h

theorem encoding_faithful_iff_vaddps :
    Faithful .vaddps (3, 17, .memConv ⟨.r9, 64, by decide⟩ .bcast4, 5) ∧
      ¬ Distinct .vcmpps (comparing (.mem atRdi)) (comparing (.memConv atRdi .bcast1)) := by
  refine ⟨((encoding_faithful_iff _).1 _).mpr fun h => absurd h.1 (by decide), ?_⟩
  intro hdist
  exact ((encoding_faithful_iff _).2 _ _ comparing_norm_ne).mp hdist ⟨by decide, rfl⟩

/-- The compare with one broadcast element is the compare with sixteen. -/
theorem vcmpps_broadcast :
    ¬ (∀ (c : Ctor) (a : c.Args), Faithful c a) ∧
      ¬ (∀ (c : Ctor) (a b : c.Args), c.shape.norm a ≠ c.shape.norm b → Distinct c a b) := by
  have hbytes : callOf .vcmpps (comparing (.mem atRdi)) =
      callOf .vcmpps (comparing (.memConv atRdi .bcast1)) := rfl
  have hgiven : givenOf .vcmpps (comparing (.mem atRdi)) ≠
      givenOf .vcmpps (comparing (.memConv atRdi .bcast1)) := by decide
  constructor
  · intro hall
    have hplain := hall .vcmpps (comparing (.mem atRdi)) _ rfl []
    have hbcast := hall .vcmpps (comparing (.memConv atRdi .bcast1)) _ hbytes.symm []
    exact hgiven (Prod.mk.inj (Option.some.inj (hplain.symm.trans hbcast))).1
  · intro hall
    exact hall .vcmpps _ _ comparing_norm_ne _ rfl hbytes.symm

end Phi.Mvex
