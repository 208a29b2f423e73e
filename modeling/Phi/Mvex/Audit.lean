import Phi.Mvex.Faithful

/-!
# Phi.Mvex.Audit

The instruction audit (`phi-isa-audit`) over the encoder's output.

`mvexLength` finds the length of a vector instruction by itself and
`scanBytesCounting` leaves everything else to iced-x86, which is a parameter
here: what its decoder makes of the bytes at a position, with the length it
moves on by.  On the instructions of `knc-mvex` the scan never asks it.
-/

namespace Phi.Mvex

/-! ## mvex_length -/

/-- The bytes behind ModRM that belong to a memory operand. -/
def tailLength (m rm : UInt8) : Nat :=
  if m ≠ 3 then
    (if rm = 4 then 1 else 0) +
      (if m = 0 then if rm = 5 then 4 else 0 else if m = 1 then 1 else 4)
  else 0

def immLength (map opcode : UInt8) : Nat :=
  if map = 3 ∨ (map = 1 ∧ (opcode = 0x70 ∨ opcode = 0x72 ∨ opcode = 0xc2)) then 1 else 0

/-- `mvex_length`. -/
def mvexLength (b : List UInt8) : Option Nat :=
  match b with
  | b0 :: b1 :: b2 :: _ :: opcode :: modrm :: _ =>
      if b0 ≠ 0x62 ∨ b2 &&& 0x04 ≠ 0 then none
      else if b1 &&& 0x03 = 0 then none
      else
        let len := 6 + tailLength (modrm >>> (6 : UInt8)) (modrm &&& 7) +
          immLength (b1 &&& 0x03) opcode
        if len ≤ b.length then some len else none
  | _ => none

/-! ## classification -/

inductive Severity where
  | illegal | suspect
deriving DecidableEq, Repr

/-- The derived order. -/
def Severity.le : Severity → Severity → Bool
  | .suspect, .illegal => false
  | _, _ => true

def illegalFeatures : List String :=
  ["CMOV", "MMX", "SSE", "SSE2", "SSE3", "SSSE3", "SSE4_1", "SSE4_2", "SSE4A", "AVX", "AVX2",
   "FMA", "F16C", "CMPXCHG16B", "MONITOR", "MWAITX", "PAUSE", "PREFETCHW", "PREFETCHWT1", "CLFSH",
   "CLFLUSHOPT", "CLWB", "RDTSCP", "MOVBE", "POPCNT", "LZCNT", "BMI1", "BMI2", "XSAVE",
   "XSAVEOPT", "XSAVEC", "XSAVES", "AES", "PCLMULQDQ", "SHA", "RDRAND", "RDSEED", "ADX",
   "FSGSBASE", "INVPCID", "RDPID", "SMAP", "CET_IBT", "CET_SS", "MPX", "3DNOW", "3DNOWEXT", "TBM",
   "XOP", "FMA4", "LWP", "ENQCMD", "SERIALIZE", "TSXLDTRK", "WAITPKG", "MOVDIRI", "MOVDIR64B",
   "PTWRITE", "UINTR", "AMX_TILE", "AMX_INT8", "AMX_BF16", "KL", "AESKLE", "HRESET",
   "LAHF_SAHF_64", "RTM", "HLE", "PKU", "OSPKE", "CLDEMOTE", "GFNI", "VAES", "VPCLMULQDQ"]

/-- `classify_feature`, of the feature's name. -/
def classifyFeature (name : String) : Option Severity :=
  if name.startsWith "AVX512" || name.startsWith "AVX_VNNI" || name.startsWith "AMX" then
    some .illegal
  else if name ∈ illegalFeatures then some .illegal
  else if name = "MULTIBYTENOP" ∨ name = "CET_IBT" then some .suspect
  else none

/-- The mnemonics that a rule names, and the others. -/
inductive Mnemonic where
  | ldmxcsr | stmxcsr | kandw | kandnw | knotw | korw | kxnorw | kxorw | kmovw | kortestw
  | in_ | insb | insw | insd | out | outsb | outsw | outsd | sysenter | sysexit | sysexitq
  | fcmovb | fcmove | fcmovbe | fcmovu | fcmovnb | fcmovne | fcmovnbe | fcmovnu
  | fcomi | fcomip | fucomi | fucomip
  | other
deriving DecidableEq, Repr

def allowedDespiteFeature : Mnemonic → Bool
  | .ldmxcsr | .stmxcsr | .kandw | .kandnw | .knotw | .korw | .kxnorw | .kxorw | .kmovw
  | .kortestw => true
  | _ => false

def classifyMnemonic : Mnemonic → Option (Severity × String)
  | .in_ | .insb | .insw | .insd => some (.illegal, "IN/INS (port I/O)")
  | .out | .outsb | .outsw | .outsd => some (.illegal, "OUT/OUTS (port I/O)")
  | .sysenter | .sysexit | .sysexitq => some (.illegal, "SYSENTER/SYSEXIT")
  | .fcmovb | .fcmove | .fcmovbe | .fcmovu | .fcmovnb | .fcmovne | .fcmovnbe | .fcmovnu =>
      some (.illegal, "FCMOVcc")
  | .fcomi | .fcomip | .fucomi | .fucomip => some (.illegal, "FCOMI/FUCOMI")
  | _ => none

/-! ## scan_bytes_counting -/

/-- What iced-x86 makes of the bytes at a position. -/
structure Instr where
  isInvalid : Bool
  mnemonic : Mnemonic
  cpuidFeatures : List String
  text : String

/-- The decoder of iced-x86: at the front of bytes that remain it takes an
instruction, or reports an invalid one, and moves on within them. -/
structure Iced where
  decodeOut : List UInt8 → UInt64 → Instr × Nat
  moves : ∀ code ip, code ≠ [] → 0 < (decodeOut code ip).2
  within : ∀ code ip, (decodeOut code ip).2 ≤ code.length

structure Hit where
  severity : Severity
  reason : String
  address : UInt64
  text : String
  symbol : Option (String × UInt64)
  sect : String
deriving DecidableEq, Repr

abbrev Symbols := List (UInt64 × UInt64 × String)

/-- The worse of two reasons; of equals, the first. -/
def worse (worst : Option (Severity × String)) (sev : Severity) (why : String) :
    Option (Severity × String) :=
  match worst with
  | some (w, name) => if w.le sev then some (w, name) else some (sev, why)
  | none => some (sev, why)

/-- The reason to flag an instruction. -/
def reasonFor (instr : Instr) : Option (Severity × String) :=
  let worst := instr.cpuidFeatures.foldl (fun worst name =>
    match classifyFeature name with
    | some sev => worse worst sev name
    | none => worst) none
  match classifyMnemonic instr.mnemonic with
  | some (sev, why) => worse worst sev why
  | none => worst

def enclosing (symbols : Symbols) (ip : UInt64) : Option (String × UInt64) :=
  (symbols.find? fun (a, s, _) => a ≤ ip && (ip < a + s || (s == 0 && ip == a))).map
    fun (a, _, n) => (n, ip - a)

def hitsOf (sect : String) (symbols : Symbols) (instr : Instr) (ip : UInt64) : List Hit :=
  if instr.isInvalid then []
  else if allowedDespiteFeature instr.mnemonic then []
  else
    match reasonFor instr with
    | some (severity, reason) =>
        [{ severity, reason, address := ip, text := instr.text, symbol := enclosing symbols ip,
           sect }]
    | none => []

/-- The loop's variables; the first two are the decoder's. -/
structure Scan where
  pos : Nat
  ip : UInt64
  count : Nat
  vector : Nat
  hits : List Hit

section scan

variable (iced : Iced) (code : List UInt8) (base : UInt64) (sect : String) (symbols : Symbols)

/-- One turn of the loop; none is the panic of `set_position`. -/
def scanTurn (s : Scan) : Option Scan :=
  match mvexLength (code.drop s.pos) with
  | some len =>
      if s.pos + len ≤ code.length then
        some { s with
          pos := s.pos + len
          ip := base + UInt64.ofNat (s.pos + len)
          count := s.count + 1
          vector := s.vector + 1 }
      else none
  | none =>
      let (instr, len) := iced.decodeOut (code.drop s.pos) s.ip
      some { s with
        pos := s.pos + len
        ip := s.ip + UInt64.ofNat len
        count := s.count + 1
        hits := s.hits ++ hitsOf sect symbols instr s.ip }

/-- At most `n` turns, while `can_decode`. -/
def scanFrom : Nat → Scan → Option Scan
  | 0, s => some s
  | n + 1, s => if s.pos < code.length then scanTurn iced code base sect symbols s >>= scanFrom n
      else some s

/-- Every turn moves on, so there are no more turns than bytes. -/
def scanBytesCounting (out : List Hit) : Option (Nat × Nat × List Hit) :=
  (scanFrom iced code base sect symbols code.length
    { pos := 0, ip := base, count := 0, vector := 0, hits := out }).map fun s =>
      (s.count, s.vector, s.hits)

end scan

/-! ## the length of an assembled instruction -/

theorem p0_map (map : Map) (reg : Fin 32) (b x : Fin 2) :
    p0 map reg (u8 b) (u8 x) &&& 0x03 = map.code := by
  revert reg b x
  cases map <;> decide

theorem p1_mvex (pp : Pp) (w : Bool) (vvvv : Fin 32) : p1 pp w vvvv &&& 0x04 = 0 := by
  revert vvvv
  cases pp <;> cases w <;> decide

theorem modrm_fields (reg : Fin 32) (rm : Fin 8) (b : Bool) :
    ((if b then 0xc0 else 0x80) ||| (u8 reg &&& 7) <<< (3 : UInt8) ||| u8 rm) >>> (6 : UInt8) =
        (if b then 3 else 2) ∧
      ((if b then 0xc0 else 0x80) ||| (u8 reg &&& 7) <<< (3 : UInt8) ||| u8 rm) &&& 7 =
        u8 rm := by
  revert reg rm b
  decide

/-- ModRM says how many bytes of the operand follow it. -/
theorem tailLength_modrm (reg : Fin 32) (rm : Rm) :
    ∃ modrm tail, rm.modrm reg = modrm :: tail ∧
      tailLength (modrm >>> (6 : UInt8)) (modrm &&& 7) = tail.length := by
  cases rm with
  | zmm z =>
      obtain ⟨-, -, -, -, hlow⟩ := zmm_ext z
      obtain ⟨htop, -⟩ := modrm_fields reg ⟨z % 8, by omega⟩ true
      rw [← hlow, if_pos rfl, if_pos rfl] at htop
      refine ⟨_, _, rfl, ?_⟩
      rw [htop]
      rfl
  | mem m =>
      obtain ⟨-, -, -, hlt, -⟩ := mem_ext m
      have hlow : m.base.num &&& 7 = u8 (⟨(m.base.num &&& 7).toNat, hlt⟩ : Fin 8) := by
        simp [u8]
      obtain ⟨htop, hrm⟩ := modrm_fields reg ⟨(m.base.num &&& 7).toNat, hlt⟩ false
      rw [← hlow, if_neg (by decide)] at htop hrm
      rw [if_neg (by decide)] at htop
      refine ⟨_, _, rfl, ?_⟩
      rw [htop, hrm, tailLength, if_pos (by decide), if_neg m.noSib, length_leBytes]
      rfl

theorem immLength_hasImm {map : Map} {opcode : UInt8} {imm : Option UInt8}
    (h : imm.isSome = hasImm map opcode) : immLength map.code opcode = imm.toList.length := by
  cases imm with
  | none =>
      cases map <;> simp_all [hasImm, immLength, Map.code]
  | some b =>
      cases map <;> simp_all [hasImm, immLength, Map.code, or_assoc]

/-- An instruction of `mvex`, with the upper half of P2 set afterwards. -/
inductive Assembled : List UInt8 → Prop where
  | mk (map : Map) (pp : Pp) (w : Bool) (reg vvvv : Fin 32) (rm : Rm) (aaa : Fin 8)
      {opcode : UInt8} {imm : Option UInt8} (himm : imm.isSome = hasImm map opcode)
      (f : UInt8 → UInt8) :
      Assembled ((mvex map pp w reg vvvv rm aaa opcode imm).modify 3 f)

theorem mvexLength_assembled {bs : List UInt8} (h : Assembled bs) (rest : List UInt8) :
    mvexLength (bs ++ rest) = some bs.length := by
  obtain ⟨map, pp, w, reg, vvvv, rm, aaa, himm, f⟩ := h
  rename_i opcode imm
  have hext : ∃ b x : Fin 2, rm.ext = (u8 b, u8 x) := by
    cases rm with
    | zmm z => exact (zmm_ext z).imp fun b h => h.imp fun x h => h.1
    | mem m => exact (mem_ext m).imp fun b h => ⟨0, h.1⟩
  obtain ⟨b, x, hext⟩ := hext
  obtain ⟨modrm, tail, hmodrm, htail⟩ := tailLength_modrm reg rm
  have hbytes : (mvex map pp w reg vvvv rm aaa opcode imm).modify 3 f =
      0x62 :: p0 map reg (u8 b) (u8 x) :: p1 pp w vvvv :: f (p2 vvvv aaa) :: opcode :: modrm ::
        (tail ++ imm.toList) := by
    simp [mvex, hmodrm, hext, List.modify_cons]
  have hmap : map.code ≠ 0 := by cases map <;> decide
  rw [hbytes]
  simp only [List.cons_append, mvexLength, p0_map, p1_mvex, htail, immLength_hasImm himm]
  simp [hmap]
  omega

/-- The constructors of mask register instructions, which are VEX encoded. -/
def Ctor.IsVex (c : Ctor) : Prop := c ∈ [Ctor.kmovR32K, .kmovKR32, .kmovKK, .kortest]

instance (c : Ctor) : Decidable c.IsVex := inferInstanceAs (Decidable (_ ∈ _))

section assembled

variable {map : Map} {pp : Pp} {w : Bool} {reg vvvv : Fin 32} {rm : Rm} {k : K} {opcode : UInt8}
  {imm : Option UInt8}

theorem assembled_plain (himm : imm.isSome = hasImm map opcode) :
    Assembled (mvex map pp w reg vvvv rm k opcode imm) := by
  have h := Assembled.mk map pp w reg vvvv rm k himm id
  rwa [List.modify_id] at h

theorem assembled_withSss (himm : imm.isSome = hasImm map opcode) (sss : UInt8) :
    Assembled (withSss (mvex map pp w reg vvvv rm k opcode imm) sss) :=
  .mk map pp w reg vvvv rm k himm _

end assembled

theorem assembled_of_callOf {c : Ctor} (hc : ¬ c.IsVex) {a : c.Args} {bs : List UInt8}
    (h : callOf c a = some bs) : Assembled bs := by
  cases c
  case kmovR32K | kmovKR32 | kmovKK | kortest => exact absurd (by decide) hc
  case vaddpd | vsubpd | vmulpd | vfmadd213pd | vfmadd231pd | vaddps | vsubps | vmulps
      | vfmadd213ps | vfmadd231ps | vpaddd | vpsubd | vpandd | vpandnd | vpord | vpxord
      | vpsllvd | vpsrlvd | vfnmadd231ps | vfmsub213ps | vfmsub231ps | vpermd
      | vcvtfxpntdq2ps | vrndfxpntps | vcvtfxpntps2dq | vcvtfxpntps2dqAdj
      | vmovapsLoadF16 | vmovapsLoadConv | vmovdqa32LoadConv | vloadunpacklpsConv
      | vloadunpackhpsConv =>
    obtain rfl := Option.some.inj h
    exact assembled_withSss rfl _
  case vmovapsStore | vmovnrapsStore | vmovapsLoad | vmovapdStore | vpackstoreld | vpackstorehd
      | vloadunpackld | vloadunpackhd | vpbroadcastd | vprefetch | vexp223ps | vrcp23ps
      | vmovapdLoad | vcmppd | vcmpps | vpslld | vpsrld | vpsrad =>
    obtain rfl := Option.some.inj h
    exact assembled_plain rfl
  case vloadunpackldConv | vloadunpackhdConv | vmovapsStoreConv =>
    obtain ⟨-, h⟩ := Option.ite_none_right_eq_some.mp h
    obtain rfl := Option.some.inj h
    exact assembled_withSss rfl _
  case vmovnrngoapsStore =>
    obtain rfl := Option.some.inj h
    exact .mk _ _ _ _ _ _ _ rfl _

/-- A vector instruction as a constructor makes it. -/
structure Insn where
  ctor : Ctor
  args : ctor.Args
  bytes : List UInt8
  isVector : ¬ ctor.IsVex
  made : callOf ctor args = some bytes

theorem Insn.mvexLength (i : Insn) (rest : List UInt8) :
    mvexLength (i.bytes ++ rest) = some i.bytes.length :=
  mvexLength_assembled (assembled_of_callOf i.isVector i.made) rest

theorem Insn.bytes_ne_nil (i : Insn) : i.bytes ≠ [] := by
  intro h
  have hlen := i.mvexLength []
  rw [h] at hlen
  cases hlen

/-! ## the scan -/

theorem mvexLength_fits {b : List UInt8} {len : Nat} (h : mvexLength b = some len) :
    0 < len ∧ len ≤ b.length := by
  unfold mvexLength at h
  split at h
  · obtain ⟨-, h⟩ := Option.ite_none_left_eq_some.mp h
    obtain ⟨-, h⟩ := Option.ite_none_left_eq_some.mp h
    obtain ⟨hle, h⟩ := Option.ite_none_right_eq_some.mp h
    obtain rfl := Option.some.inj h
    exact ⟨by omega, hle⟩
  · cases h

section scan

variable (iced : Iced) (code : List UInt8) (base : UInt64) (sect : String) (symbols : Symbols)

/-- A turn does not panic, and moves on within the code. -/
theorem scanTurn_moves {s : Scan} (hs : s.pos < code.length) :
    ∃ t, scanTurn iced code base sect symbols s = some t ∧ s.pos < t.pos ∧
      t.pos ≤ code.length := by
  have hlen : (code.drop s.pos).length = code.length - s.pos := List.length_drop
  unfold scanTurn
  split
  · next len hlength =>
      obtain ⟨hpos, hle⟩ := mvexLength_fits hlength
      rw [if_pos (by omega)]
      exact ⟨_, rfl, by simp; omega, by simp; omega⟩
  · have hne : code.drop s.pos ≠ [] := by
      rw [← List.length_pos_iff]
      omega
    have hmoves := iced.moves _ s.ip hne
    have hwithin := iced.within (code.drop s.pos) s.ip
    refine ⟨_, rfl, Nat.lt_add_of_pos_right hmoves, ?_⟩
    show s.pos + (iced.decodeOut (code.drop s.pos) s.ip).2 ≤ code.length
    omega

theorem scanFrom_done {s : Scan} (hs : code.length ≤ s.pos) (n : Nat) :
    scanFrom iced code base sect symbols n s = some s := by
  cases n with
  | zero => rfl
  | succ n => rw [scanFrom, if_neg (by omega)]

theorem scanFrom_add (m n : Nat) (s : Scan) :
    scanFrom iced code base sect symbols (m + n) s =
      scanFrom iced code base sect symbols m s >>= scanFrom iced code base sect symbols n := by
  induction m generalizing s with
  | zero => rw [Nat.zero_add]; rfl
  | succ m ih =>
      rw [Nat.succ_add, scanFrom, scanFrom]
      split
      · rw [bind_assoc]
        exact congrArg _ (funext ih)
      · next hs => exact (scanFrom_done iced code base sect symbols (by omega) n).symm

/-- As many turns as bytes are enough: the scan comes to the end of the code. -/
theorem scanFrom_ends {n : Nat} {s : Scan} (hs : s.pos ≤ code.length)
    (hn : code.length ≤ n + s.pos) :
    ∃ t, scanFrom iced code base sect symbols n s = some t ∧ t.pos = code.length := by
  induction n generalizing s with
  | zero => exact ⟨s, rfl, by omega⟩
  | succ n ih =>
      by_cases hlt : s.pos < code.length
      · obtain ⟨t, hturn, hmoved, hle⟩ := scanTurn_moves iced code base sect symbols hlt
        obtain ⟨u, hrest, hend⟩ := ih hle (by omega)
        refine ⟨u, ?_, hend⟩
        rw [scanFrom, if_pos hlt, hturn]
        exact hrest
      · exact ⟨s, scanFrom_done iced code base sect symbols (by omega) _, by omega⟩

end scan

/-! ## the scan of a list of instructions -/

/-- The bytes of a list of instructions. -/
def codeOf (is : List Insn) : List UInt8 := is.flatMap Insn.bytes

@[simp] theorem codeOf_append (is js : List Insn) : codeOf (is ++ js) = codeOf is ++ codeOf js :=
  List.flatMap_append

@[simp] theorem codeOf_cons (i : Insn) (is : List Insn) : codeOf (i :: is) = i.bytes ++ codeOf is :=
  List.flatMap_cons

@[simp] theorem codeOf_nil : codeOf [] = [] := rfl

theorem length_le_codeOf (is : List Insn) : is.length ≤ (codeOf is).length := by
  induction is with
  | nil => simp
  | cons i is ih =>
      have hpos := List.length_pos_iff.mpr i.bytes_ne_nil
      simp
      omega

section boundaries

variable (iced : Iced) (base : UInt64) (sect : String) (symbols : Symbols) (out : List Hit)

/-- The loop's variables at the boundary behind the instructions `is`. -/
def boundary (is : List Insn) : Scan where
  pos := (codeOf is).length
  ip := base + UInt64.ofNat (codeOf is).length
  count := is.length
  vector := is.length
  hits := out

/-- At a boundary a turn takes the next instruction. -/
theorem scanTurn_boundary (is : List Insn) (i : Insn) (js : List Insn) :
    scanTurn iced (codeOf (is ++ i :: js)) base sect symbols (boundary base out is) =
      some (boundary base out (is ++ [i])) := by
  have hlength : mvexLength ((codeOf (is ++ i :: js)).drop (boundary base out is).pos) =
      some i.bytes.length := by
    rw [codeOf_append, boundary, List.drop_left, codeOf_cons]
    exact i.mvexLength _
  have hfits : (boundary base out is).pos + i.bytes.length ≤
      (codeOf (is ++ i :: js)).length := by
    simp [boundary]
  simp only [scanTurn, hlength, if_pos hfits]
  simp [boundary]

/-- From a boundary, as many turns as instructions end at the last boundary. -/
theorem scanFrom_boundary (is js ks : List Insn) :
    scanFrom iced (codeOf (is ++ (js ++ ks))) base sect symbols js.length
      (boundary base out is) = some (boundary base out (is ++ js)) := by
  induction js generalizing is with
  | nil => simp [scanFrom]
  | cons i js ih =>
      have hlt : (boundary base out is).pos < (codeOf (is ++ (i :: js ++ ks))).length := by
        have hpos := List.length_pos_iff.mpr i.bytes_ne_nil
        simp [boundary]
        omega
      rw [List.length_cons, scanFrom, if_pos hlt, List.cons_append, scanTurn_boundary,
        List.append_cons is i (js ++ ks), List.append_cons is i js]
      exact ih (is ++ [i])

theorem boundary_nil :
    boundary base out [] = { pos := 0, ip := base, count := 0, vector := 0, hits := out } := by
  simp [boundary]

/-- The audit measures every vector instruction as it was assembled, whatever
follows it, and over a list of them the scan is at each boundary in turn and
ends with as many instructions as the list has, all vector, and no hit. -/
theorem audit_in_step (is : List Insn) :
    (∀ i ∈ is, ∀ rest, mvexLength (i.bytes ++ rest) = some i.bytes.length) ∧
      (∀ k ≤ is.length,
        scanFrom iced (codeOf is) base sect symbols k
            { pos := 0, ip := base, count := 0, vector := 0, hits := out } =
          some (boundary base out (is.take k))) ∧
      scanBytesCounting iced (codeOf is) base sect symbols out =
        some (is.length, is.length, out) := by
  have hturns : ∀ k ≤ is.length, scanFrom iced (codeOf is) base sect symbols k
      (boundary base out []) = some (boundary base out (is.take k)) := by
    intro k hk
    have h := scanFrom_boundary iced base sect symbols out [] (is.take k) (is.drop k)
    rwa [List.nil_append, List.nil_append, List.take_append_drop, List.length_take_of_le hk] at h
  refine ⟨fun i _ => i.mvexLength, fun k hk => boundary_nil base out ▸ hturns k hk, ?_⟩
  obtain ⟨n, hn⟩ := Nat.exists_eq_add_of_le (length_le_codeOf is)
  have hall := hturns is.length (Nat.le_refl _)
  rw [List.take_length] at hall
  rw [scanBytesCounting, ← boundary_nil, hn, scanFrom_add, hall, Option.bind_eq_bind,
    Option.bind_some, scanFrom_done _ _ _ _ _ (Nat.le_refl _)]
  rfl

end boundaries

theorem min_one_pos (code : List UInt8) (_ : UInt64) (h : code ≠ []) : 0 < min 1 code.length :=
  Nat.lt_min.mpr ⟨Nat.one_pos, List.length_pos_iff.mpr h⟩

theorem min_one_le (code : List UInt8) (_ : UInt64) : min 1 code.length ≤ code.length :=
  Nat.min_le_right 1 code.length

/-- A decoder that takes every byte for an instruction of its own. -/
def bytewise : Iced where
  decodeOut code _ := ({ isInvalid := false, mnemonic := .other, cpuidFeatures := [], text := "" },
    min 1 code.length)
  moves := min_one_pos
  within := min_one_le

theorem audit_in_step_shift :
    scanBytesCounting bytewise
      (codeOf [⟨.vpslld, (3, .mem ⟨.r9, 64, by decide⟩, 11, 0), _, by decide, rfl⟩,
        ⟨.vaddpd, (1, 2, .reg 31, 5), _, by decide, rfl⟩]) 0x1000 ".text" [] [] =
      some (2, 2, []) :=
  (audit_in_step bytewise 0x1000 ".text" [] [] _).2.2

end Phi.Mvex
