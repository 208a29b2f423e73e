import Phi.Mvex.Machine

/-!
# Phi.Mvex.Switch

The vector unit saved and loaded at a context switch (`asm/knc_vpu.h`, patch
0024).

The two routines are byte sequences for the vector unit and the mask registers,
which are decoded before they are carried out, and moves of 16 bits, which the
assembler knows.  `save_spec` and `restore_spec` say what they do with the
area that `rax` points to.
-/

namespace Phi.Mvex

/-! ## the machine with its mask registers -/

/-- The contents of the vector unit. -/
structure Vpu where
  zmm : Zmm → Vec
  k : K → BitVec 16

structure Cpu where
  machine : Machine
  k : K → BitVec 16

def Cpu.vpu (c : Cpu) : Vpu := ⟨c.machine.zmm, c.k⟩

def Cpu.rax (c : Cpu) : Nat := c.machine.gpr .rax

def wordAt (ram : Ram) (a : Nat) : BitVec 16 := BitVec.ofNat 16 (ofLe [ram a, ram (a + 1)])

def putWord (ram : Ram) (a : Nat) (w : BitVec 16) : Ram := fun x =>
  if x = a then UInt8.ofNat w.toNat
  else if x = a + 1 then UInt8.ofNat (w.toNat / 256)
  else ram x

/-- A line of inline assembly. -/
inductive AsmLine where
  | bytes (bs : List UInt8)
  /-- `movw %cx, disp(%rax)` -/
  | movw (disp : Nat)
  /-- `movzwl disp(%rax), %ecx` -/
  | movzwl (disp : Nat)
deriving DecidableEq

/-- `kmov` from and to a mask register. -/
def execVex (opcode : UInt8) (reg rm : Nat) (c : Cpu) : Option Cpu :=
  match opcode with
  | 0x93 =>
      some { c with machine := c.machine.setGpr (Gpr.ofNum reg) (c.k (Fin.ofNat 8 rm)).toNat }
  | 0x92 =>
      let w := BitVec.ofNat 16 (c.machine.gpr (Gpr.ofNum rm))
      some { c with k := fun q => if q = Fin.ofNat 8 reg then w else c.k q }
  | _ => none

def Cpu.withRam (c : Cpu) (ram : Ram) : Cpu := { c with machine := { c.machine with ram := ram } }

def AsmLine.exec (line : AsmLine) (c : Cpu) : Option Cpu :=
  match line with
  | .bytes bs =>
      match decode bs with
      | some (.mvex f, []) => (Mvex.exec f c.machine).map fun m => { c with machine := m }
      | some (.vex opcode reg rm, []) => execVex opcode reg rm c
      | _ => none
  | .movw disp =>
      some (c.withRam (putWord c.machine.ram (c.rax + disp)
        (BitVec.ofNat 16 (c.machine.gpr .rcx))))
  | .movzwl disp =>
      some { c with
        machine := c.machine.setGpr .rcx (wordAt c.machine.ram (c.rax + disp)).toNat }

def runAsm : List AsmLine → Cpu → Option Cpu
  | [], c => some c
  | line :: lines, c => line.exec c >>= runAsm lines

/-! ## the code -/

def kncVpuKOffset : Nat := 2048
def kncVpuStateSize : Nat := 2112

/-- `knc_vpu_save`, with the area in `rax`. -/
def kncVpuSave : List AsmLine :=
  [.bytes [0x62, 0xf1, 0x78, 0x08, 0x29, 0x80, 0x00, 0x00, 0x00, 0x00],
    .bytes [0x62, 0xf1, 0x78, 0x08, 0x29, 0x88, 0x40, 0x00, 0x00, 0x00],
    .bytes [0x62, 0xf1, 0x78, 0x08, 0x29, 0x90, 0x80, 0x00, 0x00, 0x00],
    .bytes [0x62, 0xf1, 0x78, 0x08, 0x29, 0x98, 0xc0, 0x00, 0x00, 0x00],
    .bytes [0x62, 0xf1, 0x78, 0x08, 0x29, 0xa0, 0x00, 0x01, 0x00, 0x00],
    .bytes [0x62, 0xf1, 0x78, 0x08, 0x29, 0xa8, 0x40, 0x01, 0x00, 0x00],
    .bytes [0x62, 0xf1, 0x78, 0x08, 0x29, 0xb0, 0x80, 0x01, 0x00, 0x00],
    .bytes [0x62, 0xf1, 0x78, 0x08, 0x29, 0xb8, 0xc0, 0x01, 0x00, 0x00],
    .bytes [0x62, 0x71, 0x78, 0x08, 0x29, 0x80, 0x00, 0x02, 0x00, 0x00],
    .bytes [0x62, 0x71, 0x78, 0x08, 0x29, 0x88, 0x40, 0x02, 0x00, 0x00],
    .bytes [0x62, 0x71, 0x78, 0x08, 0x29, 0x90, 0x80, 0x02, 0x00, 0x00],
    .bytes [0x62, 0x71, 0x78, 0x08, 0x29, 0x98, 0xc0, 0x02, 0x00, 0x00],
    .bytes [0x62, 0x71, 0x78, 0x08, 0x29, 0xa0, 0x00, 0x03, 0x00, 0x00],
    .bytes [0x62, 0x71, 0x78, 0x08, 0x29, 0xa8, 0x40, 0x03, 0x00, 0x00],
    .bytes [0x62, 0x71, 0x78, 0x08, 0x29, 0xb0, 0x80, 0x03, 0x00, 0x00],
    .bytes [0x62, 0x71, 0x78, 0x08, 0x29, 0xb8, 0xc0, 0x03, 0x00, 0x00],
    .bytes [0x62, 0xe1, 0x78, 0x08, 0x29, 0x80, 0x00, 0x04, 0x00, 0x00],
    .bytes [0x62, 0xe1, 0x78, 0x08, 0x29, 0x88, 0x40, 0x04, 0x00, 0x00],
    .bytes [0x62, 0xe1, 0x78, 0x08, 0x29, 0x90, 0x80, 0x04, 0x00, 0x00],
    .bytes [0x62, 0xe1, 0x78, 0x08, 0x29, 0x98, 0xc0, 0x04, 0x00, 0x00],
    .bytes [0x62, 0xe1, 0x78, 0x08, 0x29, 0xa0, 0x00, 0x05, 0x00, 0x00],
    .bytes [0x62, 0xe1, 0x78, 0x08, 0x29, 0xa8, 0x40, 0x05, 0x00, 0x00],
    .bytes [0x62, 0xe1, 0x78, 0x08, 0x29, 0xb0, 0x80, 0x05, 0x00, 0x00],
    .bytes [0x62, 0xe1, 0x78, 0x08, 0x29, 0xb8, 0xc0, 0x05, 0x00, 0x00],
    .bytes [0x62, 0x61, 0x78, 0x08, 0x29, 0x80, 0x00, 0x06, 0x00, 0x00],
    .bytes [0x62, 0x61, 0x78, 0x08, 0x29, 0x88, 0x40, 0x06, 0x00, 0x00],
    .bytes [0x62, 0x61, 0x78, 0x08, 0x29, 0x90, 0x80, 0x06, 0x00, 0x00],
    .bytes [0x62, 0x61, 0x78, 0x08, 0x29, 0x98, 0xc0, 0x06, 0x00, 0x00],
    .bytes [0x62, 0x61, 0x78, 0x08, 0x29, 0xa0, 0x00, 0x07, 0x00, 0x00],
    .bytes [0x62, 0x61, 0x78, 0x08, 0x29, 0xa8, 0x40, 0x07, 0x00, 0x00],
    .bytes [0x62, 0x61, 0x78, 0x08, 0x29, 0xb0, 0x80, 0x07, 0x00, 0x00],
    .bytes [0x62, 0x61, 0x78, 0x08, 0x29, 0xb8, 0xc0, 0x07, 0x00, 0x00],
    .bytes [0xc5, 0xf8, 0x93, 0xc8], .movw 2048,
    .bytes [0xc5, 0xf8, 0x93, 0xc9], .movw 2050,
    .bytes [0xc5, 0xf8, 0x93, 0xca], .movw 2052,
    .bytes [0xc5, 0xf8, 0x93, 0xcb], .movw 2054,
    .bytes [0xc5, 0xf8, 0x93, 0xcc], .movw 2056,
    .bytes [0xc5, 0xf8, 0x93, 0xcd], .movw 2058,
    .bytes [0xc5, 0xf8, 0x93, 0xce], .movw 2060,
    .bytes [0xc5, 0xf8, 0x93, 0xcf], .movw 2062]

/-- `knc_vpu_restore`. -/
def kncVpuRestore : List AsmLine :=
  [.bytes [0x62, 0xf1, 0x78, 0x08, 0x28, 0x80, 0x00, 0x00, 0x00, 0x00],
    .bytes [0x62, 0xf1, 0x78, 0x08, 0x28, 0x88, 0x40, 0x00, 0x00, 0x00],
    .bytes [0x62, 0xf1, 0x78, 0x08, 0x28, 0x90, 0x80, 0x00, 0x00, 0x00],
    .bytes [0x62, 0xf1, 0x78, 0x08, 0x28, 0x98, 0xc0, 0x00, 0x00, 0x00],
    .bytes [0x62, 0xf1, 0x78, 0x08, 0x28, 0xa0, 0x00, 0x01, 0x00, 0x00],
    .bytes [0x62, 0xf1, 0x78, 0x08, 0x28, 0xa8, 0x40, 0x01, 0x00, 0x00],
    .bytes [0x62, 0xf1, 0x78, 0x08, 0x28, 0xb0, 0x80, 0x01, 0x00, 0x00],
    .bytes [0x62, 0xf1, 0x78, 0x08, 0x28, 0xb8, 0xc0, 0x01, 0x00, 0x00],
    .bytes [0x62, 0x71, 0x78, 0x08, 0x28, 0x80, 0x00, 0x02, 0x00, 0x00],
    .bytes [0x62, 0x71, 0x78, 0x08, 0x28, 0x88, 0x40, 0x02, 0x00, 0x00],
    .bytes [0x62, 0x71, 0x78, 0x08, 0x28, 0x90, 0x80, 0x02, 0x00, 0x00],
    .bytes [0x62, 0x71, 0x78, 0x08, 0x28, 0x98, 0xc0, 0x02, 0x00, 0x00],
    .bytes [0x62, 0x71, 0x78, 0x08, 0x28, 0xa0, 0x00, 0x03, 0x00, 0x00],
    .bytes [0x62, 0x71, 0x78, 0x08, 0x28, 0xa8, 0x40, 0x03, 0x00, 0x00],
    .bytes [0x62, 0x71, 0x78, 0x08, 0x28, 0xb0, 0x80, 0x03, 0x00, 0x00],
    .bytes [0x62, 0x71, 0x78, 0x08, 0x28, 0xb8, 0xc0, 0x03, 0x00, 0x00],
    .bytes [0x62, 0xe1, 0x78, 0x08, 0x28, 0x80, 0x00, 0x04, 0x00, 0x00],
    .bytes [0x62, 0xe1, 0x78, 0x08, 0x28, 0x88, 0x40, 0x04, 0x00, 0x00],
    .bytes [0x62, 0xe1, 0x78, 0x08, 0x28, 0x90, 0x80, 0x04, 0x00, 0x00],
    .bytes [0x62, 0xe1, 0x78, 0x08, 0x28, 0x98, 0xc0, 0x04, 0x00, 0x00],
    .bytes [0x62, 0xe1, 0x78, 0x08, 0x28, 0xa0, 0x00, 0x05, 0x00, 0x00],
    .bytes [0x62, 0xe1, 0x78, 0x08, 0x28, 0xa8, 0x40, 0x05, 0x00, 0x00],
    .bytes [0x62, 0xe1, 0x78, 0x08, 0x28, 0xb0, 0x80, 0x05, 0x00, 0x00],
    .bytes [0x62, 0xe1, 0x78, 0x08, 0x28, 0xb8, 0xc0, 0x05, 0x00, 0x00],
    .bytes [0x62, 0x61, 0x78, 0x08, 0x28, 0x80, 0x00, 0x06, 0x00, 0x00],
    .bytes [0x62, 0x61, 0x78, 0x08, 0x28, 0x88, 0x40, 0x06, 0x00, 0x00],
    .bytes [0x62, 0x61, 0x78, 0x08, 0x28, 0x90, 0x80, 0x06, 0x00, 0x00],
    .bytes [0x62, 0x61, 0x78, 0x08, 0x28, 0x98, 0xc0, 0x06, 0x00, 0x00],
    .bytes [0x62, 0x61, 0x78, 0x08, 0x28, 0xa0, 0x00, 0x07, 0x00, 0x00],
    .bytes [0x62, 0x61, 0x78, 0x08, 0x28, 0xa8, 0x40, 0x07, 0x00, 0x00],
    .bytes [0x62, 0x61, 0x78, 0x08, 0x28, 0xb0, 0x80, 0x07, 0x00, 0x00],
    .bytes [0x62, 0x61, 0x78, 0x08, 0x28, 0xb8, 0xc0, 0x07, 0x00, 0x00],
    .movzwl 2048, .bytes [0xc5, 0xf8, 0x92, 0xc1],
    .movzwl 2050, .bytes [0xc5, 0xf8, 0x92, 0xc9],
    .movzwl 2052, .bytes [0xc5, 0xf8, 0x92, 0xd1],
    .movzwl 2054, .bytes [0xc5, 0xf8, 0x92, 0xd9],
    .movzwl 2056, .bytes [0xc5, 0xf8, 0x92, 0xe1],
    .movzwl 2058, .bytes [0xc5, 0xf8, 0x92, 0xe9],
    .movzwl 2060, .bytes [0xc5, 0xf8, 0x92, 0xf1],
    .movzwl 2062, .bytes [0xc5, 0xf8, 0x92, 0xf9]]

/-- Where a register is kept. -/
def slot (z : Zmm) : Mem := ⟨.rax, BitVec.ofNat 32 (64 * z), by decide⟩

def storeLine (z : Zmm) : AsmLine := .bytes (vmovapsStore (slot z) z)
def loadLine (z : Zmm) : AsmLine := .bytes (vmovapsLoad z (slot z))

def storeMask (k : K) : List AsmLine :=
  [.bytes ((kmovR32K .rcx k).getD []), .movw (kncVpuKOffset + 2 * k)]

def loadMask (k : K) : List AsmLine :=
  [.movzwl (kncVpuKOffset + 2 * k), .bytes ((kmovKR32 k .rcx).getD [])]

/-- The bytes are what the encoder emits for the registers in order. -/
theorem kncVpuSave_eq :
    kncVpuSave = (List.finRange 32).map storeLine ++ (List.finRange 8).flatMap storeMask := by
  decide +kernel

theorem kncVpuRestore_eq :
    kncVpuRestore = (List.finRange 32).map loadLine ++ (List.finRange 8).flatMap loadMask := by
  decide +kernel

/-! ## one line -/

section lines

variable {c : Cpu} {m : Machine}

/-- An instruction of the vector unit leaves the mask registers alone. -/
theorem exec_bytes {bs : List UInt8} (symbols : String → Nat)
    (h : (Line.bytes bs).exec symbols c.machine = some m) :
    (AsmLine.bytes bs).exec c = some { c with machine := m } := by
  unfold Line.exec at h
  unfold AsmLine.exec
  dsimp only at h ⊢
  split at h
  · next f hdec =>
      rw [hdec]
      dsimp only
      rw [h]
      rfl
  · cases h

theorem address_slot (z : Zmm) :
    c.machine.address (slot z).base (slot z).disp = c.rax + 64 * z := by
  have hz := z.isLt
  have hdisp : (slot z).disp.toInt = 64 * (z : Int) := by
    rw [slot, BitVec.toInt_eq_toNat_of_lt]
    · rw [BitVec.toNat_ofNat]
      omega
    · rw [BitVec.toNat_ofNat]
      omega
  rw [Machine.address, hdisp]
  show ((c.rax : Int) + 64 * (z : Int)).toNat = _
  omega

theorem exec_storeLine (z : Zmm) (h : c.rax % 64 = 0) :
    (storeLine z).exec c =
      some (c.withRam (putVec c.machine.ram (c.rax + 64 * z) (c.machine.zmm z))) := by
  refine exec_bytes (fun _ => 0) ?_
  rw [exec_vmovapsStore, address_slot, if_pos (by omega)]
  rfl

theorem exec_loadLine (z : Zmm) (h : c.rax % 64 = 0) :
    (loadLine z).exec c =
      some { c with
        machine := c.machine.setZmm z (vecAt c.machine.ram (c.rax + 64 * z)) } := by
  refine exec_bytes (fun _ => 0) ?_
  rw [exec_vmovapsLoad, address_slot, if_pos (by omega)]

theorem kmovR32K_rcx (k : K) : kmovR32K .rcx k = some ((kmovR32K .rcx k).getD []) := by
  revert k
  decide

theorem kmovKR32_rcx (k : K) : kmovKR32 k .rcx = some ((kmovKR32 k .rcx).getD []) := by
  revert k
  decide

theorem ofNat_u8 (k : K) : Fin.ofNat 8 (u8 k).toNat = k := by
  rw [toNat_u8]
  exact Fin.ext (Nat.mod_eq_of_lt k.isLt)

theorem exec_kmovR32K (k : K) :
    (AsmLine.bytes ((kmovR32K .rcx k).getD [])).exec c =
      some { c with machine := c.machine.setGpr .rcx (c.k k).toNat } := by
  have hdec := decode_vexK (kmovR32K_rcx k) []
  rw [List.append_nil] at hdec
  unfold AsmLine.exec
  dsimp only
  rw [hdec]
  show some { c with machine := c.machine.setGpr .rcx (c.k (Fin.ofNat 8 (u8 k).toNat)).toNat } = _
  rw [ofNat_u8]

theorem exec_kmovKR32 (k : K) :
    (AsmLine.bytes ((kmovKR32 k .rcx).getD [])).exec c =
      some { c with
        k := fun q => if q = k then BitVec.ofNat 16 (c.machine.gpr .rcx) else c.k q } := by
  have hdec := decode_vexK (kmovKR32_rcx k) []
  rw [List.append_nil] at hdec
  unfold AsmLine.exec
  dsimp only
  rw [hdec]
  show some { c with
    k := fun q => if q = Fin.ofNat 8 (u8 k).toNat then BitVec.ofNat 16 (c.machine.gpr .rcx)
      else c.k q } = _
  rw [ofNat_u8]

end lines

/-! ## words -/

section words

variable {ram ram' : Ram} {a x : Nat} {w : BitVec 16}

theorem wordAt_putWord : wordAt (putWord ram a w) a = w := by
  have hw := w.isLt
  have h0 : putWord ram a w a = UInt8.ofNat w.toNat := if_pos rfl
  have h1 : putWord ram a w (a + 1) = UInt8.ofNat (w.toNat / 256) :=
    (if_neg (Nat.succ_ne_self a)).trans (if_pos rfl)
  rw [wordAt, h0, h1]
  apply BitVec.eq_of_toNat_eq
  simp only [ofLe, UInt8.toNat_ofNat', BitVec.toNat_ofNat]
  omega

theorem putWord_of_apart (h : x < a ∨ a + 2 ≤ x) : putWord ram a w x = ram x := by
  rw [putWord, if_neg (by omega), if_neg (by omega)]

theorem wordAt_congr (h : ∀ x, a ≤ x → x < a + 2 → ram' x = ram x) :
    wordAt ram' a = wordAt ram a := by
  rw [wordAt, wordAt, h a (by omega) (by omega), h (a + 1) (by omega) (by omega)]

end words

/-! ## the routines -/

theorem runAsm_append (xs ys : List AsmLine) (c : Cpu) :
    runAsm (xs ++ ys) c = runAsm xs c >>= runAsm ys := by
  induction xs generalizing c with
  | nil => rfl
  | cons x xs ih =>
      rw [List.cons_append, runAsm, runAsm, bind_assoc]
      exact congrArg _ (funext ih)

/-- Outside the bytes of the registers `zs`, or of the masks `ks`, of an area. -/
def OffSlots (a : Nat) (zs : List Zmm) (x : Nat) : Prop :=
  ∀ z ∈ zs, x < a + 64 * z ∨ a + 64 * z + 64 ≤ x

def OffMasks (a : Nat) (ks : List K) (x : Nat) : Prop :=
  ∀ k ∈ ks, x < a + (kncVpuKOffset + 2 * k) ∨ a + (kncVpuKOffset + 2 * k) + 2 ≤ x

/-- Every register in its slot, and nothing else written. -/
theorem run_stores {zs : List Zmm} (hn : zs.Nodup) (c : Cpu) (h : c.rax % 64 = 0) :
    ∃ ram, runAsm (zs.map storeLine) c = some (c.withRam ram) ∧
      (∀ z ∈ zs, vecAt ram (c.rax + 64 * z) = c.machine.zmm z) ∧
      ∀ x, OffSlots c.rax zs x → ram x = c.machine.ram x := by
  induction zs generalizing c with
  | nil => exact ⟨c.machine.ram, rfl, by simp, fun _ _ => rfl⟩
  | cons z zs ih =>
      obtain ⟨hz, hn⟩ := List.nodup_cons.1 hn
      obtain ⟨ram, hrun, hslots, hoff⟩ :=
        ih hn (c.withRam (putVec c.machine.ram (c.rax + 64 * z) (c.machine.zmm z))) h
      refine ⟨ram, ?_, ?_, ?_⟩
      · rw [List.map_cons, runAsm, exec_storeLine z h]
        exact hrun
      · intro q hq
        rcases List.mem_cons.1 hq with rfl | hq
        · have hkeep : ∀ x, c.rax + 64 * q ≤ x → x < c.rax + 64 * q + 64 →
              ram x = putVec c.machine.ram (c.rax + 64 * q) (c.machine.zmm q) x := by
            intro x hx hx'
            refine hoff x fun r hr => ?_
            have hne : (r : Nat) ≠ q := fun he => hz (Fin.ext he ▸ hr)
            show x < c.rax + 64 * r ∨ c.rax + 64 * r + 64 ≤ x
            omega
          rw [vecAt_congr hkeep, vecAt_putVec]
        · exact hslots q hq
      · intro x hx
        have hrest := hoff x fun r hr => hx r (List.mem_cons_of_mem z hr)
        rw [hrest]
        exact putVec_of_apart _ _ (hx z List.mem_cons_self)

theorem run_storeMask (k : K) (c : Cpu) :
    runAsm (storeMask k) c =
      some (Cpu.withRam { c with machine := c.machine.setGpr .rcx (c.k k).toNat }
        (putWord c.machine.ram (c.rax + (kncVpuKOffset + 2 * k)) (c.k k))) := by
  rw [storeMask, runAsm, exec_kmovR32K]
  show some (Cpu.withRam _ (putWord _ _ (BitVec.ofNat 16 (c.k k).toNat))) = _
  rw [BitVec.ofNat_toNat, BitVec.setWidth_eq]
  rfl

/-- Every mask register in its place. -/
theorem run_storeMasks {ks : List K} (hn : ks.Nodup) (c : Cpu) :
    ∃ c', runAsm (ks.flatMap storeMask) c = some c' ∧ c'.vpu = c.vpu ∧ c'.rax = c.rax ∧
      (∀ k ∈ ks, wordAt c'.machine.ram (c.rax + (kncVpuKOffset + 2 * k)) = c.k k) ∧
      ∀ x, OffMasks c.rax ks x → c'.machine.ram x = c.machine.ram x := by
  induction ks generalizing c with
  | nil => exact ⟨c, rfl, rfl, rfl, by simp, fun _ _ => rfl⟩
  | cons k ks ih =>
      obtain ⟨hk, hn⟩ := List.nodup_cons.1 hn
      obtain ⟨c', hrun, hvpu, hrax, hwords, hoff⟩ :=
        ih hn (Cpu.withRam { c with machine := c.machine.setGpr .rcx (c.k k).toNat }
          (putWord c.machine.ram (c.rax + (kncVpuKOffset + 2 * k)) (c.k k)))
      refine ⟨c', ?_, hvpu, hrax, ?_, ?_⟩
      · rw [List.flatMap_cons, runAsm_append, run_storeMask]
        exact hrun
      · intro q hq
        rcases List.mem_cons.1 hq with rfl | hq
        · have hkeep : ∀ x, c.rax + (kncVpuKOffset + 2 * q) ≤ x →
              x < c.rax + (kncVpuKOffset + 2 * q) + 2 → c'.machine.ram x =
                putWord c.machine.ram (c.rax + (kncVpuKOffset + 2 * q)) (c.k q) x := by
            intro x hx hx'
            refine hoff x fun r hr => ?_
            have hne : (r : Nat) ≠ q := fun he => hk (Fin.ext he ▸ hr)
            show x < c.rax + (kncVpuKOffset + 2 * r) ∨ c.rax + (kncVpuKOffset + 2 * r) + 2 ≤ x
            omega
          rw [wordAt_congr hkeep, wordAt_putWord]
        · exact hwords q hq
      · intro x hx
        have hrest := hoff x fun r hr => hx r (List.mem_cons_of_mem k hr)
        rw [hrest]
        exact putWord_of_apart (hx k List.mem_cons_self)

/-- The registers loaded from their slots. -/
theorem run_loads (zs : List Zmm) (c : Cpu) (h : c.rax % 64 = 0) :
    ∃ c', runAsm (zs.map loadLine) c = some c' ∧ c'.k = c.k ∧ c'.rax = c.rax ∧
      c'.machine.ram = c.machine.ram ∧
      (∀ z ∈ zs, c'.machine.zmm z = vecAt c.machine.ram (c.rax + 64 * z)) ∧
      ∀ z ∉ zs, c'.machine.zmm z = c.machine.zmm z := by
  induction zs generalizing c with
  | nil => exact ⟨c, rfl, rfl, rfl, rfl, by simp, fun _ _ => rfl⟩
  | cons z zs ih =>
      obtain ⟨c', hrun, hk, hrax, hram, hin, hout⟩ :=
        ih { c with machine := c.machine.setZmm z (vecAt c.machine.ram (c.rax + 64 * z)) } h
      refine ⟨c', ?_, hk, hrax, hram, ?_, ?_⟩
      · rw [List.map_cons, runAsm, exec_loadLine z h]
        exact hrun
      · intro q hq
        by_cases hqz : q ∈ zs
        · exact hin q hqz
        · have hself : q = z := (List.mem_cons.1 hq).resolve_right hqz
          subst hself
          rw [hout q hqz]
          exact c.machine.setZmm_self q _
      · intro q hq
        rw [hout q fun hqz => hq (List.mem_cons_of_mem z hqz)]
        exact c.machine.setZmm_of_ne _ fun he => hq (he ▸ List.mem_cons_self)

theorem run_loadMask (k : K) (c : Cpu) :
    ∃ c', runAsm (loadMask k) c = some c' ∧ c'.machine.zmm = c.machine.zmm ∧ c'.rax = c.rax ∧
      c'.machine.ram = c.machine.ram ∧
      c'.k = fun q => if q = k then wordAt c.machine.ram (c.rax + (kncVpuKOffset + 2 * k))
        else c.k q := by
  let w := wordAt c.machine.ram (c.rax + (kncVpuKOffset + 2 * k))
  let c1 : Cpu := { c with machine := c.machine.setGpr .rcx w.toNat }
  have hrun : runAsm (loadMask k) c =
      some { c1 with k := fun q => if q = k then BitVec.ofNat 16 w.toNat else c1.k q } := by
    show (AsmLine.exec (.bytes _) c1 >>= runAsm []) = _
    rw [exec_kmovKR32]
    rfl
  rw [BitVec.ofNat_toNat, BitVec.setWidth_eq] at hrun
  exact ⟨_, hrun, rfl, rfl, rfl, rfl⟩

/-- The mask registers loaded. -/
theorem run_loadMasks (ks : List K) (c : Cpu) :
    ∃ c', runAsm (ks.flatMap loadMask) c = some c' ∧ c'.machine.zmm = c.machine.zmm ∧
      c'.rax = c.rax ∧ c'.machine.ram = c.machine.ram ∧
      (∀ k ∈ ks, c'.k k = wordAt c.machine.ram (c.rax + (kncVpuKOffset + 2 * k))) ∧
      ∀ k ∉ ks, c'.k k = c.k k := by
  induction ks generalizing c with
  | nil => exact ⟨c, rfl, rfl, rfl, rfl, by simp, fun _ _ => rfl⟩
  | cons k ks ih =>
      obtain ⟨c1, hrun1, hz1, hrax1, hram1, hk1⟩ := run_loadMask k c
      obtain ⟨c', hrun, hz, hrax, hram, hin, hout⟩ := ih c1
      refine ⟨c', ?_, hz.trans hz1, hrax.trans hrax1, hram.trans hram1, ?_, ?_⟩
      · rw [List.flatMap_cons, runAsm_append, hrun1]
        exact hrun
      · intro q hq
        by_cases hqk : q ∈ ks
        · rw [hin q hqk, hram1, hrax1]
        · have hself : q = k := (List.mem_cons.1 hq).resolve_right hqk
          subst hself
          rw [hout q hqk, hk1]
          exact if_pos rfl
      · intro q hq
        rw [hout q fun hqk => hq (List.mem_cons_of_mem k hqk), hk1]
        exact if_neg fun he : q = k => hq (he ▸ List.mem_cons_self)

/-- The area at `a` holds the vector unit's contents. -/
structure Holds (ram : Ram) (a : Nat) (v : Vpu) : Prop where
  zmm : ∀ z : Zmm, vecAt ram (a + 64 * z) = v.zmm z
  k : ∀ k : K, wordAt ram (a + (kncVpuKOffset + 2 * k)) = v.k k

/-- What lies outside the area does not matter to it. -/
theorem Holds.congr {ram ram' : Ram} {a : Nat} {v : Vpu} (h : Holds ram a v)
    (hsame : ∀ x, a ≤ x → x < a + kncVpuStateSize → ram' x = ram x) : Holds ram' a v where
  zmm z := by
    have hz := z.isLt
    rw [← h.zmm z]
    exact vecAt_congr fun x hx hx' => hsame x (by omega) (by unfold kncVpuStateSize; omega)
  k k := by
    have hk := k.isLt
    rw [← h.k k]
    exact wordAt_congr fun x hx hx' => hsame x (by omega)
      (by unfold kncVpuStateSize; unfold kncVpuKOffset at hx'; omega)

/-- The save completes, keeps the registers, fills the area, and writes nothing
outside it. -/
theorem save_spec (c : Cpu) (h : c.rax % 64 = 0) :
    ∃ c', runAsm kncVpuSave c = some c' ∧ c'.vpu = c.vpu ∧ Holds c'.machine.ram c.rax c.vpu ∧
      ∀ x, x < c.rax ∨ c.rax + kncVpuStateSize ≤ x → c'.machine.ram x = c.machine.ram x := by
  obtain ⟨ram, hrun, hslots, hoff⟩ := run_stores (List.nodup_finRange 32) c h
  obtain ⟨c', hrun', hvpu, -, hwords, hoff'⟩ :=
    run_storeMasks (List.nodup_finRange 8) (c.withRam ram)
  refine ⟨c', ?_, hvpu, ⟨fun z => ?_, fun k => hwords k (List.mem_finRange k)⟩, ?_⟩
  · rw [kncVpuSave_eq, runAsm_append, hrun, Option.bind_eq_bind, Option.bind_some, hrun']
  · have hz := z.isLt
    have hslot : vecAt ram (c.rax + 64 * z) = c.vpu.zmm z := hslots z (List.mem_finRange z)
    rw [← hslot]
    refine vecAt_congr fun x hx hx' => hoff' x fun k _ => .inl ?_
    show x < c.rax + (kncVpuKOffset + 2 * k)
    unfold kncVpuKOffset
    omega
  · intro x hx
    unfold kncVpuStateSize at hx
    rw [hoff' x fun k _ => ?_]
    · refine hoff x fun z _ => ?_
      have hz := z.isLt
      omega
    · have hk := k.isLt
      show x < c.rax + (kncVpuKOffset + 2 * k) ∨ c.rax + (kncVpuKOffset + 2 * k) + 2 ≤ x
      unfold kncVpuKOffset
      omega

/-- The restore completes, loads what the area holds, and writes no memory. -/
theorem restore_spec {v : Vpu} (c : Cpu) (h : c.rax % 64 = 0) (hv : Holds c.machine.ram c.rax v) :
    ∃ c', runAsm kncVpuRestore c = some c' ∧ c'.vpu = v ∧ c'.machine.ram = c.machine.ram := by
  obtain ⟨c1, hrun1, hk1, hrax1, hram1, hin1, -⟩ := run_loads (List.finRange 32) c h
  obtain ⟨c', hrun, hz, -, hram, hin, -⟩ := run_loadMasks (List.finRange 8) c1
  refine ⟨c', ?_, ?_, hram.trans hram1⟩
  · rw [kncVpuRestore_eq, runAsm_append, hrun1, Option.bind_eq_bind, Option.bind_some, hrun]
  · have hzmm : c'.machine.zmm = v.zmm := funext fun z => by
      rw [hz, hin1 z (List.mem_finRange z), hv.zmm]
    have hk : c'.k = v.k := funext fun k => by
      rw [hin k (List.mem_finRange k), hram1, hrax1, hv.k]
    show Vpu.mk _ _ = v
    rw [hzmm, hk]

end Phi.Mvex
