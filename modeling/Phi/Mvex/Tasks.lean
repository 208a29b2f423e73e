import Mathlib.Logic.Function.Basic
import Phi.Lib.Run
import Phi.Mvex.Switch

/-!
# Phi.Mvex.Tasks

Tasks that share the vector unit (`save_fpregs_to_fpstate` and
`restore_fpregs_from_fpstate`, patches 0018 and 0024).

The tasks run on any number of processors, one on each.  A task that leaves has
its registers saved into its `fpstate`, behind the image of FXSAVE, which
stores no vector register; a task that enters has them loaded after FXRSTOR,
which clears a part of each.  `vector_unit_kept`: a task always finds what it
last left in the vector unit.
-/

namespace Phi.Mvex

def kncVpuStateOffset : Nat := 512
def kncVpuSigOffset : Nat := kncVpuStateOffset + kncVpuStateSize
def kncFpstateSize : Nat := kncVpuSigOffset + kncVpuStateSize

/-- The `regs` of the tasks' fpstates. -/
structure Fpstates (ι : Type) where
  regs : ι → Nat
  aligned : ∀ i, regs i % 64 = 0
  apart : ∀ i j, i ≠ j → regs i + kncFpstateSize ≤ regs j ∨ regs j + kncFpstateSize ≤ regs i

/-! ## the code -/

/-- FXSAVE: an image of 512 bytes, in which there is no vector register. -/
def fxsave (image : Nat → UInt8) (fx : Nat) (ram : Ram) : Ram := fun x =>
  if fx ≤ x ∧ x < fx + 512 then image (x - fx) else ram x

/-- `fxrstor` with the bit it forces, which is bit 21 of the MXCSR at 24; the
instruction clears bits 0 to 127 of every vector register. -/
def fxrstor (fx : Nat) (c : Cpu) : Cpu :=
  { c with
    machine := { c.machine with
      zmm := fun z l => if (l : Nat) < 4 then 0 else c.machine.zmm z l
      ram := fun x => if x = fx + 26 then c.machine.ram x ||| 0x20 else c.machine.ram x } }

def Cpu.withRax (c : Cpu) (a : Nat) : Cpu := { c with machine := c.machine.setGpr .rax a }

section code

variable {ι : Type} (F : Fpstates ι)

/-- Where a task's vector state is kept. -/
def Fpstates.area (i : ι) : Nat := F.regs i + kncVpuStateOffset

/-- `save_fpregs_to_fpstate`. -/
def saveFpregsToFpstate (i : ι) (image : Nat → UInt8) (c : Cpu) : Option Cpu :=
  runAsm kncVpuSave ((c.withRam (fxsave image (F.regs i) c.machine.ram)).withRax (F.area i))

/-- `restore_fpregs_from_fpstate`. -/
def restoreFpregsFromFpstate (i : ι) (c : Cpu) : Option Cpu :=
  runAsm kncVpuRestore ((fxrstor (F.regs i) c).withRax (F.area i))

/-- The contents that an area has. -/
def vpuAt (ram : Ram) (a : Nat) : Vpu where
  zmm z := vecAt ram (a + 64 * z)
  k k := wordAt ram (a + (kncVpuKOffset + 2 * k))

/-- Nothing but a task's own image and vector state was written. -/
def OnlyOwn (i : ι) (ram ram' : Ram) : Prop :=
  ∀ x, x < F.regs i ∨ F.regs i + kncVpuSigOffset ≤ x → ram' x = ram x

/-- The fpstates are as they were. -/
def Fpstates.Kept (ram ram' : Ram) : Prop :=
  ∀ i x, F.regs i ≤ x → x < F.regs i + kncFpstateSize → ram' x = ram x

/-! ## the switch code -/

theorem area_aligned (i : ι) : F.area i % 64 = 0 := by
  have h := F.aligned i
  unfold Fpstates.area kncVpuStateOffset
  omega

/-- The save. -/
theorem save_task (i : ι) (image : Nat → UInt8) (c : Cpu) :
    ∃ c', saveFpregsToFpstate F i image c = some c' ∧ c'.vpu = c.vpu ∧
      Holds c'.machine.ram (F.area i) c.vpu ∧ OnlyOwn F i c.machine.ram c'.machine.ram := by
  obtain ⟨c', hrun, hvpu, hholds, hoff⟩ :=
    save_spec ((c.withRam (fxsave image (F.regs i) c.machine.ram)).withRax (F.area i))
      (area_aligned F i)
  refine ⟨c', hrun, hvpu, hholds, fun x hx => ?_⟩
  have harea : x < F.area i ∨ F.area i + kncVpuStateSize ≤ x := by
    unfold Fpstates.area kncVpuStateOffset
    unfold kncVpuSigOffset kncVpuStateOffset at hx
    omega
  refine (hoff x harea).trans (if_neg ?_)
  unfold kncVpuSigOffset kncVpuStateOffset at hx
  omega

/-- The restore. -/
theorem restore_task (i : ι) (c : Cpu) {v : Vpu} (hv : Holds c.machine.ram (F.area i) v) :
    ∃ c', restoreFpregsFromFpstate F i c = some c' ∧ c'.vpu = v ∧
      OnlyOwn F i c.machine.ram c'.machine.ram := by
  have himage : ∀ x, x ≠ F.regs i + 26 →
      (fxrstor (F.regs i) c).machine.ram x = c.machine.ram x := fun x hx => if_neg hx
  have hheld : Holds (fxrstor (F.regs i) c).machine.ram (F.area i) v :=
    hv.congr fun x hx _ => himage x (by
      unfold Fpstates.area kncVpuStateOffset at hx
      omega)
  obtain ⟨c', hrun, hvpu, hram⟩ :=
    restore_spec ((fxrstor (F.regs i) c).withRax (F.area i)) (area_aligned F i) hheld
  refine ⟨c', hrun, hvpu, fun x hx => ?_⟩
  rw [hram]
  refine himage x ?_
  unfold kncVpuSigOffset kncVpuStateOffset at hx
  omega

/-- An area that no other task wrote to. -/
theorem Holds.of_own {F : Fpstates ι} {i j : ι} (hij : i ≠ j) {ram ram' : Ram} {v : Vpu}
    (h : Holds ram (F.area j) v) (hown : OnlyOwn F i ram ram') : Holds ram' (F.area j) v := by
  refine h.congr fun x hx hx' => hown x ?_
  have hapart := F.apart i j hij
  unfold Fpstates.area kncVpuStateOffset at hx hx'
  unfold kncFpstateSize kncVpuSigOffset kncVpuStateOffset at hapart
  unfold kncVpuSigOffset kncVpuStateOffset
  omega

/-- An area in memory that keeps the fpstates. -/
theorem Holds.of_kept {F : Fpstates ι} {i : ι} {ram ram' : Ram} {v : Vpu}
    (h : Holds ram (F.area i) v) (hkept : F.Kept ram ram') : Holds ram' (F.area i) v := by
  refine h.congr fun x hx hx' => hkept i x ?_ ?_
  · exact Nat.le_trans (Nat.le_add_right _ _) hx
  · unfold Fpstates.area at hx'
    unfold kncFpstateSize kncVpuSigOffset
    omega

end code

/-! ## the tasks -/

/-- The processors' registers, the memory, and the task whose contents a
processor's vector unit has. -/
structure Sys (γ ι : Type) where
  vpu : γ → Vpu
  gpr : γ → Gpr → Nat
  ram : Ram
  live : γ → Option ι

def Sys.cpu {γ ι : Type} (s : Sys γ ι) (c : γ) : Cpu :=
  ⟨⟨s.gpr c, (s.vpu c).zmm, s.ram⟩, (s.vpu c).k⟩

inductive Event (γ ι : Type) where
  /-- vector instructions of a task, and what they leave -/
  | work (c : γ) (i : ι) (v : Vpu)
  | leave (c : γ) (i : ι)
  | enter (c : γ) (i : ι)
  /-- the kernel, between two tasks -/
  | between (c : γ)

section tasks

variable {γ ι : Type} [DecidableEq γ] [DecidableEq ι] (F : Fpstates ι)

/-- A processor after the switch code. -/
def Sys.put (s : Sys γ ι) (c : γ) (cpu : Cpu) (i : Option ι) : Sys γ ι where
  vpu := Function.update s.vpu c cpu.vpu
  gpr := Function.update s.gpr c cpu.machine.gpr
  ram := cpu.machine.ram
  live := Function.update s.live c i

inductive Step : Sys γ ι → Event γ ι → Sys γ ι → Prop where
  | work {s c i} (v : Vpu) (gpr : Gpr → Nat) (ram : Ram) : s.live c = some i →
      F.Kept s.ram ram →
      Step s (.work c i v)
        { s with vpu := Function.update s.vpu c v, gpr := Function.update s.gpr c gpr, ram := ram }
  | leave {s c i} (image : Nat → UInt8) (cpu : Cpu) : s.live c = some i →
      saveFpregsToFpstate F i image (s.cpu c) = some cpu →
      Step s (.leave c i) (s.put c cpu none)
  | enter {s c i} (cpu : Cpu) : s.live c = none → (∀ d, s.live d ≠ some i) →
      restoreFpregsFromFpstate F i (s.cpu c) = some cpu →
      Step s (.enter c i) (s.put c cpu (some i))
  | between {s c} (v : Vpu) (gpr : Gpr → Nat) (ram : Ram) : s.live c = none →
      F.Kept s.ram ram →
      Step s (.between c)
        { s with vpu := Function.update s.vpu c v, gpr := Function.update s.gpr c gpr, ram := ram }

/-- What the tasks have left in the vector unit. -/
def left (v : ι → Vpu) : Event γ ι → ι → Vpu
  | .work _ i w => Function.update v i w
  | _ => v

/-- The vector unit and the switches, where `v` was left. -/
structure SwitchRight (s : Sys γ ι) (v : ι → Vpu) : Prop where
  finds : ∀ c i, s.live c = some i → s.vpu c = v i
  leaves : ∀ c i image, s.live c = some i →
    ∃ cpu, saveFpregsToFpstate F i image (s.cpu c) = some cpu ∧
      OnlyOwn F i s.ram cpu.machine.ram
  enters : ∀ c i, s.live c = none → (∀ d, s.live d ≠ some i) →
    ∃ cpu, restoreFpregsFromFpstate F i (s.cpu c) = some cpu ∧ cpu.vpu = v i ∧
      OnlyOwn F i s.ram cpu.machine.ram

/-! ## every run -/

/-- A task is on one processor at most; what it left is in that vector unit or in
its area. -/
structure Kept (s : Sys γ ι) (v : ι → Vpu) : Prop where
  alone : ∀ c d i, s.live c = some i → s.live d = some i → c = d
  live : ∀ c i, s.live c = some i → s.vpu c = v i
  saved : ∀ i, (∀ c, s.live c ≠ some i) → Holds s.ram (F.area i) (v i)

variable {F} {s t : Sys γ ι} {v : ι → Vpu} {e : Event γ ι}

theorem Kept.step (h : Kept F s v) (hs : Step F s e t) : Kept F t (left v e) := by
  cases hs with
  | @work c i w gpr ram hc hkept =>
      constructor
      · exact h.alone
      · intro d j hd
        by_cases hdc : d = c
        · subst hdc
          have hji : j = i := Option.some.inj (hd.symm.trans hc)
          subst hji
          show Function.update s.vpu d w d = Function.update v j w j
          rw [Function.update_self, Function.update_self]
        · have hji : j ≠ i := fun he => hdc (h.alone d c i (he ▸ hd) hc)
          show Function.update s.vpu c w d = Function.update v i w j
          rw [Function.update_of_ne hdc, Function.update_of_ne hji]
          exact h.live d j hd
      · intro j hj
        have hji : j ≠ i := fun he => hj c (he ▸ hc)
        show Holds ram (F.area j) (Function.update v i w j)
        rw [Function.update_of_ne hji]
        exact (h.saved j hj).of_kept hkept
  | @leave c i image cpu hc hsave =>
      obtain ⟨cpu', hrun, -, hholds, hown⟩ := save_task F i image (s.cpu c)
      obtain rfl : cpu = cpu' := Option.some.inj (hsave.symm.trans hrun)
      have hlive : ∀ d j, (s.put c cpu none).live d = some j → d ≠ c ∧ s.live d = some j := by
        intro d j hd
        have hd' : Function.update s.live c none d = some j := hd
        by_cases hdc : d = c
        · subst hdc
          rw [Function.update_self] at hd'
          cases hd'
        · rw [Function.update_of_ne hdc] at hd'
          exact ⟨hdc, hd'⟩
      constructor
      · intro d d' j hd hd'
        exact h.alone d d' j (hlive d j hd).2 (hlive d' j hd').2
      · intro d j hd
        obtain ⟨hdc, hd⟩ := hlive d j hd
        show Function.update s.vpu c cpu.vpu d = v j
        rw [Function.update_of_ne hdc]
        exact h.live d j hd
      · intro j hj
        show Holds cpu.machine.ram (F.area j) (v j)
        by_cases hji : j = i
        · subst hji
          rw [← h.live c j hc]
          exact hholds
        · have hout : ∀ d, s.live d ≠ some j := fun d hd => by
            have hdc : d ≠ c := fun he => hji (Option.some.inj ((he ▸ hd).symm.trans hc))
            refine hj d ?_
            show Function.update s.live c none d = some j
            rw [Function.update_of_ne hdc]
            exact hd
          exact (h.saved j hout).of_own (Ne.symm hji) hown
  | @enter c i cpu hc hout hrestore =>
      obtain ⟨cpu', hrun, hvpu, hown⟩ := restore_task F i (s.cpu c) (h.saved i hout)
      obtain rfl : cpu = cpu' := Option.some.inj (hrestore.symm.trans hrun)
      have hlive : ∀ d j, (s.put c cpu (some i)).live d = some j →
          d = c ∧ j = i ∨ d ≠ c ∧ s.live d = some j := by
        intro d j hd
        have hd' : Function.update s.live c (some i) d = some j := hd
        by_cases hdc : d = c
        · subst hdc
          rw [Function.update_self] at hd'
          exact .inl ⟨rfl, (Option.some.inj hd').symm⟩
        · rw [Function.update_of_ne hdc] at hd'
          exact .inr ⟨hdc, hd'⟩
      constructor
      · intro d d' j hd hd'
        rcases hlive d j hd with ⟨rfl, rfl⟩ | ⟨-, hold⟩
        · rcases hlive d' j hd' with ⟨rfl, -⟩ | ⟨-, hold'⟩
          · rfl
          · exact absurd hold' (hout d')
        · rcases hlive d' j hd' with ⟨rfl, rfl⟩ | ⟨-, hold'⟩
          · exact absurd hold (hout d)
          · exact h.alone d d' j hold hold'
      · intro d j hd
        show Function.update s.vpu c cpu.vpu d = v j
        rcases hlive d j hd with ⟨rfl, rfl⟩ | ⟨hdc, hd⟩
        · rw [Function.update_self]
          exact hvpu
        · rw [Function.update_of_ne hdc]
          exact h.live d j hd
      · intro j hj
        have hji : j ≠ i := fun he => hj c (by
          show Function.update s.live c (some i) c = some j
          rw [Function.update_self, he])
        have hout' : ∀ d, s.live d ≠ some j := fun d hd => by
          have hdc : d ≠ c := by
            rintro rfl
            rw [hc] at hd
            cases hd
          refine hj d ?_
          show Function.update s.live c (some i) d = some j
          rw [Function.update_of_ne hdc]
          exact hd
        exact (h.saved j hout').of_own (Ne.symm hji) hown
  | @between c w gpr ram hc hkept =>
      constructor
      · exact h.alone
      · intro d j hd
        have hdc : d ≠ c := by
          rintro rfl
          rw [hc] at hd
          cases hd
        show Function.update s.vpu c w d = v j
        rw [Function.update_of_ne hdc]
        exact h.live d j hd
      · intro j hj
        exact (h.saved j hj).of_kept hkept

omit [DecidableEq γ] [DecidableEq ι] in
/-- What is kept is enough for the tasks and for the next switch. -/
theorem Kept.right (h : Kept F s v) : SwitchRight F s v where
  finds := h.live
  leaves c i image hc := by
    obtain ⟨cpu, hrun, -, -, hown⟩ := save_task F i image (s.cpu c)
    exact ⟨cpu, hrun, hown⟩
  enters c i hc hout := restore_task F i (s.cpu c) (h.saved i hout)

theorem Kept.run {es : List (Event γ ι)} (h : Kept F s v) (hr : Runs (Step F) s es t) :
    Kept F t (es.foldl left v) := by
  induction hr generalizing v with
  | nil => exact h
  | cons hstep _ ih => exact ih (h.step hstep)

/-- Over every run each task finds in the vector unit what it last left there, the
switch code completes, and it writes nothing but the task's own saved state. -/
theorem vector_unit_kept (F : Fpstates ι) {s t : Sys γ ι} {es : List (Event γ ι)}
    (hs : ∀ c, s.live c = none) (hr : Runs (Step F) s es t) :
    SwitchRight F t (es.foldl left fun i => vpuAt s.ram (F.area i)) := by
  have hnone : ∀ c i, s.live c ≠ some i := fun c i hc => by
    rw [hs c] at hc
    cases hc
  have hstart : Kept F s fun i => vpuAt s.ram (F.area i) :=
    { alone := fun c _ i hc _ => absurd hc (hnone c i)
      live := fun c i hc => absurd hc (hnone c i)
      saved := fun _ _ => ⟨fun _ => rfl, fun _ => rfl⟩ }
  exact (hstart.run hr).right

/-- Two tasks, and a processor that neither has. -/
def twoTasks : Fpstates Bool where
  regs b := if b then 8192 else 0
  aligned := by decide
  apart := by decide

def idle (v : Vpu) : Sys Unit Bool := ⟨fun _ => v, fun _ _ => 0, fun _ => 7, fun _ => none⟩

theorem vector_unit_kept_switch :
    let v : Vpu := ⟨fun _ _ => 3, fun _ => 5⟩
    ∃ t, Runs (Step twoTasks) (idle v) [.enter () true, .work () true v, .leave () true] t ∧
      SwitchRight twoTasks t
        (Function.update (fun i => vpuAt (fun _ => 7) (twoTasks.area i)) true v) := by
  intro v
  have hidle : ∀ c, (idle v).live c = none := fun _ => rfl
  obtain ⟨cpu, hrun, -, -⟩ :=
    (vector_unit_kept twoTasks hidle (.nil (idle v))).enters () true rfl (by simp [idle])
  have henter := Step.enter (s := idle v) (c := ()) (i := true) cpu rfl (by simp [idle]) hrun
  have hlive : ((idle v).put () cpu (some true)).live () = some true := rfl
  have hwork := Step.work (F := twoTasks) v (fun _ => 0) cpu.machine.ram hlive fun _ _ _ _ => rfl
  obtain ⟨cpu', hrun', -⟩ :=
    (vector_unit_kept twoTasks hidle (.cons henter (.cons hwork (.nil _)))).leaves () true
      (fun _ => 9) hlive
  have hall := Runs.cons henter (.cons hwork (.cons (Step.leave _ cpu' hlive hrun') (.nil _)))
  exact ⟨_, hall, vector_unit_kept twoTasks hidle hall⟩

end tasks

end Phi.Mvex
