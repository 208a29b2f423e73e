import Phi.Mvex.Tasks

/-!
# Phi.Mvex.Signals

The vector unit across a signal handler (`copy_fpstate_to_sigframe` and
`restore_fpregs_from_user`, patch 0030).

The frame of a signal carries the image of FXSAVE only, so the registers are
kept in a second area of the task's fpstate.  There is one to a task and not one
to a frame.  `handler_transparent`: whatever the handlers did with the vector
unit, and wherever the task was moved to, a return finds the registers of the
task's last delivery.
-/

namespace Phi.Mvex

/-! ## the code -/

/-- FXRSTOR from a frame of the user, in which the bit of patch 0018 is not forced. -/
def fxrstorUser (c : Cpu) : Cpu :=
  { c with
    machine := { c.machine with
      zmm := fun z l => if (l : Nat) < 4 then 0 else c.machine.zmm z l } }

section code

variable {ι : Type} (F : Fpstates ι)

/-- Where a task's vector state is kept for its handler's return. -/
def Fpstates.sigArea (i : ι) : Nat := F.regs i + kncVpuSigOffset

/-- `copy_fpstate_to_sigframe`, with the registers live. -/
def copyFpstateToSigframe (i : ι) (c : Cpu) : Option Cpu :=
  runAsm kncVpuSave (c.withRax (F.sigArea i))

/-- `restore_fpregs_from_user`, from a frame that can be read. -/
def restoreFpregsFromUser (i : ι) (c : Cpu) : Option Cpu :=
  runAsm kncVpuRestore ((fxrstorUser c).withRax (F.sigArea i))

/-- Nothing but a task's second area was written. -/
def OnlySig (i : ι) (ram ram' : Ram) : Prop :=
  ∀ x, x < F.sigArea i ∨ F.sigArea i + kncVpuStateSize ≤ x → ram' x = ram x

theorem sigArea_aligned (i : ι) : F.sigArea i % 64 = 0 := by
  have h := F.aligned i
  unfold Fpstates.sigArea kncVpuSigOffset kncVpuStateOffset kncVpuStateSize
  omega

/-- The copy that a delivery makes. -/
theorem copy_task (i : ι) (c : Cpu) :
    ∃ c', copyFpstateToSigframe F i c = some c' ∧ c'.vpu = c.vpu ∧
      Holds c'.machine.ram (F.sigArea i) c.vpu ∧ OnlySig F i c.machine.ram c'.machine.ram :=
  save_spec (c.withRax (F.sigArea i)) (sigArea_aligned F i)

/-- The return loads what was copied, whatever FXRSTOR cleared. -/
theorem return_task (i : ι) (c : Cpu) {v : Vpu} (hv : Holds c.machine.ram (F.sigArea i) v) :
    ∃ c', restoreFpregsFromUser F i c = some c' ∧ c'.vpu = v ∧
      c'.machine.ram = c.machine.ram :=
  restore_spec ((fxrstorUser c).withRax (F.sigArea i)) (sigArea_aligned F i) hv

variable {F} {i j : ι} {ram ram' : Ram} {v : Vpu}

/-- A delivery leaves every first area alone. -/
theorem Holds.area_of_sig (h : Holds ram (F.area j) v) (hsig : OnlySig F i ram ram') :
    Holds ram' (F.area j) v := by
  refine h.congr fun x hx hx' => hsig x ?_
  unfold Fpstates.area at hx hx'
  unfold Fpstates.sigArea kncVpuSigOffset
  by_cases hij : i = j
  · subst hij
    omega
  · have hapart := F.apart i j hij
    unfold kncFpstateSize kncVpuSigOffset at hapart
    omega

/-- And the second areas of the other tasks. -/
theorem Holds.sig_of_sig (hij : i ≠ j) (h : Holds ram (F.sigArea j) v)
    (hsig : OnlySig F i ram ram') : Holds ram' (F.sigArea j) v := by
  refine h.congr fun x hx hx' => hsig x ?_
  have hapart := F.apart i j hij
  unfold kncFpstateSize at hapart
  unfold Fpstates.sigArea at hx hx' ⊢
  omega

/-- The switch code leaves every second area alone. -/
theorem Holds.sig_of_own (h : Holds ram (F.sigArea j) v) (hown : OnlyOwn F i ram ram') :
    Holds ram' (F.sigArea j) v := by
  refine h.congr fun x hx hx' => hown x ?_
  unfold Fpstates.sigArea at hx hx'
  by_cases hij : i = j
  · subst hij
    omega
  · have hapart := F.apart i j hij
    unfold kncFpstateSize at hapart
    omega

theorem Holds.sig_of_kept (h : Holds ram (F.sigArea i) v) (hkept : F.Kept ram ram') :
    Holds ram' (F.sigArea i) v := by
  refine h.congr fun x hx hx' => hkept i x ?_ ?_
  · exact Nat.le_trans (Nat.le_add_right _ _) hx
  · unfold Fpstates.sigArea at hx'
    unfold kncFpstateSize
    omega

end code

/-! ## the tasks and their handlers -/

inductive SigEvent (γ ι : Type) where
  | switch (e : Event γ ι)
  /-- a handler of the task starts, with `w` in the vector unit -/
  | deliver (c : γ) (i : ι) (w : Vpu)
  | sigreturn (c : γ) (i : ι)

section tasks

variable {γ ι : Type} [DecidableEq γ] [DecidableEq ι] (F : Fpstates ι)

omit [DecidableEq γ] [DecidableEq ι] in
/-- The task runs on the processor, its registers loaded or not (`TIF_NEED_FPU_LOAD`). -/
def Sys.Current (s : Sys γ ι) (c : γ) (i : ι) : Prop :=
  (s.live c = none ∨ s.live c = some i) ∧ ∀ d, s.live d = some i → d = c

inductive SigStep : Sys γ ι → SigEvent γ ι → Sys γ ι → Prop where
  | switch {s t e} : Step F s e t → SigStep s (.switch e) t
  | deliver {s c i} (cpu : Cpu) (w : Vpu) (gpr : Gpr → Nat) (ram : Ram) : s.live c = some i →
      copyFpstateToSigframe F i (s.cpu c) = some cpu → F.Kept cpu.machine.ram ram →
      SigStep s (.deliver c i w)
        { s with vpu := Function.update s.vpu c w, gpr := Function.update s.gpr c gpr, ram := ram }
  | sigreturn {s c i} (cpu : Cpu) : s.Current c i →
      restoreFpregsFromUser F i (s.cpu c) = some cpu →
      SigStep s (.sigreturn c i) (s.put c cpu (some i))

/-- What the tasks have left in the vector unit, and what is kept for their returns. -/
structure Lefts (ι : Type) where
  v : ι → Vpu
  kept : ι → Vpu

def sigLeft (l : Lefts ι) : SigEvent γ ι → Lefts ι
  | .switch e => { l with v := left l.v e }
  | .deliver _ i w => ⟨Function.update l.v i w, Function.update l.kept i (l.v i)⟩
  | .sigreturn _ i => { l with v := Function.update l.v i (l.kept i) }

/-- The vector unit, the switches and the handlers, where `l` was left. -/
structure SignalsRight (s : Sys γ ι) (l : Lefts ι) : Prop where
  switches : SwitchRight F s l.v
  delivers : ∀ c i, s.live c = some i →
    ∃ cpu, copyFpstateToSigframe F i (s.cpu c) = some cpu ∧ OnlySig F i s.ram cpu.machine.ram
  returns : ∀ c i, s.Current c i →
    ∃ cpu, restoreFpregsFromUser F i (s.cpu c) = some cpu ∧ cpu.vpu = l.kept i ∧
      cpu.machine.ram = s.ram

/-! ## every run -/

structure SigKept (s : Sys γ ι) (l : Lefts ι) : Prop where
  tasks : Kept F s l.v
  held : ∀ i, Holds s.ram (F.sigArea i) (l.kept i)

variable {F} {s t : Sys γ ι} {v : ι → Vpu} {l : Lefts ι} {c : γ} {i : ι} {e : SigEvent γ ι}

/-- A task that gets its registers from elsewhere than its first area. -/
theorem Kept.load {cpu : Cpu} (h : Kept F s v) (hcur : s.Current c i)
    (hram : cpu.machine.ram = s.ram) :
    Kept F (s.put c cpu (some i)) (Function.update v i cpu.vpu) := by
  obtain ⟨hc, hout⟩ := hcur
  have hlive : ∀ d j, (s.put c cpu (some i)).live d = some j →
      d = c ∧ j = i ∨ d ≠ c ∧ j ≠ i ∧ s.live d = some j := by
    intro d j hd
    have hd' : Function.update s.live c (some i) d = some j := hd
    by_cases hdc : d = c
    · subst hdc
      rw [Function.update_self] at hd'
      exact .inl ⟨rfl, (Option.some.inj hd').symm⟩
    · rw [Function.update_of_ne hdc] at hd'
      exact .inr ⟨hdc, fun hji => hdc (hout d (hji ▸ hd')), hd'⟩
  constructor
  · intro d d' j hd hd'
    rcases hlive d j hd with ⟨rfl, rfl⟩ | ⟨-, hji, hold⟩
    · rcases hlive d' j hd' with ⟨rfl, -⟩ | ⟨-, hji, -⟩
      · rfl
      · exact absurd rfl hji
    · rcases hlive d' j hd' with ⟨rfl, rfl⟩ | ⟨-, -, hold'⟩
      · exact absurd rfl hji
      · exact h.alone d d' j hold hold'
  · intro d j hd
    show Function.update s.vpu c cpu.vpu d = Function.update v i cpu.vpu j
    rcases hlive d j hd with ⟨rfl, rfl⟩ | ⟨hdc, hji, hold⟩
    · rw [Function.update_self, Function.update_self]
    · rw [Function.update_of_ne hdc, Function.update_of_ne hji]
      exact h.live d j hold
  · intro j hj
    have hji : j ≠ i := fun he => hj c (by
      show Function.update s.live c (some i) c = some j
      rw [Function.update_self, he])
    have hjout : ∀ d, s.live d ≠ some j := fun d hd => by
      have hdc : d ≠ c := by
        rintro rfl
        rcases hc with hc | hc
        · rw [hc] at hd
          cases hd
        · exact hji (Option.some.inj (hd.symm.trans hc))
      refine hj d ?_
      show Function.update s.live c (some i) d = some j
      rw [Function.update_of_ne hdc]
      exact hd
    show Holds cpu.machine.ram (F.area j) (Function.update v i cpu.vpu j)
    rw [Function.update_of_ne hji, hram]
    exact h.saved j hjout

omit [DecidableEq ι] in
/-- A switch keeps the second areas. -/
theorem held_switch {e : Event γ ι} {w : Vpu} (hs : Step F s e t)
    (h : Holds s.ram (F.sigArea i) w) : Holds t.ram (F.sigArea i) w := by
  cases hs with
  | work _ _ _ _ hkept => exact h.sig_of_kept hkept
  | @leave c j image cpu hc hsave =>
      obtain ⟨cpu', hrun, -, -, hown⟩ := save_task F j image (s.cpu c)
      obtain rfl : cpu = cpu' := Option.some.inj (hsave.symm.trans hrun)
      exact h.sig_of_own hown
  | @enter c j cpu hc hout hrestore =>
      obtain ⟨cpu', hrun, -, hown⟩ :=
        restore_task F j (s.cpu c) (v := vpuAt s.ram (F.area j)) ⟨fun _ => rfl, fun _ => rfl⟩
      obtain rfl : cpu = cpu' := Option.some.inj (hrestore.symm.trans hrun)
      exact h.sig_of_own hown
  | between _ _ _ _ hkept => exact h.sig_of_kept hkept

theorem SigKept.step (h : SigKept F s l) (hs : SigStep F s e t) : SigKept F t (sigLeft l e) := by
  cases hs with
  | switch hstep => exact ⟨h.tasks.step hstep, fun j => held_switch hstep (h.held j)⟩
  | @deliver c i cpu w gpr ram hc hcopy hkept =>
      obtain ⟨cpu', hrun, -, hholds, hsig⟩ := copy_task F i (s.cpu c)
      obtain rfl : cpu = cpu' := Option.some.inj (hcopy.symm.trans hrun)
      have hcopied : Kept F { s with ram := cpu.machine.ram } l.v :=
        { alone := h.tasks.alone
          live := h.tasks.live
          saved := fun j hj => (h.tasks.saved j hj).area_of_sig hsig }
      -- the handler starts as one more piece of the task's work
      refine ⟨hcopied.step (.work w gpr ram hc hkept), fun j => ?_⟩
      show Holds ram (F.sigArea j) (Function.update l.kept i (l.v i) j)
      refine Holds.sig_of_kept ?_ hkept
      by_cases hji : j = i
      · subst hji
        rw [Function.update_self, ← h.tasks.live c j hc]
        exact hholds
      · rw [Function.update_of_ne hji]
        exact (h.held j).sig_of_sig (Ne.symm hji) hsig
  | @sigreturn c i cpu hcur hreturn =>
      obtain ⟨cpu', hrun, hvpu, hram⟩ := return_task F i (s.cpu c) (h.held i)
      obtain rfl : cpu = cpu' := Option.some.inj (hreturn.symm.trans hrun)
      constructor
      · show Kept F (s.put c cpu (some i)) (Function.update l.v i (l.kept i))
        rw [← hvpu]
        exact h.tasks.load hcur hram
      · intro j
        show Holds cpu.machine.ram (F.sigArea j) (l.kept j)
        rw [hram]
        exact h.held j

omit [DecidableEq γ] [DecidableEq ι] in
theorem SigKept.right (h : SigKept F s l) : SignalsRight F s l where
  switches := h.tasks.right
  delivers c i _ := by
    obtain ⟨cpu, hrun, -, -, hsig⟩ := copy_task F i (s.cpu c)
    exact ⟨cpu, hrun, hsig⟩
  returns c i _ := return_task F i (s.cpu c) (h.held i)

theorem SigKept.run {es : List (SigEvent γ ι)} (h : SigKept F s l)
    (hr : Runs (SigStep F) s es t) : SigKept F t (es.foldl sigLeft l) := by
  induction hr generalizing l with
  | nil => exact h
  | cons hstep _ ih => exact ih (h.step hstep)

/-- What memory has in the areas at the start. -/
def Fpstates.found (F : Fpstates ι) (ram : Ram) : Lefts ι :=
  ⟨fun i => vpuAt ram (F.area i), fun i => vpuAt ram (F.sigArea i)⟩

omit [DecidableEq γ] [DecidableEq ι] in
theorem SigKept.start (hs : ∀ c, s.live c = none) : SigKept F s (F.found s.ram) := by
  have hnone : ∀ c i, s.live c ≠ some i := fun c i hc => by
    rw [hs c] at hc
    cases hc
  exact
    { tasks :=
        { alone := fun c _ i hc _ => absurd hc (hnone c i)
          live := fun c i hc => absurd hc (hnone c i)
          saved := fun _ _ => ⟨fun _ => rfl, fun _ => rfl⟩ }
      held := fun _ => ⟨fun _ => rfl, fun _ => rfl⟩ }

end tasks

end Phi.Mvex
