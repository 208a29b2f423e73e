import Phi.Knc.Kernel
import Phi.Lib.Phases

/-!
# Phi.Knc.Steps

Runs of the kernels' lines, phase by phase.

A register pass is a phase of `Phi.Phases` over the registers, with the
pointers and the memory as its environment; a pass of stores writes lines of
memory that do not touch.
-/

namespace Phi.Knc

open Mvex Phases

/-! ## registers and addresses -/

theorem zmm_ne {a b : Nat} (ha : a < 32) (hb : b < 32) (h : a ≠ b) : zmm a ≠ zmm b := by
  intro hab
  have hval := congrArg Fin.val hab
  simp [zmm, Nat.mod_eq_of_lt ha, Nat.mod_eq_of_lt hb] at hval
  exact h hval

theorem address_mem (m : Machine) {base : Gpr} {disp : Nat} [Based base] (hdisp : disp < 2 ^ 31) :
    m.address (mem base disp).base (mem base disp).disp = m.gpr base + disp := by
  have hint : (BitVec.ofNat 32 disp).toInt = disp := by
    have hnat : (BitVec.ofNat 32 disp).toNat = disp := by
      rw [BitVec.toNat_ofNat]
      omega
    rw [BitVec.toInt_eq_toNat_of_lt (by omega), hnat]
  rw [Machine.address]
  show ((m.gpr base : Int) + (BitVec.ofNat 32 disp).toInt).toNat = _
  rw [hint]
  omega

section steps

variable (symbols : String → Nat)

/-! ## single lines -/

theorem run_append_of {xs ys : List Line} {m t u : Machine} (h : Mvex.run symbols xs m = some t)
    (h' : Mvex.run symbols ys t = some u) : Mvex.run symbols (xs ++ ys) m = some u := by
  rw [Mvex.run_append, h]
  exact h'

theorem run_single {line : Line} {m t : Machine} (h : line.exec symbols m = some t) :
    Mvex.run symbols [line] m = some t := by
  rw [Mvex.run, h]
  rfl

theorem exec_load (m : Machine) (r : Zmm) (base : Gpr) (disp : Nat) [Based base]
    (hdisp : disp < 2 ^ 31) (halign : (m.gpr base + disp) % 64 = 0) :
    (Line.bytes (vmovapsLoad r (mem base disp))).exec symbols m =
      some (m.setZmm r (vecAt m.ram (m.gpr base + disp))) := by
  rw [exec_vmovapsLoad, address_mem m hdisp, if_pos halign]

theorem exec_store (m : Machine) (r : Zmm) (base : Gpr) (disp : Nat) [Based base]
    (hdisp : disp < 2 ^ 31) (halign : (m.gpr base + disp) % 64 = 0) :
    (Line.bytes (vmovapsStore (mem base disp) r)).exec symbols m =
      some (m.store (m.gpr base + disp) (m.zmm r)) := by
  rw [exec_vmovapsStore, address_mem m hdisp, if_pos halign]

theorem exec_shiftRight (m : Machine) (dst src : Zmm) {n : Nat} (hn : n < 256) :
    (shiftRight dst src n).exec symbols m = some (m.setZmm dst fun l => m.zmm src l >>> n) := by
  rw [shiftRight, z, exec_vpsrld, UInt8.toNat_ofNat_of_lt' hn]

theorem exec_shiftLeft (m : Machine) (dst src : Zmm) {n : Nat} (hn : n < 256) :
    (shiftLeft dst src n).exec symbols m = some (m.setZmm dst fun l => m.zmm src l <<< n) := by
  rw [shiftLeft, z, exec_vpslld, UInt8.toNat_ofNat_of_lt' hn]

/-! ## passes -/

variable {ι : Type}

theorem run_flatMap (lines : ι → List Line) (ps : List ι) (m : Machine) :
    Mvex.run symbols (ps.flatMap lines) m =
      runAll (ps.map fun p => Mvex.run symbols (lines p)) m := by
  induction ps generalizing m with
  | nil => rfl
  | cons p ps ih =>
      rw [List.flatMap_cons, Mvex.run_append, List.map_cons, runAll_cons]
      exact congrArg _ (funext ih)

/-- A pass that writes a register for each `p` that it does not skip, reading
none that it writes for another. -/
theorem run_pass (lines : ι → List Line) (dst : ι → Zmm) (val : ι → Vec) (c : ι → Prop)
    [DecidablePred c] {ps : List ι} {m : Machine} (hnodup : ps.Nodup)
    (hskip : ∀ p ∈ ps, ¬ c p → lines p = [])
    (hdst : ∀ p ∈ ps, ∀ q ∈ ps, p ≠ q → dst p ≠ dst q)
    (hstep : ∀ p ∈ ps, c p → ∀ s : Machine, s.gpr = m.gpr → s.ram = m.ram →
      (∀ r, (∀ q ∈ ps, q ≠ p → r ≠ dst q) → s.zmm r = m.zmm r) →
        Mvex.run symbols (lines p) s = some (s.setZmm (dst p) (val p))) :
    ∃ t, Mvex.run symbols (ps.flatMap lines) m = some t ∧ t.gpr = m.gpr ∧ t.ram = m.ram ∧
      (∀ p ∈ ps, c p → t.zmm (dst p) = val p) ∧
      ∀ r, (∀ p ∈ ps, c p → r ≠ dst p) → t.zmm r = m.zmm r := by
  have hfilter : ps.flatMap lines = (ps.filter c).flatMap lines := by
    clear hnodup hdst hstep
    induction ps with
    | nil => rfl
    | cons p ps ih =>
        have hrest := ih fun q hq => hskip q (by simp [hq])
        by_cases hp : c p
        · simp [hp, hrest]
        · simp [hp, hrest, hskip p (by simp) hp]
  obtain ⟨t, hrun, ⟨henv, hsame⟩, hval⟩ := runAll_phase Machine.zmm
    (fun s : Machine => (s.gpr, s.ram)) dst (fun p => Mvex.run symbols (lines p)) val
    (hnodup.filter c)
    (fun p hp q hq => hdst p (List.mem_of_mem_filter hp) q (List.mem_of_mem_filter hq))
    (by
      intro p hp s (hs : Agrees _ _ _ m s _)
      obtain ⟨hps, hc⟩ := List.mem_filter.mp hp
      obtain ⟨hgpr, hram⟩ := Prod.mk.inj hs.1
      refine ⟨_, hstep p hps (by simpa using hc) s hgpr hram fun r hr => hs.2 r ?_, rfl,
        s.setZmm_self _ _, fun r hr => s.setZmm_of_ne _ hr⟩
      rintro q ⟨hq, hne⟩
      exact hr q (List.mem_of_mem_filter hq) hne)
  obtain ⟨hgpr, hram⟩ := Prod.mk.inj henv
  refine ⟨t, by rw [hfilter, run_flatMap, hrun], hgpr, hram,
    fun p hp hc => hval p (by simp [hp, hc]), fun r hr => hsame r fun p hp => ?_⟩
  obtain ⟨hps, hc⟩ := List.mem_filter.mp hp
  exact hr p hps (by simpa using hc)

/-- A pass of stores to lines of memory that do not touch. -/
theorem run_stores (lines : ι → List Line) (addr : ι → Nat) (src : ι → Zmm) {ps : List ι}
    {m : Machine} (hnodup : ps.Nodup)
    (haddr : ∀ p ∈ ps, ∀ q ∈ ps, p ≠ q → addr p + 64 ≤ addr q ∨ addr q + 64 ≤ addr p)
    (hstep : ∀ p ∈ ps, ∀ s : Machine, s.gpr = m.gpr →
      Mvex.run symbols (lines p) s = some (s.store (addr p) (s.zmm (src p)))) :
    ∃ t, Mvex.run symbols (ps.flatMap lines) m = some t ∧ t.gpr = m.gpr ∧ t.zmm = m.zmm ∧
      (∀ p ∈ ps, vecAt t.ram (addr p) = m.zmm (src p)) ∧
      ∀ x, (∀ p ∈ ps, x < addr p ∨ addr p + 64 ≤ x) → t.ram x = m.ram x := by
  induction ps generalizing m with
  | nil => exact ⟨m, rfl, rfl, rfl, by simp, by simp⟩
  | cons p ps ih =>
      obtain ⟨hp, hnodup⟩ := List.nodup_cons.mp hnodup
      have hfirst := hstep p (by simp) m rfl
      obtain ⟨t, hrun, hgpr, hzmm, hval, hother⟩ := ih (m := m.store (addr p) (m.zmm (src p)))
        hnodup (fun q hq r hr => haddr q (by simp [hq]) r (by simp [hr]))
        (fun q hq s hs => hstep q (by simp [hq]) s hs)
      refine ⟨t, ?_, hgpr, hzmm, ?_, ?_⟩
      · rw [List.flatMap_cons, Mvex.run_append, hfirst]
        exact hrun
      · intro q hq
        rcases List.mem_cons.mp hq with rfl | hq
        · rw [← vecAt_putVec m.ram (addr q) (m.zmm (src q))]
          refine vecAt_congr fun x hx hx' => hother x fun r hr => ?_
          have hne : q ≠ r := fun h => hp (h ▸ hr)
          have := haddr q (by simp) r (by simp [hr]) hne
          omega
        · exact hval q hq
      · intro x hx
        rw [hother x fun q hq => hx q (by simp [hq])]
        exact putVec_of_apart m.ram _ (hx p (by simp))

/-- The turns of a loop, one behind the other. -/
theorem run_loop (lines : Nat → List Line) (I : Nat → Machine → Prop) {n : Nat} {m : Machine}
    (hstep : ∀ i < n, ∀ s, I i s → ∃ t, Mvex.run symbols (lines i) s = some t ∧ I (i + 1) t)
    (h : I 0 m) : ∃ t, Mvex.run symbols ((List.range n).flatMap lines) m = some t ∧ I n t := by
  induction n with
  | zero => exact ⟨m, rfl, h⟩
  | succ n ih =>
      obtain ⟨t, hrun, ht⟩ := ih fun i hi => hstep i (Nat.lt_succ_of_lt hi)
      obtain ⟨u, hlast, hu⟩ := hstep n (Nat.lt_succ_self n) t ht
      rw [List.range_succ, List.flatMap_append, List.flatMap_singleton]
      exact ⟨u, run_append_of symbols hrun hlast, hu⟩

/-! ## arrays of vectors -/

theorem run_storeLine {s : Machine} {v : Nat} (hv : v < 64) (halign : s.gpr .rdi % 64 = 0)
    (r : Zmm) :
    Mvex.run symbols [storeLine v r] s = some (s.store (s.gpr .rdi + 64 * v) (s.zmm r)) :=
  run_single symbols (exec_store symbols s r .rdi (64 * v) (by omega) (by omega))

end steps

/-- `n` vectors of an array at `a` are stored, from number `start` on. -/
structure Stored (a start n : Nat) (out : Nat → Vec) (ram ram' : Ram) : Prop where
  slots : ∀ p < n, vecAt ram' (a + 64 * (start + p)) = out (start + p)
  other : ∀ x, (x < a + 64 * start ∨ a + 64 * (start + n) ≤ x) → ram' x = ram x

namespace Stored

variable {a start n k : Nat} {out : Nat → Vec} {ram ram' ram'' : Ram}

theorem none (a start : Nat) (out : Nat → Vec) (ram : Ram) : Stored a start 0 out ram ram :=
  ⟨fun _ hp => absurd hp (Nat.not_lt_zero _), fun _ _ => rfl⟩

theorem one (a v : Nat) {out : Nat → Vec} (ram : Ram) {x : Vec} (hx : x = out v) :
    Stored a v 1 out ram (putVec ram (a + 64 * v) x) where
  slots p hp := by
    obtain rfl : p = 0 := by omega
    rw [Nat.add_zero, vecAt_putVec, hx]
  other y hy := putVec_of_apart _ _ (by omega)

theorem apart (h : Stored a start n out ram ram') {b : Nat}
    (hb : b + 64 ≤ a + 64 * start ∨ a + 64 * (start + n) ≤ b) : vecAt ram' b = vecAt ram b :=
  vecAt_congr fun x _ _ => h.other x (by omega)

/-- More are stored behind those there are. -/
theorem append (h : Stored a start n out ram ram') (h' : Stored a (start + n) k out ram' ram'') :
    Stored a start (n + k) out ram ram'' where
  slots p hp := by
    by_cases hlt : p < n
    · rw [h'.apart (by omega), h.slots p hlt]
    · have hslot := h'.slots (p - n) (by omega)
      rwa [show start + n + (p - n) = start + p by omega] at hslot
  other x hx := by rw [h'.other x (by omega), h.other x (by omega)]

end Stored

/-- Stores in a row. -/
theorem run_slots (symbols : String → Nat) (src : Nat → Zmm) {start n : Nat} {m : Machine}
    (hstart : start + n ≤ 64) (halign : m.gpr .rdi % 64 = 0) {out : Nat → Vec}
    (hout : ∀ p < n, m.zmm (src p) = out (start + p)) :
    ∃ t, Mvex.run symbols ((List.range n).flatMap fun p => [storeLine (start + p) (src p)]) m =
        some t ∧ t.gpr = m.gpr ∧ t.zmm = m.zmm ∧ Stored (m.gpr .rdi) start n out m.ram t.ram := by
  obtain ⟨t, hrun, hgpr, hzmm, hval, hother⟩ := run_stores symbols
    (fun p => [storeLine (start + p) (src p)]) (fun p => m.gpr .rdi + 64 * (start + p)) src (m := m)
    (List.nodup_range (n := n)) (fun p _ q _ hne => by omega) (by
      intro p hp s hgpr
      have hp := List.mem_range.mp hp
      rw [run_storeLine symbols (by omega) (by rw [hgpr]; exact halign), hgpr])
  refine ⟨t, hrun, hgpr, hzmm, fun p hp => ?_, fun x hx => hother x fun p hp => ?_⟩
  · rw [hval p (List.mem_range.mpr hp), hout p hp]
  · have hp := List.mem_range.mp hp
    omega

end Phi.Knc
