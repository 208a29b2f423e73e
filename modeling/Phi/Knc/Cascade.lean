import Phi.Knc.Inverse

/-!
# Phi.Knc.Cascade

The two cascades: frame of reference and delta.

The encode subtracts in a pass of its own and the decode adds within the unpack
kernel.  What is subtracted from a row is `subtrahend` on both sides: the base,
or the row before it.
-/

namespace Phi.Knc

open Mvex Fields

/-! ## the residues -/

/-- `scalar_encode_for` and `scalar_encode_delta`. -/
def scalarEncode (mode : Mode) (v base : Block) : Block :=
  match mode with
  | .plain => v
  | .for_ => scalarEncodeFor v base
  | .delta => scalarEncodeDelta v base

/-- What is taken from row `u`. -/
def subtrahend (mode : Mode) (x : Nat → Vec) (base : Vec) (u : Nat) : Vec :=
  match mode, u with
  | .delta, u + 1 => x u
  | _, _ => base

theorem row_scalarEncode {mode : Mode} (hmode : mode ≠ .plain) (v base : Block) (u : Nat) :
    row (scalarEncode mode v base) u =
      fun l => row v u l - subtrahend mode (row v) (row base 0) u l := by
  funext l
  have hl : (l : Nat) < lanes := l.isLt
  have hfirst : ∀ w : Block, w l = row w 0 l := fun w => by
    rw [row, Nat.mul_zero, Nat.zero_add]
  cases mode with
  | plain => exact absurd rfl hmode
  | for_ =>
      show v (lanes * u + l) - base ((lanes * u + l) % lanes) = v (lanes * u + l) - row base 0 l
      rw [lane_mod hl, hfirst base]
  | delta =>
      show (v (lanes * u + l) - if lanes * u + l < lanes then base (lanes * u + l)
        else v (lanes * u + l - lanes)) = _
      cases u with
      | zero =>
          rw [if_pos (by omega), Nat.mul_zero, Nat.zero_add, hfirst v, hfirst base]
          rfl
      | succ u =>
          rw [if_neg (by rw [Nat.mul_succ]; omega)]
          show _ = v (lanes * (u + 1) + l) - v (lanes * u + l)
          rw [show lanes * (u + 1) + l - lanes = lanes * u + l by rw [Nat.mul_succ]; omega]

/-- A sum of residues is the row they came from. -/
theorem decoded_eq {mode : Mode} (hmode : mode ≠ .plain) {x value : Nat → Vec} {base : Vec}
    {n : Nat} (hvalue : ∀ u < n, value u = fun l => x u l - subtrahend mode x base u l) :
    ∀ u < n, decoded mode base value u = x u := by
  have hback : ∀ a b : BitVec 32, a + (b - a) = b := fun a b => by
    rw [BitVec.add_comm, BitVec.sub_add_cancel]
  cases mode with
  | plain => exact absurd rfl hmode
  | for_ =>
      intro u hu
      funext l
      show base l + value u l = x u l
      rw [hvalue u hu]
      exact hback _ _
  | delta =>
      have hsum : ∀ u ≤ n, running base value u = subtrahend .delta x base u := by
        intro u
        induction u with
        | zero => exact fun _ => rfl
        | succ u ih =>
            intro hu
            funext l
            show running base value u l + value u l = x u l
            rw [ih (by omega), hvalue u hu]
            exact hback _ _
      exact fun u hu => hsum (u + 1) hu

/-! ## transform_kernel -/

section transform

variable (symbols : String → Nat)

/-- **Step lemma**: a row less its subtrahend, and the subtrahend of the next. -/
theorem run_transform {mode : Mode} (hmode : mode ≠ .plain) {v : Nat} (hv : v < 64) {m : Machine}
    {x : Nat → Vec} {base : Vec} (hrdi : m.gpr .rdi % 64 = 0) (hrsi : m.gpr .rsi % 64 = 0)
    (hx : vecAt m.ram (m.gpr .rsi + 64 * v) = x v)
    (hbase : m.zmm 26 = subtrahend mode x base v) :
    ∃ t, Mvex.run symbols ([.bytes (vmovapsLoad 27 (mem .rsi (64 * v))),
          .bytes (vpsubd 28 27 (z 26) 0), .bytes (vmovapsStore (mem .rdi (64 * v)) 28)] ++
        if mode = .delta then [.bytes (vmovapdLoad 26 (z 27) 0)] else []) m = some t ∧
      t.gpr = m.gpr ∧ t.zmm 26 = subtrahend mode x base (v + 1) ∧
      t.ram = putVec m.ram (m.gpr .rdi + 64 * v) fun l => x v l - subtrahend mode x base v l := by
  have hload := exec_load symbols m 27 .rsi (64 * v) (by omega) (by omega)
  rw [hx] at hload
  have hsub : (Line.bytes (vpsubd 28 27 (z 26) 0)).exec symbols (m.setZmm 27 (x v)) =
      some ((m.setZmm 27 (x v)).setZmm 28 fun l => x v l - subtrahend mode x base v l) := by
    rw [z, exec_vpsubd, Machine.setZmm_self, Machine.setZmm_of_ne _ _ (by decide), hbase]
  have hstore := exec_store symbols
    ((m.setZmm 27 (x v)).setZmm 28 fun l => x v l - subtrahend mode x base v l) 28 .rdi (64 * v)
    (by omega) (by rw [Machine.setZmm_gpr, Machine.setZmm_gpr]; omega)
  rw [Machine.setZmm_self] at hstore
  have hrun := run_append_of symbols (run_single symbols hload)
    (run_append_of symbols (run_single symbols hsub) (run_single symbols hstore))
  cases mode with
  | plain => exact absurd rfl hmode
  | for_ => exact ⟨_, run_append_of symbols hrun rfl, rfl, hbase, rfl⟩
  | delta =>
      exact ⟨_, run_append_of symbols hrun (run_single symbols (exec_vmovapdLoad symbols _ _ _)),
        rfl, rfl, rfl⟩

/-- `knc_encode_for` and `knc_encode_delta` are their scalar code, in place too. -/
theorem transformKernel_wrote {mode : Mode} (hmode : mode ≠ .plain) {ram : Ram}
    {res values base : Nat} (hres : res % 64 = 0) (hvalues : values % 64 = 0)
    (hbase : base % 64 = 0) (hapart : values = res ∨ Beside values 4096 res 4096) :
    Call symbols (transformKernel mode) [(.rdi, res), (.rsi, values), (.rdx, base)] ram
      (Wrote res kncBlock (scalarEncode mode (arrayAt ram values) (arrayAt ram base)) ram) := by
  intro m hargs hram
  have hrdi : m.gpr .rdi = res := hargs (.rdi, res) (by simp)
  have hrsi : m.gpr .rsi = values := hargs (.rsi, values) (by simp)
  have hrdx : m.gpr .rdx = base := hargs (.rdx, base) (by simp)
  subst hram
  have hload := run_single symbols (exec_load symbols m 26 .rdx 0 (by decide)
    (by rw [hrdx]; exact hbase))
  rw [hrdx, Nat.add_zero] at hload
  have hfirst : vecAt m.ram base = row (arrayAt m.ram base) 0 := (row_arrayAt m.ram base 0).symm
  obtain ⟨t, hloop, -, -, hstored⟩ := run_loop symbols (n := 64) _
    (fun v t => t.gpr = m.gpr ∧
      t.zmm 26 = subtrahend mode (row (arrayAt m.ram values)) (row (arrayAt m.ram base) 0) v ∧
      Stored res 0 v (row (scalarEncode mode (arrayAt m.ram values) (arrayAt m.ram base)))
        m.ram t.ram) (m := m.setZmm 26 (vecAt m.ram base)) (by
      rintro v hv t ⟨htgpr, htbase, htram⟩
      have hx : vecAt t.ram (t.gpr .rsi + 64 * v) = row (arrayAt m.ram values) v := by
        rw [htgpr, hrsi, row_arrayAt]
        obtain rfl | h | h := hapart
        · exact htram.apart (.inr (by omega))
        · exact htram.apart (.inl (by omega))
        · exact htram.apart (.inr (by omega))
      obtain ⟨u, hrun, hugpr, hubase, huram⟩ := run_transform symbols hmode hv
        (by rw [htgpr, hrdi]; exact hres) (by rw [htgpr, hrsi]; exact hvalues) hx htbase
      refine ⟨u, hrun, hugpr.trans htgpr, hubase, ?_⟩
      rw [huram, htgpr, hrdi]
      refine htram.append ?_
      rw [Nat.zero_add]
      exact .one _ _ _ (row_scalarEncode hmode _ _ _).symm)
    ⟨rfl, (Machine.setZmm_self _ _ _).trans (by rw [hfirst]; cases mode <;> rfl), .none _ _ _ _⟩
  exact ⟨t, run_append_of symbols hload hloop, hstored.wrote⟩

end transform

/-! ## the cascades -/

/-- The buffers of an encode and its decode; the residues may replace the values. -/
structure CascadeBuffers (values res packed out base bits : Nat) : Prop where
  values_align : values % 64 = 0
  base_align : base % 64 = 0
  inPlace : values = res ∨ Beside values 4096 res 4096
  packing : Buffers res packed out bits
  base_res : Beside base 64 res 4096
  base_packed : Beside base 64 packed (128 * bits)

section cascade

variable (symbols : String → Nat) {bits : Nat} {mode : Mode} {ram : Ram}
  {values res packed out base : Nat}

/-- A value that fits is kept whole. -/
theorem and_lowmask_of_lt (h32 : bits ≤ 32) {x : BitVec 32} (hx : x.toNat < 2 ^ bits) :
    x &&& lowmask bits = x := by
  apply BitVec.eq_of_toNat_eq
  rw [toNat_and_lowmask h32, Nat.mod_eq_of_lt hx]

/-- **The cascades lose nothing**: with residues that fit, encode, pack and unpack
give the block back. -/
theorem cascade_lossless (h0 : 0 < bits) (h32 : bits ≤ 32) (hmode : mode ≠ .plain)
    (hload : Loaded symbols bits ram)
    (hmask_res : bits < 32 → Beside (symbols (maskSymbol bits)) 64 res 4096)
    (hmask_packed : bits < 32 → Beside (symbols (maskSymbol bits)) 64 packed (128 * bits))
    (h : CascadeBuffers values res packed out base bits)
    (hfits : ∀ i < kncBlock,
      (scalarEncode mode (arrayAt ram values) (arrayAt ram base) i).toNat < 2 ^ bits) :
    Call symbols (transformKernel mode) [(.rdi, res), (.rsi, values), (.rdx, base)] ram
      fun ram₁ => Call symbols (packKernel bits) [(.rdi, packed), (.rsi, res)] ram₁
        fun ram₂ => Call symbols (unpackKernel bits mode)
          [(.rdi, out), (.rsi, packed), (.rdx, base)] ram₂
            fun ram₃ => ∀ i < kncBlock, arrayAt ram₃ out i = arrayAt ram values i := by
  have hp := h.packing
  have hsize : 4 * (32 * bits) = 128 * bits := by omega
  refine (transformKernel_wrote symbols hmode hp.values_align h.values_align h.base_align
    h.inPlace).mono fun ram₁ h₁ => ?_
  have hload₁ := hload.kept h₁.other hmask_res
  have hbase₁ : vecAt ram₁ base = vecAt ram base := vecAt_of_beside h₁.other h.base_res
  refine (packKernel_wrote symbols h0 h32 hload₁ hp.values_align hp.packed_align hp.source).mono
    fun ram₂ h₂ => ?_
  have hload₂ := hload₁.kept h₂.other (by rwa [hsize])
  have hbase₂ : vecAt ram₂ base = vecAt ram base :=
    (vecAt_of_beside h₂.other (by rw [hsize]; exact h.base_packed)).trans hbase₁
  refine (unpackKernel_spec symbols h0 h32 mode base hload₂ hp.out_align hp.packed_align
    (fun _ => h.base_align) hp.target).mono fun ram₃ h₃ => ?_
  -- what is unpacked are the residues
  have hres : ∀ i < kncBlock, scalarUnpack bits (arrayAt ram₂ packed) i =
      scalarEncode mode (arrayAt ram values) (arrayAt ram base) i := by
    intro i hi
    rw [scalarUnpack_scalarPack h0 h32 h₂.array i hi, h₁.array i hi,
      and_lowmask_of_lt h32 (hfits i hi)]
  have hvalue : ∀ u < 64, unpacked bits ram₂ packed u = fun l => row (arrayAt ram values) u l -
      subtrahend mode (row (arrayAt ram values)) (vecAt ram₂ base) u l := by
    intro u hu
    have hbase : vecAt ram₂ base = row (arrayAt ram base) 0 :=
      hbase₂.trans (row_arrayAt ram base 0).symm
    rw [hbase, ← row_scalarEncode hmode, ← row_scalarUnpack h32]
    funext l
    have hl : (l : Nat) < 16 := l.isLt
    exact hres _ (by unfold lanes kncBlock; omega)
  refine eq_of_rows (n := 64) fun u hu => ?_
  have hslot := h₃.slots u hu
  rw [Nat.zero_add, decoded_eq hmode hvalue u hu] at hslot
  rw [row_arrayAt, hslot]

end cascade

/-- Memory of ones behind the mask of five bits. -/
def onesBehindMask : Ram := putVec (fun _ => 1) 0 fun _ => maskConstant 5

theorem arrayAt_ones {a : Nat} (ha : 64 ≤ a) (i : Nat) :
    arrayAt onesBehindMask a i = 0x01010101#32 := by
  have hones : dword (fun _ => 1) (a + 4 * i) = 0x01010101#32 := by
    show BitVec.ofNat 32 (ofLe [1, 1, 1, 1]) = 0x01010101#32
    decide
  rw [← hones]
  exact dword_congr fun x hx _ => putVec_of_apart _ _ (.inr (by omega))

/-- Ones in delta, encoded in place. -/
theorem cascade_lossless_ones :
    Call (fun _ => 0) (transformKernel .delta) [(.rdi, 64), (.rsi, 64), (.rdx, 8896)] onesBehindMask
      fun ram₁ => Call (fun _ => 0) (packKernel 5) [(.rdi, 4160), (.rsi, 64)] ram₁
        fun ram₂ => Call (fun _ => 0) (unpackKernel 5 .delta)
          [(.rdi, 4800), (.rsi, 4160), (.rdx, 8896)] ram₂
            fun ram₃ => ∀ i < kncBlock, arrayAt ram₃ 4800 i = arrayAt onesBehindMask 64 i := by
  refine cascade_lossless (fun _ => 0) (by decide) (by decide) Mode.noConfusion
    ⟨fun _ => rfl, fun _ => vecAt_putVec _ _ _⟩ (fun _ => .inl (by decide))
    (fun _ => .inl (by decide))
    ⟨rfl, rfl, .inl rfl, ⟨rfl, rfl, rfl, .inl (by decide), .inl (by decide)⟩, .inr (by decide),
      .inr (by decide)⟩ fun i _ => ?_
  show (arrayAt onesBehindMask 64 i - if i < lanes then arrayAt onesBehindMask 8896 i
    else arrayAt onesBehindMask 64 (i - lanes)).toNat < 2 ^ 5
  split
  · rw [arrayAt_ones (by decide), arrayAt_ones (by decide)]
    decide
  · rw [arrayAt_ones (by decide), arrayAt_ones (by decide)]
    decide

end Phi.Knc
