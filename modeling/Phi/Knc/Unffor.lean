import Phi.Knc.FastLanes

/-!
# Phi.Knc.Unffor

FastLanes' 32-bit `unffor` on the card: the entry point of the kernels
(`knc_fls_unffor`) and the function that FastLanes calls (`unffor` of
`fls_unffor.cpp`).

The function goes by what a kernel cannot take.  An output that is not aligned
is left to FastLanes' own code, a block that does not start at a 4-byte boundary
is copied to one that does, and the base is always copied to a variable.
-/

namespace Phi.Knc

open Mvex Fields

/-! ## the entry point -/

/-- `knc_fls_unffor_table`. -/
def kncFlsUnfforTable : List (List Line) := (List.range 33).map flsUnfforKernel

/-- `knc_fls_unffor`. -/
def kncFlsUnffor (symbols : String → Nat) (m : Machine) : Option Machine :=
  let bw := m.gpr .rdx % 2 ^ 32
  let m := m.setGpr .rax bw
  if 32 < bw then some m
  else
    let m := (m.setGpr .rdx (m.gpr .rcx)).setGpr .r9 (symbols "knc_fls_unffor_table")
    match kncFlsUnfforTable[bw]? with
    | some kernel => Mvex.run symbols kernel m
    | none => none

/-- The registers of a call: `in`, `out`, `bw` and `base`. -/
def callFlsUnffor (m : Machine) (input output bw base : Nat) : Machine :=
  (((m.setGpr .rdi input).setGpr .rsi output).setGpr .rdx bw).setGpr .rcx base

theorem kncFlsUnffor_call (symbols : String → Nat) (m : Machine) (input output base : Nat)
    {bw : Nat} (hbw : bw ≤ 32) :
    kncFlsUnffor symbols (callFlsUnffor m input output bw base) =
      Mvex.run symbols (flsUnfforKernel bw)
        ((((callFlsUnffor m input output bw base).setGpr .rax bw).setGpr .rdx base).setGpr .r9
          (symbols "knc_fls_unffor_table")) := by
  have hrdx : (callFlsUnffor m input output bw base).gpr .rdx = bw := rfl
  have hrcx : ((callFlsUnffor m input output bw base).setGpr .rax bw).gpr .rcx = base := rfl
  have hentry : kncFlsUnfforTable[bw]? = some (flsUnfforKernel bw) := by
    have hrange : (List.range 33)[bw]? = some bw := List.getElem?_range (by omega)
    rw [kncFlsUnfforTable, List.getElem?_map, hrange]
    rfl
  simp only [kncFlsUnffor, hrdx, Nat.mod_eq_of_lt (show bw < 2 ^ 32 by omega), hrcx, hentry]
  rw [if_neg (by omega)]

/-! ## unffor -/

/-- `memcpy` between stretches that do not meet. -/
def copyBytes (ram : Ram) (dst src n : Nat) : Ram := fun x =>
  if dst ≤ x ∧ x < dst + n then ram (src + (x - dst)) else ram x

def withRam (m : Machine) (ram : Ram) : Machine := { m with ram := ram }

/-- Where the function's variables are. -/
structure Locals where
  baseValue : Nat
  scratch : Nat
  baseValue_align : baseValue % 4 = 0
  scratch_align : scratch % 64 = 0

/-- `sizeof scratch`. -/
def scratchSize : Nat := 4 * (kncFlsBlock + 16)

/-- `knc_fls_calls_vector` and its siblings. -/
structure FlsCalls where
  vector : UInt64
  scalar : UInt64
  staged : UInt64
deriving DecidableEq, Repr

/-- FastLanes' own `unffor`: `in`, `out`, `bw` and `base`. -/
abbrev ScalarCode := Nat → Nat → UInt8 → Nat → Ram → Ram

/-- `unffor` of `fls_unffor.cpp`. -/
def unffor (symbols : String → Nat) (unfforScalar : ScalarCode) (enabled : Int) (locals : Locals)
    (input output : Nat) (bw : UInt8) (base : Nat) (m : Machine) (calls : FlsCalls) :
    Option (Machine × FlsCalls) :=
  if enabled ≠ 0 ∧ bw ≤ 32 ∧ output &&& 63 = 0 then
    let m := withRam m (copyBytes m.ram locals.baseValue base 4)
    let calls := { calls with vector := calls.vector + 1 }
    if input &&& 3 = 0 then
      (kncFlsUnffor symbols (callFlsUnffor m input output bw.toNat locals.baseValue)).map (·, calls)
    else
      let calls := { calls with staged := calls.staged + 1 }
      let m := withRam m (copyBytes m.ram locals.scratch input (bw.toNat * 128))
      (kncFlsUnffor symbols
        (callFlsUnffor m locals.scratch output bw.toNat locals.baseValue)).map (·, calls)
  else
    let calls := { calls with scalar := calls.scalar + 1 }
    some (withRam m (unfforScalar input output bw base m.ram), calls)

/-! ## copies -/

section copies

variable {ram : Ram} {dst src n : Nat}

theorem copyBytes_of_apart {x : Nat} (h : x < dst ∨ dst + n ≤ x) :
    copyBytes ram dst src n x = ram x := if_neg (by omega)

theorem dword_copyBytes {i : Nat} (h : i + 4 ≤ n) :
    dword (copyBytes ram dst src n) (dst + i) = dword ram (src + i) := by
  have hbyte : ∀ k < 4, copyBytes ram dst src n (dst + i + k) = ram (src + i + k) := by
    intro k hk
    rw [copyBytes, if_pos (by omega)]
    congr 1
    omega
  have h0 := hbyte 0 (by decide)
  rw [Nat.add_zero, Nat.add_zero] at h0
  rw [dword, dword, h0, hbyte 1 (by decide), hbyte 2 (by decide), hbyte 3 (by decide)]

theorem dword_copyBytes_of_beside {a : Nat} (h : Beside a 4 dst n) :
    dword (copyBytes ram dst src n) a = dword ram a :=
  dword_congr fun x hx hx' => copyBytes_of_apart (by unfold Beside at h; omega)

theorem FlsLoaded.copyBytes {symbols : String → Nat} {bits : Nat} (h : FlsLoaded symbols bits ram)
    (src : Nat)
    (hb : 0 < bits → bits < 32 → Beside (symbols (flsMaskSymbol bits)) 64 dst n) :
    FlsLoaded symbols bits (copyBytes ram dst src n) where
  align := h.align
  mask h0 h32 := by
    rw [vecAt_of_beside (fun x hx => copyBytes_of_apart hx) (hb h0 h32), h.mask h0 h32]

end copies

/-- The decoding reads nothing behind the block. -/
theorem scalarUnffor_congr {bits : Nat} {p q : Block} (base : BitVec 32)
    (h : ∀ i < 32 * bits, p i = q i) :
    ∀ i < kncFlsBlock, scalarUnffor bits p base i = scalarUnffor bits q base i := by
  intro i hi
  have hlane : i % kncFlsLanes < 32 := Nat.mod_lt _ (by decide)
  have hpos : i / kncFlsLanes + 1 ≤ 32 := Nat.div_lt_of_lt_mul hi
  have hend : i / kncFlsLanes * bits + bits ≤ 32 * bits := by
    rw [← Nat.succ_mul]
    exact Nat.mul_le_mul_right bits hpos
  simp only [scalarUnffor]
  generalize i / kncFlsLanes * bits = bit at hend
  generalize i % kncFlsLanes = l at hlane
  by_cases h0 : bits = 0
  · simp [h0, lowmask]
  · have hfirst : p (bit / 32 * kncFlsLanes + l) = q (bit / 32 * kncFlsLanes + l) :=
      h _ (by unfold kncFlsLanes; omega)
    rw [hfirst]
    split
    · next hlong => rw [h _ (by unfold kncFlsLanes; omega)]
    · rfl

/-! ## the three routes -/

/-- FastLanes' own code is the scalar decoding; `restrict` keeps its output off
what it reads. -/
def Decodes (unfforScalar : ScalarCode) : Prop :=
  ∀ input output bw base ram, bw ≤ 32 → Beside input (128 * bw.toNat) output 4096 →
    Beside base 4 output 4096 →
      Wrote output kncFlsBlock (scalarUnffor bw.toNat (arrayAt ram input) (dword ram base)) ram
        (unfforScalar input output bw base ram)

/-- Where a call finds things: the output off what is read, as `restrict` has it,
and the variables and the masks where nothing else is. -/
structure Placed (symbols : String → Nat) (locals : Locals) (bits input output base : Nat) :
    Prop where
  block : Beside input (128 * bits) output 4096
  base : Beside base 4 output 4096
  baseValue_block : Beside input (128 * bits) locals.baseValue 4
  baseValue_output : Beside locals.baseValue 4 output 4096
  scratch_output : Beside locals.scratch scratchSize output 4096
  scratch_baseValue : Beside locals.baseValue 4 locals.scratch scratchSize
  mask_baseValue : 0 < bits → bits < 32 →
    Beside (symbols (flsMaskSymbol bits)) 64 locals.baseValue 4
  mask_scratch : 0 < bits → bits < 32 →
    Beside (symbols (flsMaskSymbol bits)) 64 locals.scratch scratchSize

/-- The output is these values, and nothing else has changed but the variables. -/
structure Unfforred (locals : Locals) (output : Nat) (values : Block) (ram ram' : Ram) : Prop where
  array : ∀ i < kncFlsBlock, arrayAt ram' output i = values i
  other : ∀ x, (x < output ∨ output + 4 * kncFlsBlock ≤ x) →
    (x < locals.baseValue ∨ locals.baseValue + 4 ≤ x) →
      (x < locals.scratch ∨ locals.scratch + scratchSize ≤ x) → ram' x = ram x

section routes

variable (symbols : String → Nat) {locals : Locals} {bits input output base : Nat}

/-- The entry point with a block and a base it can take. -/
theorem kncFlsUnffor_spec (h32 : bits ≤ 32) (m : Machine) {ram : Ram}
    (hload : FlsLoaded symbols bits ram) (hin : input % 4 = 0) (hout : output % 64 = 0)
    (hbase : base % 4 = 0) (hapart : Beside input (128 * bits) output 4096) :
    ∃ t, kncFlsUnffor symbols (callFlsUnffor (withRam m ram) input output bits base) = some t ∧
      Wrote output kncFlsBlock (scalarUnffor bits (arrayAt ram input) (dword ram base))
        ram t.ram := by
  rw [kncFlsUnffor_call symbols _ input output base h32]
  refine flsUnfforKernel_spec symbols h32 hload hin hout hbase hapart _ ?_ rfl
  intro a ha
  simp only [List.mem_cons, List.not_mem_nil, or_false] at ha
  obtain rfl | rfl | rfl := ha <;> rfl

theorem staged_size (h32 : bits ≤ 32) : bits * 128 ≤ scratchSize := by
  unfold scratchSize kncFlsBlock
  omega

theorem dword_baseValue (ram : Ram) (locals : Locals) (base : Nat) :
    dword (copyBytes ram locals.baseValue base 4) locals.baseValue = dword ram base :=
  dword_copyBytes (i := 0) (Nat.le_refl 4)

variable (h : Placed symbols locals bits input output base)

include h

/-- The base's variable does not lie in the block. -/
theorem Placed.block_eq (ram : Ram) :
    ∀ i < 32 * bits,
      arrayAt (copyBytes ram locals.baseValue base 4) input i = arrayAt ram input i := by
  intro i hi
  have hblock := h.baseValue_block
  exact dword_copyBytes_of_beside (by unfold Beside at *; omega)

/-- The block where it is. -/
theorem Placed.direct (h32 : bits ≤ 32) (m : Machine) (hload : FlsLoaded symbols bits m.ram)
    (hin : input % 4 = 0) (hout : output % 64 = 0) :
    ∃ t, kncFlsUnffor symbols
        (callFlsUnffor (withRam m (copyBytes m.ram locals.baseValue base 4)) input output bits
          locals.baseValue) = some t ∧
      Unfforred locals output (scalarUnffor bits (arrayAt m.ram input) (dword m.ram base))
        m.ram t.ram := by
  obtain ⟨t, hrun, hwrote⟩ := kncFlsUnffor_spec symbols h32 m
    (hload.copyBytes base h.mask_baseValue) hin hout locals.baseValue_align h.block
  refine ⟨t, hrun, fun i hi => ?_, fun x hx hxbase _ => ?_⟩
  · rw [hwrote.array i hi, dword_baseValue, scalarUnffor_congr _ (h.block_eq symbols m.ram) i hi]
  · rw [hwrote.other x hx]
    exact copyBytes_of_apart hxbase

/-- The block copied. -/
theorem Placed.staged (h32 : bits ≤ 32) (m : Machine) (hload : FlsLoaded symbols bits m.ram)
    (hout : output % 64 = 0) :
    ∃ t, kncFlsUnffor symbols
        (callFlsUnffor
          (withRam m (copyBytes (copyBytes m.ram locals.baseValue base 4) locals.scratch input
            (bits * 128)))
          locals.scratch output bits locals.baseValue) = some t ∧
      Unfforred locals output (scalarUnffor bits (arrayAt m.ram input) (dword m.ram base))
        m.ram t.ram := by
  have hsize := staged_size h32
  have hvars := h.scratch_baseValue
  have houtput := h.scratch_output
  have hmask := h.mask_scratch
  unfold Beside at hvars houtput hmask
  have hin : locals.scratch % 4 = 0 := by
    have := locals.scratch_align
    omega
  have hapart : Beside locals.scratch (128 * bits) output 4096 := by
    unfold Beside
    omega
  have hbeside : 0 < bits → bits < 32 →
      Beside (symbols (flsMaskSymbol bits)) 64 locals.scratch (bits * 128) := by
    intro h0 hlt
    have := hmask h0 hlt
    unfold Beside
    omega
  have hload' := (hload.copyBytes base h.mask_baseValue).copyBytes input hbeside
  obtain ⟨t, hrun, hwrote⟩ :=
    kncFlsUnffor_spec symbols h32 m hload' hin hout locals.baseValue_align hapart
  have hbase : dword (copyBytes (copyBytes m.ram locals.baseValue base 4) locals.scratch input
      (bits * 128)) locals.baseValue = dword m.ram base := by
    rw [dword_copyBytes_of_beside (by unfold Beside; omega), dword_baseValue]
  have hblock : ∀ i < 32 * bits, arrayAt (copyBytes (copyBytes m.ram locals.baseValue base 4)
      locals.scratch input (bits * 128)) locals.scratch i = arrayAt m.ram input i := fun i hi =>
    (dword_copyBytes (by omega)).trans (h.block_eq symbols m.ram i hi)
  refine ⟨t, hrun, fun i hi => ?_, fun x hx hxbase hxscratch => ?_⟩
  · rw [hwrote.array i hi, hbase, scalarUnffor_congr _ hblock i hi]
  · rw [hwrote.other x hx, copyBytes_of_apart (by omega), copyBytes_of_apart hxbase]

end routes

/-- **The vector `unffor` is the scalar one**, by whichever route: at every width,
for a block, a base and an output at any address. -/
theorem unffor_decodes (symbols : String → Nat) {unfforScalar : ScalarCode}
    (hscalar : Decodes unfforScalar) (enabled : Int) (locals : Locals) {input output base : Nat}
    {bw : UInt8} (hbw : bw ≤ 32) (m : Machine) (calls : FlsCalls)
    (hload : FlsLoaded symbols bw.toNat m.ram)
    (h : Placed symbols locals bw.toNat input output base) :
    ∃ t calls', unffor symbols unfforScalar enabled locals input output bw base m calls =
        some (t, calls') ∧
      Unfforred locals output (scalarUnffor bw.toNat (arrayAt m.ram input) (dword m.ram base))
        m.ram t.ram := by
  have h32 : bw.toNat ≤ 32 := hbw
  have hin : input &&& 3 = input % 4 := Nat.and_two_pow_sub_one_eq_mod input 2
  have hout : output &&& 63 = output % 64 := Nat.and_two_pow_sub_one_eq_mod output 6
  unfold unffor
  rw [hin, hout]
  split
  · next hvector =>
      split
      · next haligned =>
          obtain ⟨t, hrun, ht⟩ := h.direct symbols h32 m hload haligned hvector.2.2
          exact ⟨t, _, congrArg (Option.map _) hrun, ht⟩
      · obtain ⟨t, hrun, ht⟩ := h.staged symbols h32 m hload hvector.2.2
        exact ⟨t, _, congrArg (Option.map _) hrun, ht⟩
  · have hwrote := hscalar input output bw base m.ram hbw h.block h.base
    exact ⟨_, _, rfl, hwrote.array, fun x hx _ _ => hwrote.other x hx⟩

/-- FastLanes' code as a loop over the vectors of its output. -/
def scalarRows : ScalarCode := fun input output bw base ram =>
  (List.range 64).foldl (fun ram' u => putVec ram' (output + 64 * u)
    (row (scalarUnffor bw.toNat (arrayAt ram input) (dword ram base)) u)) ram

theorem scalarRows_decodes : Decodes scalarRows := by
  intro input output bw base ram _ _ _
  have hstored : ∀ n, Stored output 0 n
      (row (scalarUnffor bw.toNat (arrayAt ram input) (dword ram base))) ram
      ((List.range n).foldl (fun ram' u => putVec ram' (output + 64 * u)
        (row (scalarUnffor bw.toNat (arrayAt ram input) (dword ram base)) u)) ram) := by
    intro n
    induction n with
    | zero => exact .none _ _ _ _
    | succ n ih =>
        have hlast := ih.append (by rw [Nat.zero_add]; exact .one output n _ rfl)
        rwa [List.range_succ, List.foldl_append]
  exact (hstored 64).wrote

/-- A machine with the mask of five bits at the start of its memory. -/
def oddMachine : Machine where
  gpr _ := 0
  zmm _ _ := 0
  ram := putVec (fun x => UInt8.ofNat (7 * x)) 0 fun _ => maskConstant 5

/-- A block of five bits a value that starts at an odd address, as does its base. -/
theorem unffor_decodes_odd :
    ∃ t calls', unffor (fun _ => 0) scalarRows 1 ⟨128, 192, rfl, rfl⟩ 4353 8192 5 101 oddMachine
        ⟨0, 0, 0⟩ = some (t, calls') ∧
      Unfforred ⟨128, 192, rfl, rfl⟩ 8192
        (scalarUnffor 5 (arrayAt oddMachine.ram 4353) (dword oddMachine.ram 101))
        oddMachine.ram t.ram :=
  unffor_decodes (fun _ => 0) scalarRows_decodes 1 ⟨128, 192, rfl, rfl⟩ (by decide)
    oddMachine ⟨0, 0, 0⟩ ⟨fun _ _ => rfl, fun _ _ => vecAt_putVec _ _ _⟩
    ⟨.inl (by decide), .inl (by decide), .inr (by decide), .inl (by decide), .inl (by decide),
      .inl (by decide), fun _ _ => .inl (by decide), fun _ _ => .inl (by decide)⟩

end Phi.Knc
