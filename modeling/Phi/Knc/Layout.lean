import Phi.Lib.Fields
import Phi.Mvex.Machine

/-!
# Phi.Knc.Layout

The layout of a packed block, from the scalar code of `knc_test.c`.

Value `i` of a block is in lane `i % 16` at position `i / 16`; each lane packs
its 64 values into words of its own, and word `w` of lane `l` is word
`16 * w + l` of the packed block.
-/

namespace Phi.Knc

open Mvex Fields

/-- `LANES`. -/
def lanes : Nat := 16

/-- `KNC_BLOCK`. -/
def kncBlock : Nat := 1024

/-- An array of the C code. -/
abbrev Block := Nat → BitVec 32

/-! ## the scalar code -/

/-- `lowmask`. -/
def lowmask (bits : Nat) : BitVec 32 := if 32 ≤ bits then 0xffffffff#32 else (1#32 <<< bits) - 1#32

/-- `p[i] |= x`. -/
def orAt (p : Block) (i : Nat) (x : BitVec 32) : Block := fun q => if q = i then p q ||| x else p q

/-- The body of the loop of `scalar_pack`. -/
def scalarPackStep (bits : Nat) (v p : Block) (i : Nat) : Block :=
  let lane := i % lanes
  let pos := i / lanes
  let bit := pos * bits
  let w := bit / 32
  let s := bit % 32
  let val := v i &&& lowmask bits
  let p := orAt p (w * lanes + lane) (val <<< s)
  if 32 < s + bits then orAt p ((w + 1) * lanes + lane) (val >>> (32 - s)) else p

/-- `scalar_pack`. -/
def scalarPack (bits : Nat) (v : Block) : Block :=
  (List.range kncBlock).foldl (scalarPackStep bits v) fun _ => 0

/-- `scalar_unpack`. -/
def scalarUnpack (bits : Nat) (p : Block) : Block := fun i =>
  let lane := i % lanes
  let pos := i / lanes
  let bit := pos * bits
  let w := bit / 32
  let s := bit % 32
  let val := p (w * lanes + lane) >>> s
  let val := if 32 < s + bits then val ||| p ((w + 1) * lanes + lane) <<< (32 - s) else val
  val &&& lowmask bits

/-- `scalar_encode_for`. -/
def scalarEncodeFor (v base : Block) : Block := fun i => v i - base (i % lanes)

/-- `scalar_encode_delta`. -/
def scalarEncodeDelta (v base : Block) : Block := fun i =>
  v i - if i < lanes then base i else v (i - lanes)

/-! ## one lane -/

/-- Lane `l` of a block. -/
def lane (v : Block) (l : Nat) : Nat → BitVec 32 := fun u => v (lanes * u + l)

theorem lowmask_eq {bits : Nat} (h : bits ≤ 32) : lowmask bits = low 32 bits := by
  have hall : ∀ b < 33, lowmask b = low 32 b := by decide
  exact hall bits (by omega)

theorem lane_div {l : Nat} (hl : l < lanes) (u : Nat) : (lanes * u + l) / lanes = u := by
  unfold lanes at *
  omega

theorem lane_mod {l : Nat} (hl : l < lanes) (u : Nat) : (lanes * u + l) % lanes = l := by
  unfold lanes at *
  omega

/-- Word and lane are read off the index. -/
theorem lane_index {l l' w w' : Nat} (hl : l < lanes) (hl' : l' < lanes) :
    lanes * w + l = w' * lanes + l' ↔ w' = w ∧ l' = l := by
  unfold lanes at *
  omega

theorem scalarUnpack_lane {bits l : Nat} (h : bits ≤ 32) (hl : l < lanes) (p : Block) (u : Nat) :
    scalarUnpack bits p (lanes * u + l) = extract bits (lane p l) u := by
  have hplace : u * bits = bits * u := Nat.mul_comm u bits
  simp only [scalarUnpack, lane_div hl, lane_mod hl, extract, lane, lowmask_eq h, hplace,
    Nat.mul_comm _ lanes]
  split <;> simp

/-! ## bits of the packed block -/

theorem getLsbD_orAt (p : Block) (i : Nat) (x : BitVec 32) (q b : Nat) :
    (orAt p i x q).getLsbD b = true ↔
      (p q).getLsbD b = true ∨ (q = i ∧ x.getLsbD b = true) := by
  unfold orAt
  split <;> simp_all

/-- A step adds what its value leaves in its lane. -/
theorem getLsbD_scalarPackStep {bits l l' : Nat} (h : bits ≤ 32) (hl : l < lanes)
    (hl' : l' < lanes) (v p : Block) (u w b : Nat) :
    (scalarPackStep bits v p (lanes * u + l') (lanes * w + l)).getLsbD b = true ↔
      (p (lanes * w + l)).getLsbD b = true ∨
        (l' = l ∧ Leaves bits (lane v l) w b u) := by
  have hplace : u * bits = bits * u := Nat.mul_comm u bits
  simp only [scalarPackStep, lane_div hl', lane_mod hl', lowmask_eq h, hplace]
  have hleft : lanes * w + l = bits * u / 32 * lanes + l' ↔ bits * u / 32 = w ∧ l' = l :=
    lane_index hl hl'
  have hright : lanes * w + l = (bits * u / 32 + 1) * lanes + l' ↔
      bits * u / 32 + 1 = w ∧ l' = l := lane_index hl hl'
  by_cases hll : l' = l
  · subst hll
    split
    · next hc =>
        simp only [getLsbD_orAt, hleft, hright, Leaves, leftPiece, rightPiece, lane]
        tauto
    · next hc =>
        simp only [getLsbD_orAt, hleft, Leaves, leftPiece, lane]
        tauto
  · split
    · simp only [getLsbD_orAt, hleft, hright]
      tauto
    · simp only [getLsbD_orAt, hleft]
      tauto

/-- The bits of `scalar_pack` up to value `n`. -/
theorem getLsbD_scalarPack_upto {bits l : Nat} (h : bits ≤ 32) (hl : l < lanes) (v : Block)
    (w b n : Nat) :
    (((List.range n).foldl (scalarPackStep bits v) fun _ => 0) (lanes * w + l)).getLsbD b = true ↔
      ∃ u, lanes * u + l < n ∧ Leaves bits (lane v l) w b u := by
  induction n with
  | zero => simp
  | succ n ih =>
      have hn : n = lanes * (n / lanes) + n % lanes := (Nat.div_add_mod n lanes).symm
      have hmod : n % lanes < lanes := Nat.mod_lt _ (by decide)
      rw [List.range_succ, List.foldl_append, List.foldl_cons, List.foldl_nil]
      have hstep := getLsbD_scalarPackStep h hl hmod v
        ((List.range n).foldl (scalarPackStep bits v) fun _ => 0) (n / lanes) w b
      rw [← hn, ih] at hstep
      rw [hstep]
      constructor
      · rintro (⟨u, hu, hleaves⟩ | ⟨hll, hleaves⟩)
        · exact ⟨u, Nat.lt_succ_of_lt hu, hleaves⟩
        · exact ⟨n / lanes, by omega, hleaves⟩
      · rintro ⟨u, hu, hleaves⟩
        rcases Nat.lt_succ_iff_lt_or_eq.mp hu with hlt | heq
        · exact .inl ⟨u, hlt, hleaves⟩
        · refine .inr ⟨?_, ?_⟩
          · rw [← heq, lane_mod hl]
          · rwa [← heq, lane_div hl]

/-- Each lane of a packed block is the stream of its values. -/
theorem getLsbD_scalarPack {bits l : Nat} (h0 : 0 < bits) (h : bits ≤ 32) (hl : l < lanes)
    (v : Block) {w b : Nat} (hw : w < 2 * bits) (hb : b < 32) :
    (scalarPack bits v (lanes * w + l)).getLsbD b = stream bits (lane v l) (32 * w + b) := by
  have hin : (32 * w + b) / bits < 64 := field_lt hw hb rfl
  have hblock : ∀ u, lanes * u + l < kncBlock ↔ u < 64 := by
    intro u
    unfold lanes kncBlock at *
    omega
  rw [Bool.eq_iff_iff, scalarPack, getLsbD_scalarPack_upto h hl, ← exists_leaves_iff h h0 hb hin]
  simp only [hblock]

/-- What was packed is unpacked, up to the bits above the width. -/
theorem scalarUnpack_scalarPack {bits : Nat} (h0 : 0 < bits) (h : bits ≤ 32) {v p : Block}
    (hp : ∀ i < 32 * bits, p i = scalarPack bits v i) :
    ∀ i < kncBlock, scalarUnpack bits p i = v i &&& lowmask bits := by
  intro i hi
  have hl : i % lanes < lanes := Nat.mod_lt _ (by decide)
  have hu : i / lanes < 64 := Nat.div_lt_of_lt_mul hi
  rw [← Nat.div_add_mod i lanes, scalarUnpack_lane h hl, lowmask_eq h]
  show extract bits _ _ = lane v (i % lanes) (i / lanes) &&& low 32 bits
  refine extract_of_stream h fun b hb => ?_
  have hle : bits * (i / lanes) + b < 32 * (2 * bits) := by
    have := Nat.mul_le_mul_left bits (Nat.succ_le_of_lt hu)
    rw [Nat.mul_succ] at this
    omega
  have hw : (bits * (i / lanes) + b) / 32 < 2 * bits := Nat.div_lt_of_lt_mul hle
  rw [stream, lane, hp _ (by unfold lanes at *; omega),
    getLsbD_scalarPack h0 h hl v hw (Nat.mod_lt _ (by decide)), Nat.div_add_mod]

theorem toNat_and_lowmask {bits : Nat} (h : bits ≤ 32) (x : BitVec 32) :
    (x &&& lowmask bits).toNat = x.toNat % 2 ^ bits := by
  have hlt : 2 ^ bits - 1 < 2 ^ 32 :=
    Nat.lt_of_lt_of_le (Nat.sub_lt Nat.one_le_two_pow Nat.one_pos)
      (Nat.pow_le_pow_right Nat.two_pos h)
  rw [lowmask_eq h, low, BitVec.toNat_and, BitVec.toNat_ofNat, Nat.mod_eq_of_lt hlt,
    Nat.and_two_pow_sub_one_eq_mod]

/-! ## blocks in memory -/

/-- The array at `a`. -/
def arrayAt (ram : Ram) (a : Nat) : Block := fun i => dword ram (a + 4 * i)

/-- A value of each lane. -/
def row (v : Block) (u : Nat) : Vec := fun l => v (lanes * u + l)

theorem row_arrayAt (ram : Ram) (a u : Nat) : row (arrayAt ram a) u = vecAt ram (a + 64 * u) := by
  funext l
  show dword ram (a + 4 * (16 * u + l)) = dword ram (a + 64 * u + 4 * l)
  congr 1
  omega

/-- Blocks are the same when their rows are. -/
theorem eq_of_rows {v w : Block} {n : Nat} (h : ∀ u < n, row v u = row w u) :
    ∀ i < lanes * n, v i = w i := by
  intro i hi
  have hdiv : i / lanes < n := Nat.div_lt_of_lt_mul hi
  have hrow := congrFun (h (i / lanes) hdiv) ⟨i % lanes, Nat.mod_lt _ (by decide)⟩
  unfold row at hrow
  rwa [show lanes * (i / lanes) + i % lanes = i from Nat.div_add_mod i lanes] at hrow

end Phi.Knc
