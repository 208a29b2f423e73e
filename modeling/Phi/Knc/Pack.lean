import Phi.Knc.Calls

/-!
# Phi.Knc.Pack

The pack kernels.

A group builds up to four words, each in two partial accumulators: the pieces
with an even number go to one and those with an odd number to the other, the
first two of them straight from memory.  `Gathered` says what the accumulators
hold between the steps; a word's bits are then those that its pieces set.
-/

namespace Phi.Knc

open Mvex Fields

/-! ## the pieces of a word -/

theorem pushPiece_apply (pieces : Nat → List Piece) (w : Nat) (p : Piece) (q : Nat) :
    pushPiece pieces w p q = pieces q ++ if q = w then [p] else [] := by
  unfold pushPiece
  split <;> simp

theorem mem_pieceStep {bits : Nat} {ps : Nat → List Piece} {v w : Nat} {p : Piece} :
    p ∈ pieceStep bits ps v w ↔ p ∈ ps w ∨
      ((place bits v).1 = w ∧ p = ⟨v, true, (place bits v).2⟩) ∨
      (32 < (place bits v).2 + bits ∧ (place bits v).1 + 1 = w ∧
        p = ⟨v, false, 32 - (place bits v).2⟩) := by
  simp only [pieceStep, gt_iff_lt]
  split
  · next hc =>
      simp only [pushPiece_apply, List.mem_append, List.mem_ite_nil_right, List.mem_singleton, hc,
        true_and, eq_comm (a := w)]
      tauto
  · next hc =>
      simp only [pushPiece_apply, List.mem_append, List.mem_ite_nil_right, List.mem_singleton, hc,
        false_and, or_false, eq_comm (a := w)]

/-- A word's pieces are those of the values that reach into it. -/
theorem mem_pieces {bits w : Nat} {p : Piece} : p ∈ pieces bits w ↔ ∃ v < 64,
    ((place bits v).1 = w ∧ p = ⟨v, true, (place bits v).2⟩) ∨
      (32 < (place bits v).2 + bits ∧ (place bits v).1 + 1 = w ∧
        p = ⟨v, false, 32 - (place bits v).2⟩) := by
  have hupto : ∀ n, p ∈ (List.range n).foldl (pieceStep bits) (fun _ => []) w ↔ ∃ v < n,
      ((place bits v).1 = w ∧ p = ⟨v, true, (place bits v).2⟩) ∨
        (32 < (place bits v).2 + bits ∧ (place bits v).1 + 1 = w ∧
          p = ⟨v, false, 32 - (place bits v).2⟩) := by
    intro n
    induction n with
    | zero => simp
    | succ n ih =>
        rw [List.range_succ, List.foldl_append, List.foldl_cons, List.foldl_nil, mem_pieceStep, ih]
        simp only [Nat.lt_succ_iff_lt_or_eq, or_and_right, exists_or, exists_eq_left]
  exact hupto 64

theorem value_lt {bits w : Nat} {p : Piece} (h : p ∈ pieces bits w) : p.value < 64 := by
  obtain ⟨v, hv, ⟨-, rfl⟩ | ⟨-, -, rfl⟩⟩ := mem_pieces.mp h <;> exact hv

theorem amount_le {bits w : Nat} {p : Piece} (h : p ∈ pieces bits w) : p.amount ≤ 32 := by
  obtain ⟨v, hv, ⟨-, rfl⟩ | ⟨-, -, rfl⟩⟩ := mem_pieces.mp h
  · exact Nat.le_of_lt (Nat.mod_lt _ (by decide))
  · exact Nat.sub_le _ _

/-- What a piece puts into its word. -/
def Piece.part (bits : Nat) (x : Nat → Vec) (p : Piece) : Vec := fun l =>
  if p.left then (x p.value l &&& low 32 bits) <<< p.amount
  else (x p.value l &&& low 32 bits) >>> p.amount

/-- The bits of a word's pieces are what the fields leave in it. -/
theorem exists_part_iff {bits w b : Nat} (x : Nat → Vec) (l : Lane) :
    (∃ p ∈ pieces bits w, (p.part bits x l).getLsbD b = true) ↔
      ∃ v < 64, Leaves bits (fun v => x v l) w b v := by
  constructor
  · rintro ⟨p, hp, hbit⟩
    obtain ⟨v, hv, ⟨hw, rfl⟩ | ⟨hlong, hw, rfl⟩⟩ := mem_pieces.mp hp
    · exact ⟨v, hv, .inl ⟨hw, hbit⟩⟩
    · exact ⟨v, hv, .inr ⟨hlong, hw, hbit⟩⟩
  · rintro ⟨v, hv, ⟨hw, hbit⟩ | ⟨hlong, hw, hbit⟩⟩
    · exact ⟨_, mem_pieces.mpr ⟨v, hv, .inl ⟨hw, rfl⟩⟩, hbit⟩
    · exact ⟨_, mem_pieces.mpr ⟨v, hv, .inr ⟨hlong, hw, rfl⟩⟩, hbit⟩

/-- Every word is begun. -/
theorem pieces_pos {bits w : Nat} (h0 : 0 < bits) (h32 : bits ≤ 32) (hw : w < 2 * bits) :
    0 < (pieces bits w).length := by
  have hv : (32 * w + 0) / bits < 64 := field_lt hw (by decide) rfl
  rcases field_of_bit h32 h0 (w := w) (b := 0) (by decide) with h | ⟨h, hlong⟩
  · exact List.length_pos_of_mem (mem_pieces.mpr ⟨_, hv, .inl ⟨h, rfl⟩⟩)
  · exact List.length_pos_of_mem (mem_pieces.mpr ⟨_, hv, .inr ⟨hlong, h, rfl⟩⟩)

/-! ## partial words -/

/-- What the first `i` pieces put into an accumulator. -/
def gathered (bits : Nat) (x : Nat → Vec) (ps : List Piece) (way : Nat) : Nat → Vec
  | 0 => fun _ => 0
  | i + 1 =>
      if i % ways = way then
        match ps[i]? with
        | some p => fun l => gathered bits x ps way i l ||| p.part bits x l
        | none => gathered bits x ps way i
      else gathered bits x ps way i

section gathered

variable {bits : Nat} {x : Nat → Vec} {ps : List Piece} {way i : Nat}

theorem gathered_skip (h : i % ways ≠ way) :
    gathered bits x ps way (i + 1) = gathered bits x ps way i := by
  rw [gathered, if_neg h]

theorem gathered_none (h : ps[i]? = none) :
    gathered bits x ps way (i + 1) = gathered bits x ps way i := by
  rw [gathered, h]
  split <;> rfl

theorem gathered_some {p : Piece} (h : ps[i]? = some p) :
    gathered bits x ps (i % ways) (i + 1) =
      fun l => gathered bits x ps (i % ways) i l ||| p.part bits x l := by
  rw [gathered, if_pos rfl, h]

/-- The first piece of an accumulator is all of it. -/
theorem gathered_first (h : way < ways) : gathered bits x ps way way = fun _ => 0 := by
  have hall : way = 0 ∨ way = 1 := by
    unfold ways at h
    omega
  rcases hall with rfl | rfl
  · rfl
  · rw [gathered_skip (by decide)]
    rfl

theorem getLsbD_gathered (l : Lane) (b : Nat) : (gathered bits x ps way i l).getLsbD b = true ↔
    ∃ j < i, j % ways = way ∧ ∃ p, ps[j]? = some p ∧ (p.part bits x l).getLsbD b = true := by
  induction i with
  | zero => simp [gathered]
  | succ i ih =>
      have hstep : (gathered bits x ps way (i + 1) l).getLsbD b = true ↔
          (gathered bits x ps way i l).getLsbD b = true ∨
            (i % ways = way ∧ ∃ p, ps[i]? = some p ∧ (p.part bits x l).getLsbD b = true) := by
        by_cases hway : i % ways = way
        · subst hway
          cases hp : ps[i]? with
          | none => simp [gathered_none hp]
          | some p => simp [gathered_some hp]
        · simp [gathered_skip hway, hway]
      rw [hstep, ih]
      simp only [Nat.lt_succ_iff_lt_or_eq, or_and_right, exists_or, exists_eq_left]

/-- Both accumulators hold the whole word. -/
theorem getLsbD_merged (h : ps.length ≤ i) (l : Lane) (b : Nat) :
    (gathered bits x ps 0 i l ||| gathered bits x ps 1 i l).getLsbD b = true ↔
      ∃ p ∈ ps, (p.part bits x l).getLsbD b = true := by
  rw [BitVec.getLsbD_or, Bool.or_eq_true, getLsbD_gathered, getLsbD_gathered]
  constructor
  · rintro (⟨j, -, -, p, hp, hbit⟩ | ⟨j, -, -, p, hp, hbit⟩) <;>
      exact ⟨p, List.mem_of_getElem? hp, hbit⟩
  · rintro ⟨p, hp, hbit⟩
    obtain ⟨j, hj, rfl⟩ := List.mem_iff_getElem.mp hp
    have hget : ps[j]? = some ps[j] := List.getElem?_eq_getElem hj
    have hway : j % ways = 0 ∨ j % ways = 1 := Nat.mod_two_eq_zero_or_one j
    rcases hway with hway | hway
    · exact .inl ⟨j, by omega, hway, _, hget, hbit⟩
    · exact .inr ⟨j, by omega, hway, _, hget, hbit⟩

/-- A word of one piece needs no second accumulator. -/
theorem gathered_one (h : ps.length ≤ 1) : gathered bits x ps 1 i = fun _ => 0 := by
  induction i with
  | zero => rfl
  | succ i ih =>
      by_cases hi : i % ways = 1
      · have hnone : ps[i]? = none := by
          rw [List.getElem?_eq_none_iff]
          unfold ways at hi
          omega
        rw [gathered_none hnone, ih]
      · rw [gathered_skip hi, ih]

end gathered

/-! ## the registers of a group -/

theorem acc_ne {j k way way' : Nat} (hj : j < packWords) (hk : k < packWords) (hw : way < ways)
    (hw' : way' < ways) (hne : j ≠ k ∨ way ≠ way') : acc j way ≠ acc k way' := by
  unfold packWords ways at *
  exact zmm_ne (by unfold ways; omega) (by unfold ways; omega) (by unfold ways; omega)

theorem acc_ne_tmp {j k way : Nat} (hj : j < packWords) (hk : k < packWords) (hw : way < ways) :
    acc j way ≠ tmp k := by
  unfold packWords ways at *
  exact zmm_ne (by unfold ways; omega) (by unfold packWords ways; omega)
    (by unfold packWords ways; omega)

theorem packDst_ne {i j k : Nat} (hj : j < packWords) (hk : k < packWords) (hne : j ≠ k) :
    packDst i j ≠ packDst i k := by
  unfold packDst
  split
  · next hi => exact acc_ne hj hk hi hi (.inl hne)
  · unfold packWords at *
    exact zmm_ne (by unfold packWords ways; omega) (by unfold packWords ways; omega) (by omega)

theorem maskReg_ne_acc {j way : Nat} (hj : j < packWords) (hw : way < ways) :
    zmm 30 ≠ acc j way := by
  unfold packWords ways at *
  exact zmm_ne (by decide) (by unfold ways; omega) (by unfold ways; omega)

theorem maskReg_ne_packDst {i j : Nat} (hj : j < packWords) : zmm 30 ≠ packDst i j := by
  unfold packDst
  split
  · next hi => exact maskReg_ne_acc hj hi
  · unfold packWords at *
    exact zmm_ne (by decide) (by unfold packWords ways; omega) (by unfold packWords ways; omega)

/-! ## the passes over a piece of each word -/

section passes

variable (symbols : String → Nat) {bits base i : Nat} {x : Nat → Vec}

theorem groupSize_le (bits base : Nat) : groupSize bits base ≤ packWords := by
  unfold groupSize
  omega

/-- What the group is made from: the values in memory, the mask in its register. -/
structure Given (bits : Nat) (x : Nat → Vec) (m : Machine) : Prop where
  align : m.gpr .rsi % 64 = 0
  values : ∀ v < 64, vecAt m.ram (m.gpr .rsi + 64 * v) = x v
  mask : bits < 32 → m.zmm (zmm 30) = fun _ => low 32 bits

/-- A pass over the words of a group, each with its own register. -/
theorem run_words (bits base : Nat) (dst : Nat → Zmm) (lines : Nat → List Line) (val : Nat → Vec)
    (c : Nat → Prop) [DecidablePred c] {m : Machine}
    (hdst : ∀ j < packWords, ∀ k < packWords, j ≠ k → dst j ≠ dst k)
    (hskip : ∀ j, ¬ c j → lines j = [])
    (hstep : ∀ j < groupSize bits base, c j → ∀ s : Machine, s.gpr = m.gpr → s.ram = m.ram →
      (∀ r, (∀ k < packWords, k ≠ j → r ≠ dst k) → s.zmm r = m.zmm r) →
        Mvex.run symbols (lines j) s = some (s.setZmm (dst j) (val j))) :
    ∃ t, Mvex.run symbols ((List.range (groupSize bits base)).flatMap lines) m = some t ∧
      t.gpr = m.gpr ∧ t.ram = m.ram ∧
      (∀ j < groupSize bits base, t.zmm (dst j) = if c j then val j else m.zmm (dst j)) ∧
      ∀ r, (∀ j < packWords, r ≠ dst j) → t.zmm r = m.zmm r := by
  have hle := groupSize_le bits base
  obtain ⟨t, hrun, hgpr, hram, hval, hother⟩ := run_pass symbols lines dst val c (m := m)
    (List.nodup_range (n := groupSize bits base)) (fun j _ => hskip j)
    (fun j hj k hk => hdst j (Nat.lt_of_lt_of_le (List.mem_range.mp hj) hle) k
      (Nat.lt_of_lt_of_le (List.mem_range.mp hk) hle))
    (fun j hj hc s hgpr hram hsame => hstep j (List.mem_range.mp hj) hc s hgpr hram fun r hr =>
      hsame r fun k hk => hr k (Nat.lt_of_lt_of_le (List.mem_range.mp hk) hle))
  refine ⟨t, hrun, hgpr, hram, fun j hj => ?_, fun r hr => hother r fun k hk _ =>
    hr k (Nat.lt_of_lt_of_le (List.mem_range.mp hk) hle)⟩
  split
  · next hc => exact hval j (List.mem_range.mpr hj) hc
  · next hc =>
      refine hother _ fun k hk hk' => hdst j (by omega) k
        (Nat.lt_of_lt_of_le (List.mem_range.mp hk) hle) ?_
      rintro rfl
      exact hc hk'

theorem piece_mem {j : Nat} {p : Piece} (h : piece bits base i j = some p) :
    p ∈ pieces bits (base + j) := List.mem_of_getElem? h

theorem piece_of_lt {j : Nat} (h : i < (pieces bits (base + j)).length) :
    ∃ p, piece bits base i j = some p := ⟨_, List.getElem?_eq_getElem h⟩

theorem lt_of_piece {j : Nat} {p : Piece} (h : piece bits base i j = some p) :
    i < (pieces bits (base + j)).length := (List.getElem?_eq_some_iff.mp h).1

theorem run_packLoad {m : Machine} (h : Given bits x m) (base i : Nat) :
    ∃ t, Mvex.run symbols ((List.range (groupSize bits base)).flatMap (packLoad bits base i)) m =
        some t ∧ t.gpr = m.gpr ∧ t.ram = m.ram ∧
      (∀ j < groupSize bits base, ∀ p, piece bits base i j = some p →
        t.zmm (packDst i j) = x p.value) ∧
      ∀ r, (∀ j < packWords, r ≠ packDst i j) → t.zmm r = m.zmm r := by
  obtain ⟨t, hrun, hgpr, hram, hval, hother⟩ := run_words symbols bits base
    (packDst i) (packLoad bits base i)
    (fun j => (piece bits base i j).elim (fun _ => 0) fun p => x p.value)
    (fun j => (piece bits base i j).isSome) (m := m) (fun j hj k hk => packDst_ne hj hk)
    (fun j hc => by
      rw [packLoad, Option.not_isSome_iff_eq_none.mp hc])
    (by
      intro j hj hc s hgpr hram _
      obtain ⟨p, hp⟩ := Option.isSome_iff_exists.mp hc
      have hv := value_lt (piece_mem hp)
      have halign := h.align
      rw [packLoad, hp]
      dsimp only [Option.elim]
      rw [run_single symbols (exec_load symbols s (packDst i j) .rsi _ (by omega) (by
        rw [hgpr]
        omega)), hgpr, hram, h.values _ hv])
  refine ⟨t, hrun, hgpr, hram, fun j hj p hp => ?_, hother⟩
  rw [hval j hj, hp]
  rfl

theorem run_packMask (h32 : bits ≤ 32) {m : Machine} (h : Given bits x m) (i : Nat)
    (val : Nat → Vec) (hval : ∀ j < groupSize bits base, ∀ p, piece bits base i j = some p →
      m.zmm (packDst i j) = val j) :
    ∃ t, Mvex.run symbols ((List.range (groupSize bits base)).flatMap (packMask bits base i)) m =
        some t ∧ t.gpr = m.gpr ∧ t.ram = m.ram ∧
      (∀ j < groupSize bits base, ∀ p, piece bits base i j = some p →
        t.zmm (packDst i j) = fun l => val j l &&& low 32 bits) ∧
      ∀ r, (∀ j < packWords, r ≠ packDst i j) → t.zmm r = m.zmm r := by
  obtain ⟨t, hrun, hgpr, hram, hdst, hother⟩ := run_words symbols bits base
    (packDst i) (packMask bits base i) (fun j l => m.zmm (packDst i j) l &&& low 32 bits)
    (fun j => bits < 32 ∧ i < (pieces bits (base + j)).length) (m := m)
    (fun j hj k hk => packDst_ne hj hk) (fun j hc => if_neg hc)
    (by
      intro j hj hc s _ _ hsame
      have hj' := Nat.lt_of_lt_of_le hj (groupSize_le bits base)
      have hmask : s.zmm maskReg = fun _ => low 32 bits := by
        show s.zmm (zmm 30) = _
        rw [hsame _ fun k hk _ => maskReg_ne_packDst hk, h.mask hc.1]
      have hown : s.zmm (packDst i j) = m.zmm (packDst i j) :=
        hsame _ fun k hk hne => packDst_ne hj' hk hne.symm
      rw [packMask, if_pos hc, run_single symbols (exec_vpandd symbols _ _ _ s), hmask, hown])
  refine ⟨t, hrun, hgpr, hram, fun j hj p hp => ?_, hother⟩
  rw [hdst j hj, hval j hj p hp]
  split
  · rfl
  · next hc =>
      obtain rfl : bits = 32 := by
        have := lt_of_piece hp
        omega
      funext l
      exact (and_low_self _).symm

/-- How far a piece is moved. -/
def moved (bits base i j : Nat) : Nat := ((piece bits base i j).map Piece.amount).getD 0

theorem run_packShift {m : Machine} (i : Nat)
    (hval : ∀ j < groupSize bits base, ∀ p, piece bits base i j = some p →
      m.zmm (packDst i j) = fun l => x p.value l &&& low 32 bits) :
    ∃ t, Mvex.run symbols ((List.range (groupSize bits base)).flatMap (packShift bits base i)) m =
        some t ∧ t.gpr = m.gpr ∧ t.ram = m.ram ∧
      (∀ j < groupSize bits base, ∀ p, piece bits base i j = some p →
        t.zmm (packDst i j) = p.part bits x) ∧
      ∀ r, (∀ j < packWords, r ≠ packDst i j) → t.zmm r = m.zmm r := by
  obtain ⟨t, hrun, hgpr, hram, hdst, hother⟩ := run_words symbols bits base
    (packDst i) (packShift bits base i)
    (fun j => (piece bits base i j).elim (fun _ => 0) fun p => p.part bits x)
    (fun j => moved bits base i j ≠ 0) (m := m) (fun j hj k hk => packDst_ne hj hk)
    (fun j hc => by
      unfold moved at hc
      unfold packShift
      cases hp : piece bits base i j with
      | none => rfl
      | some p =>
          rw [hp] at hc
          exact if_pos (Decidable.not_not.mp hc))
    (by
      intro j hj hc s _ _ hsame
      have hj' := Nat.lt_of_lt_of_le hj (groupSize_le bits base)
      have hown : s.zmm (packDst i j) = m.zmm (packDst i j) :=
        hsame _ fun k hk hne => packDst_ne hj' hk hne.symm
      unfold moved at hc
      unfold packShift
      cases hp : piece bits base i j with
      | none => rw [hp] at hc; exact absurd rfl hc
      | some p =>
          rw [hp] at hc
          have hle := amount_le (piece_mem hp)
          rw [hval j hj p hp] at hown
          dsimp only [Option.elim]
          rw [if_neg (show p.amount ≠ 0 from hc)]
          unfold Piece.part
          split
          · rw [run_single symbols (exec_shiftLeft symbols s _ _ (by omega)), hown]
          · rw [run_single symbols (exec_shiftRight symbols s _ _ (by omega)), hown])
  refine ⟨t, hrun, hgpr, hram, fun j hj p hp => ?_, hother⟩
  rw [hdst j hj, hval j hj p hp]
  unfold moved
  rw [hp]
  split
  · rfl
  · next hc =>
      have hzero : p.amount = 0 := Decidable.not_not.mp hc
      funext l
      unfold Piece.part
      rw [hzero]
      split <;> simp

/-- The three passes that fetch piece `i` of every word. -/
theorem run_fetch (h32 : bits ≤ 32) {m : Machine} (h : Given bits x m) (base i : Nat) :
    ∃ t, Mvex.run symbols ((List.range (groupSize bits base)).flatMap (packLoad bits base i) ++
        (List.range (groupSize bits base)).flatMap (packMask bits base i) ++
        (List.range (groupSize bits base)).flatMap (packShift bits base i)) m = some t ∧
      t.gpr = m.gpr ∧ t.ram = m.ram ∧
      (∀ j < groupSize bits base, ∀ p, piece bits base i j = some p →
        t.zmm (packDst i j) = p.part bits x) ∧
      ∀ r, (∀ j < packWords, r ≠ packDst i j) → t.zmm r = m.zmm r := by
  obtain ⟨t₁, hrun₁, hgpr₁, hram₁, hval₁, hother₁⟩ :=
    run_packLoad symbols h base i
  have h₁ : Given bits x t₁ := by
    refine ⟨by rw [hgpr₁]; exact h.align, fun v hv => ?_, fun hb => ?_⟩
    · rw [hram₁, hgpr₁, h.values v hv]
    · rw [hother₁ _ fun j hj => maskReg_ne_packDst hj, h.mask hb]
  obtain ⟨t₂, hrun₂, hgpr₂, hram₂, hval₂, hother₂⟩ := run_packMask symbols h32 h₁ i
    (fun j => (piece bits base i j).elim (fun _ => 0) fun p => x p.value)
    (fun j hj p hp => by rw [hval₁ j hj p hp, hp]; rfl)
  obtain ⟨t₃, hrun₃, hgpr₃, hram₃, hval₃, hother₃⟩ := run_packShift symbols i
    (fun j hj p hp => by rw [hval₂ j hj p hp, hp]; rfl)
  refine ⟨t₃, run_append_of symbols (run_append_of symbols hrun₁ hrun₂) hrun₃,
    hgpr₃.trans (hgpr₂.trans hgpr₁), hram₃.trans (hram₂.trans hram₁), hval₃, fun r hr => ?_⟩
  rw [hother₃ r hr, hother₂ r hr, hother₁ r hr]

/-- The pass that adds the fetched pieces to their accumulators. -/
theorem run_packJoin (bits base i : Nat) (m : Machine) :
    ∃ t, Mvex.run symbols ((List.range (groupSize bits base)).flatMap (packJoin bits base i)) m =
        some t ∧ t.gpr = m.gpr ∧ t.ram = m.ram ∧
      (∀ j < groupSize bits base, t.zmm (acc j (i % ways)) =
        if ways ≤ i ∧ i < (pieces bits (base + j)).length then
          fun l => m.zmm (acc j (i % ways)) l ||| m.zmm (tmp j) l
        else m.zmm (acc j (i % ways))) ∧
      ∀ r, (∀ j < packWords, r ≠ acc j (i % ways)) → t.zmm r = m.zmm r := by
  have hway : i % ways < ways := Nat.mod_lt _ (by decide)
  refine run_words symbols bits base (fun j => acc j (i % ways)) (packJoin bits base i)
    (fun j l => m.zmm (acc j (i % ways)) l ||| m.zmm (tmp j) l)
    (fun j => ways ≤ i ∧ i < (pieces bits (base + j)).length)
    (fun j hj k hk hne => acc_ne hj hk hway hway (.inl hne)) (fun j hc => if_neg hc) ?_
  intro j hj hc s _ _ hsame
  have hj' := Nat.lt_of_lt_of_le hj (groupSize_le bits base)
  have hacc : s.zmm (acc j (i % ways)) = m.zmm (acc j (i % ways)) :=
    hsame _ fun k hk hne => acc_ne hj' hk hway hway (.inl hne.symm)
  have htmp : s.zmm (tmp j) = m.zmm (tmp j) :=
    hsame _ fun k hk _ => (acc_ne_tmp hk hj' hway).symm
  rw [packJoin, if_pos hc, run_single symbols (exec_vpord symbols _ _ _ s), hacc, htmp]

/-! ## a word from its pieces -/

/-- The accumulators of a group after `i` pieces of each word; one that has had
none yet holds anything. -/
structure Gathered (bits base : Nat) (x : Nat → Vec) (m₀ : Machine) (i : Nat) (m : Machine) :
    Prop where
  gpr : m.gpr = m₀.gpr
  ram : m.ram = m₀.ram
  mask : m.zmm (zmm 30) = m₀.zmm (zmm 30)
  accs : ∀ j < groupSize bits base, ∀ way < ways, way < i →
    way < (pieces bits (base + j)).length →
      m.zmm (acc j way) = gathered bits x (pieces bits (base + j)) way i

theorem Gathered.given {m₀ m : Machine} (h : Gathered bits base x m₀ i m)
    (hgiven : Given bits x m₀) : Given bits x m where
  align := by rw [h.gpr]; exact hgiven.align
  values v hv := by rw [h.ram, h.gpr, hgiven.values v hv]
  mask hb := by rw [h.mask, hgiven.mask hb]

/-- **Step lemma**: one more piece of each word. -/
theorem Gathered.step (h32 : bits ≤ 32) {m₀ m : Machine} (h : Gathered bits base x m₀ i m)
    (hgiven : Given bits x m₀) :
    ∃ t, Mvex.run symbols (packStep bits base i) m = some t ∧
      Gathered bits base x m₀ (i + 1) t := by
  obtain ⟨s, hfetch, hgpr, hram, hparts, hsame⟩ :=
    run_fetch symbols h32 (h.given hgiven) base i
  obtain ⟨t, hjoin, hgpr', hram', haccs, hsame'⟩ := run_packJoin symbols bits base i s
  have hway : i % ways < ways := Nat.mod_lt _ (by decide)
  refine ⟨t, run_append_of symbols hfetch hjoin, hgpr'.trans (hgpr.trans h.gpr),
    hram'.trans (hram.trans h.ram), ?_, fun j hj way hw hlt hlen => ?_⟩
  · rw [hsame' _ fun j hj => maskReg_ne_acc hj hway,
      hsame _ fun j hj => maskReg_ne_packDst hj, h.mask]
  have hj' := Nat.lt_of_lt_of_le hj (groupSize_le bits base)
  by_cases hown : i % ways = way
  · -- the accumulator whose turn it is
    subst hown
    rw [haccs j hj]
    by_cases hearly : i < ways
    · have hi : i % ways = i := Nat.mod_eq_of_lt hearly
      rw [hi] at hlen ⊢
      obtain ⟨p, hp⟩ := piece_of_lt hlen
      have hpart := hparts j hj p hp
      rw [packDst, if_pos hearly] at hpart
      have hgathered : gathered bits x _ (i % ways) (i + 1) = _ := gathered_some hp
      rw [hi, gathered_first hearly] at hgathered
      rw [if_neg (by omega), hpart, hgathered]
      funext l
      simp
    · have hkept : s.zmm (acc j (i % ways)) = m.zmm (acc j (i % ways)) := by
        refine hsame _ fun k hk => ?_
        rw [packDst, if_neg hearly]
        exact acc_ne_tmp hj' hk hway
      have hold := h.accs j hj (i % ways) hway (by omega) hlen
      split
      · next hc =>
          obtain ⟨p, hp⟩ := piece_of_lt hc.2
          have hpart := hparts j hj p hp
          rw [packDst, if_neg hearly] at hpart
          rw [gathered_some hp, hkept, hold, hpart]
      · next hc =>
          rw [gathered_none (List.getElem?_eq_none_iff.mpr (by omega)), hkept, hold]
  · -- the other one
    have hwas : way < i := by
      rcases Nat.lt_succ_iff_lt_or_eq.mp hlt with hlt | rfl
      · exact hlt
      · exact absurd (Nat.mod_eq_of_lt hw) hown
    rw [hsame' _ fun k hk => acc_ne hj' hk hw hway (.inr fun h => hown h.symm), hsame,
      h.accs j hj way hw hwas hlen, gathered_skip hown]
    intro k hk
    unfold packDst
    split
    · next hearly =>
        exact acc_ne hj' hk hw hearly (.inr fun h => hown ((Nat.mod_eq_of_lt hearly).trans h.symm))
    · exact acc_ne_tmp hj' hk hw

/-- The accumulators of a word are added up. -/
theorem run_packMerge (bits base : Nat) (m : Machine) :
    ∃ t, Mvex.run symbols ((List.range (groupSize bits base)).flatMap (packMerge bits base)) m =
        some t ∧ t.gpr = m.gpr ∧ t.ram = m.ram ∧
      (∀ j < groupSize bits base, t.zmm (acc j 0) =
        if 1 < (pieces bits (base + j)).length then
          fun l => m.zmm (acc j 0) l ||| m.zmm (acc j 1) l
        else m.zmm (acc j 0)) ∧
      ∀ r, (∀ j < packWords, r ≠ acc j 0) → t.zmm r = m.zmm r := by
  refine run_words symbols bits base (fun j => acc j 0) (packMerge bits base)
    (fun j l => m.zmm (acc j 0) l ||| m.zmm (acc j 1) l)
    (fun j => 1 < (pieces bits (base + j)).length)
    (fun j hj k hk hne => acc_ne hj hk (by decide) (by decide) (.inl hne))
    (fun j hc => if_neg hc) ?_
  intro j hj hc s _ _ hsame
  have hj' := Nat.lt_of_lt_of_le hj (groupSize_le bits base)
  have hzero : s.zmm (acc j 0) = m.zmm (acc j 0) :=
    hsame _ fun k hk hne => acc_ne hj' hk (by decide) (by decide) (.inl hne.symm)
  have hone : s.zmm (acc j 1) = m.zmm (acc j 1) :=
    hsame _ fun k hk _ => acc_ne hj' hk (by decide) (by decide) (.inr (by decide))
  rw [packMerge, if_pos hc, run_single symbols (exec_vpord symbols _ _ _ s), hzero, hone]

end passes

/-! ## the words of a group -/

section words

variable (symbols : String → Nat) {bits base : Nat} {v : Block} (h0 : 0 < bits) (h32 : bits ≤ 32)

include h0 h32

/-- A word from all its pieces is the packed one. -/
theorem merged_eq {w i : Nat} (hw : w < 2 * bits) (hi : (pieces bits w).length ≤ i) :
    (fun l => gathered bits (row v) (pieces bits w) 0 i l |||
      gathered bits (row v) (pieces bits w) 1 i l) = row (scalarPack bits v) w := by
  funext l
  apply BitVec.eq_of_getLsbD_eq
  intro b hb
  have hin : (32 * w + b) / bits < 64 := field_lt hw hb rfl
  rw [Bool.eq_iff_iff, getLsbD_merged hi l b, exists_part_iff,
    exists_leaves_iff h32 h0 hb hin, row, getLsbD_scalarPack h0 h32 l.isLt v hw hb]
  rfl

omit h0 h32 in
theorem length_le_packSteps {j : Nat} (hj : j < groupSize bits base) :
    (pieces bits (base + j)).length ≤ packSteps bits base := by
  have hfold : ∀ (l : List Nat) (n : Nat), n ≤ l.foldl max n ∧ ∀ x ∈ l, x ≤ l.foldl max n := by
    intro l
    induction l with
    | nil => simp
    | cons y l ih =>
        intro n
        obtain ⟨hinit, hmem⟩ := ih (max n y)
        refine ⟨by simp only [List.foldl_cons]; omega, fun x hx => ?_⟩
        rcases List.mem_cons.mp hx with rfl | hx
        · simp only [List.foldl_cons]
          omega
        · exact hmem x hx
  exact (hfold _ 0).2 _ (List.mem_map.mpr ⟨j, List.mem_range.mpr hj, rfl⟩)

theorem run_packGroup {m : Machine} (h : Given bits (row v) m) (halign : m.gpr .rdi % 64 = 0)
    (hbase : base ≤ 2 * bits) :
    ∃ t, Mvex.run symbols (packGroup bits base) m = some t ∧ t.gpr = m.gpr ∧
      t.zmm (zmm 30) = m.zmm (zmm 30) ∧
      Stored (m.gpr .rdi) base (groupSize bits base) (row (scalarPack bits v)) m.ram t.ram := by
  obtain ⟨s, hsteps, hall⟩ := run_loop symbols (n := packSteps bits base) (packStep bits base)
    (Gathered bits base (row v) m) (fun i _ s hs => hs.step symbols h32 h)
    ⟨rfl, rfl, rfl, fun _ _ _ _ hlt => absurd hlt (Nat.not_lt_zero _)⟩
  obtain ⟨t, hmerge, hgpr, hram, haccs, hsame⟩ := run_packMerge symbols bits base s
  have hgpr' : t.gpr = m.gpr := hgpr.trans hall.gpr
  have hin : ∀ j < groupSize bits base, base + j < 2 * bits ∧ base + j < 64 := by
    intro j hj
    unfold groupSize at hj
    omega
  have hword : ∀ j < groupSize bits base,
      t.zmm (acc j 0) = row (scalarPack bits v) (base + j) := by
    intro j hj
    have hlen := length_le_packSteps hj
    have hpos := pieces_pos h0 h32 (hin j hj).1
    have hzero := hall.accs j hj 0 (by decide) (by omega) hpos
    rw [← merged_eq h0 h32 (hin j hj).1 hlen, haccs j hj, hzero]
    split
    · next hc => rw [hall.accs j hj 1 (by decide) (by omega) hc]
    · next hc =>
        rw [gathered_one (Nat.not_lt.mp hc)]
        funext l
        simp
  have hend : base + groupSize bits base ≤ 64 := by
    unfold groupSize
    omega
  obtain ⟨u, hstore, hgpr'', hzmm, hstored⟩ := run_slots symbols (fun j => acc j 0) hend
    (by rw [hgpr']; exact halign) hword
  rw [hgpr', hram, hall.ram] at hstored
  refine ⟨u, run_append_of symbols (run_append_of symbols hsteps hmerge) hstore,
    hgpr''.trans hgpr', ?_, hstored⟩
  rw [hzmm, hsame _ fun j hj => maskReg_ne_acc hj (by decide), hall.mask]

/-- The pack kernel packs what is at `values`, in its own words and nowhere else. -/
theorem packKernel_spec {ram : Ram} {values packed : Nat} (hload : Loaded symbols bits ram)
    (hvalues : values % 64 = 0) (hpacked : packed % 64 = 0)
    (hapart : Beside values 4096 packed (128 * bits)) :
    Call symbols (packKernel bits) [(.rdi, packed), (.rsi, values)] ram
      (Stored packed 0 (2 * bits) (row (scalarPack bits (arrayAt ram values))) ram) := by
  intro m hargs hram
  have hrdi : m.gpr .rdi = packed := hargs (.rdi, packed) (by simp)
  have hrsi : m.gpr .rsi = values := hargs (.rsi, values) (by simp)
  subst hram
  obtain ⟨s, hmask, hsram, hsgpr, -, hsmask⟩ := run_maskLoad symbols hload
  have hsrdi : s.gpr .rdi = packed := (hsgpr _ (by decide)).trans hrdi
  have hsrsi : s.gpr .rsi = values := (hsgpr _ (by decide)).trans hrsi
  obtain ⟨t, hgroups, -, -, hstored⟩ := run_loop symbols
    (n := (2 * bits + packWords - 1) / packWords)
    (fun g => packGroup bits (packWords * g))
    (fun g t => t.gpr = s.gpr ∧ t.zmm (zmm 30) = s.zmm (zmm 30) ∧
      Stored packed 0 (min (packWords * g) (2 * bits))
        (row (scalarPack bits (arrayAt m.ram values))) m.ram t.ram) (m := s) (by
      rintro g hg t ⟨htgpr, htmask, htram⟩
      have hbase : packWords * g ≤ 2 * bits := by
        unfold packWords at hg ⊢
        omega
      have hgiven : Given bits (row (arrayAt m.ram values)) t := by
        refine ⟨by rw [htgpr, hsrsi]; exact hvalues, fun u hu => ?_, fun hb => ?_⟩
        · rw [htgpr, hsrsi, row_arrayAt]
          obtain h | h := hapart
          · exact htram.apart (.inl (by omega))
          · exact htram.apart (.inr (by omega))
        · rw [htmask, hsmask hb]
      obtain ⟨u, hrun, hugpr, humask, hustored⟩ :=
        run_packGroup symbols h0 h32 hgiven (by rw [htgpr, hsrdi]; exact hpacked) hbase
      refine ⟨u, hrun, hugpr.trans htgpr, humask.trans htmask, ?_⟩
      rw [htgpr, hsrdi, ← Nat.zero_add (packWords * g)] at hustored
      rw [Nat.min_eq_left hbase] at htram
      have hnext : packWords * g + groupSize bits (0 + packWords * g) =
          min (packWords * (g + 1)) (2 * bits) := by
        unfold groupSize packWords at *
        omega
      exact hnext ▸ htram.append hustored)
    ⟨rfl, rfl, by rw [hsram]; exact .none _ _ _ _⟩
  refine ⟨t, run_append_of symbols hmask hgroups, ?_⟩
  rwa [Nat.min_eq_right (by unfold packWords; omega)] at hstored

end words

end Phi.Knc
