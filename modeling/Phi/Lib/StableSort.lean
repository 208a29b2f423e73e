import Phi.Lib.Circular

/-!
# Phi.Lib.StableSort

Sorting positions by a key, stably.

A stable sort of the positions `0 .. n` by a comparison of what stands there is
a sort by the pair of that and the position, which no two share.  `Lex` is that
order.  Merging two runs, the left one's positions all smaller, with ties to the
left keeps it (`merge_lex`), and of a list sorted by it `keepLast` keeps, of the
positions that compare equal, the last one.
-/

namespace Phi.StableSort

/-- A comparison of positions that is a strict weak order. -/
structure Weak (below : Nat → Nat → Bool) : Prop where
  asymm : ∀ {i j}, below i j = true → below j i = false
  trans : ∀ {i j k}, below i j = false → below j k = false → below i k = false

/-- By what stands there, then by position. -/
def Lex (below : Nat → Nat → Bool) (i j : Nat) : Prop :=
  below i j = true ∨ (below j i = false ∧ i < j)

section order

variable {below : Nat → Nat → Bool}

theorem Weak.below_of_not (hw : Weak below) {i j k : Nat} (h : below i j = true)
    (hkj : below k j = false) : below i k = true := by
  by_cases hik : below i k = true
  · exact hik
  · exact absurd h (by simp [hw.trans (eq_false_of_ne_true hik) hkj])

theorem Weak.below_of_not_left (hw : Weak below) {i j k : Nat} (hji : below j i = false)
    (h : below j k = true) : below i k = true := by
  by_cases hik : below i k = true
  · exact hik
  · exact absurd h (by simp [hw.trans hji (eq_false_of_ne_true hik)])

theorem Lex.not_below (hw : Weak below) {i j : Nat} (h : Lex below i j) : below j i = false := by
  obtain h | h := h
  · exact hw.asymm h
  · exact h.1

theorem Lex.trans (hw : Weak below) {i j k : Nat} (hij : Lex below i j) (hjk : Lex below j k) :
    Lex below i k := by
  obtain hij | ⟨hji, hlt⟩ := hij
  · exact .inl (hw.below_of_not hij (hjk.not_below hw))
  · obtain hjk | ⟨hkj, hlt'⟩ := hjk
    · exact .inl (hw.below_of_not_left hji hjk)
    · exact .inr ⟨hw.trans hkj hji, Nat.lt_trans hlt hlt'⟩

/-- Merging with ties to the left keeps the order. -/
theorem merge_lex (hw : Weak below) {xs ys : List Nat} (hx : xs.Pairwise (Lex below))
    (hy : ys.Pairwise (Lex below)) (hlt : ∀ x ∈ xs, ∀ y ∈ ys, x < y) :
    (xs.merge ys fun i j => !below j i).Pairwise (Lex below) := by
  induction xs generalizing ys with
  | nil => simpa using hy
  | cons x xs ihx =>
      induction ys with
      | nil => simpa using hx
      | cons y ys ihy =>
          rw [List.cons_merge_cons]
          by_cases hyx : below y x = true
          · have hhead : Lex below y x := .inl hyx
            rw [if_neg (by simp [hyx])]
            refine List.pairwise_cons.mpr ⟨fun z hz => ?_, ihy hy.tail fun a ha b hb =>
              hlt a ha b (List.mem_cons_of_mem y hb)⟩
            rcases List.mem_merge.mp hz with hz | hz
            · rcases List.mem_cons.mp hz with rfl | hz
              · exact hhead
              · exact hhead.trans hw (List.rel_of_pairwise_cons hx hz)
            · exact List.rel_of_pairwise_cons hy hz
          · have hhead : Lex below x y := .inr
              ⟨eq_false_of_ne_true hyx, hlt x List.mem_cons_self y List.mem_cons_self⟩
            rw [if_pos (by simpa using hyx)]
            refine List.pairwise_cons.mpr ⟨fun z hz => ?_, ihx hx.tail hy fun a ha b hb =>
              hlt a (List.mem_cons_of_mem x ha) b hb⟩
            rcases List.mem_merge.mp hz with hz | hz
            · exact List.rel_of_pairwise_cons hx hz
            · rcases List.mem_cons.mp hz with rfl | hz
              · exact hhead
              · exact hhead.trans hw (List.rel_of_pairwise_cons hy hz)

end order

/-! ## runs of an area -/

/-- The cells from `a` to `b` hold these positions, sorted. -/
structure Sorted (below : Nat → Nat → Bool) (f : Nat → Nat) (a b : Nat) : Prop where
  perm : (Circular.read f a (b - a)).Perm (List.range' a (b - a))
  lex : (Circular.read f a (b - a)).Pairwise (Lex below)

/-- Every run of so many cells below `n` is sorted. -/
def Runs (below : Nat → Nat → Bool) (f : Nat → Nat) (width n : Nat) : Prop :=
  ∀ a, width ∣ a → a < n → Sorted below f a (min (a + width) n)

section runs

variable {below : Nat → Nat → Bool}

theorem Sorted.congr {f g : Nat → Nat} {a b : Nat} (h : Sorted below f a b)
    (hfg : ∀ i, a ≤ i → i < b → g i = f i) : Sorted below g a b := by
  have hread : Circular.read g a (b - a) = Circular.read f a (b - a) :=
    Circular.read_congr fun k hk => hfg (a + k) (by omega) (by omega)
  exact ⟨hread ▸ h.perm, hread ▸ h.lex⟩

theorem sorted_empty {f : Nat → Nat} (a : Nat) : Sorted below f a a := by
  constructor <;> simp

/-- Two runs merged. -/
theorem Sorted.merge (hw : Weak below) {f g : Nat → Nat} {a m b : Nat} (ham : a ≤ m) (hmb : m ≤ b)
    (hl : Sorted below f a m) (hr : Sorted below f m b)
    (hg : Circular.read g a (b - a) =
      (Circular.read f a (m - a)).merge (Circular.read f m (b - m)) fun i j => !below j i) :
    Sorted below g a b := by
  constructor
  · have hcut : List.range' a (b - a) = List.range' a (m - a) ++ List.range' m (b - m) := by
      have hrange := List.range'_append_1 (s := a) (m := m - a) (n := b - m)
      rw [Nat.add_sub_cancel' ham, show m - a + (b - m) = b - a by omega] at hrange
      exact hrange.symm
    rw [hg, hcut]
    exact (List.merge_perm_append _).trans (hl.perm.append hr.perm)
  · rw [hg]
    refine merge_lex hw hl.lex hr.lex fun x hx y hy => ?_
    have hxm := List.mem_range'_1.mp (hl.perm.mem_iff.mp hx)
    have hym := List.mem_range'_1.mp (hr.perm.mem_iff.mp hy)
    omega

/-- A cell by itself. -/
theorem runs_one {f : Nat → Nat} {n : Nat} (h : ∀ i < n, f i = i) : Runs below f 1 n := by
  intro a _ ha
  have hmin : min (a + 1) n - a = 1 := by omega
  have hread : Circular.read f a 1 = [a] := by simp [Circular.read, h a ha]
  constructor <;> rw [hmin, hread]
  · exact List.Perm.refl _
  · exact List.pairwise_singleton _ _

end runs

/-! ## the last of each -/

/-- Of positions that compare the same in a row, the last. -/
def keepLast (same : Nat → Nat → Bool) : List Nat → List Nat
  | [] => []
  | [i] => [i]
  | i :: j :: l => if same i j = true then keepLast same (j :: l) else i :: keepLast same (j :: l)

theorem keepLast_sublist (same : Nat → Nat → Bool) (l : List Nat) :
    (keepLast same l).Sublist l := by
  fun_induction keepLast same l with
  | case1 => exact List.Sublist.refl _
  | case2 i => exact List.Sublist.refl _
  | case3 i j l _ ih => exact ih.cons i
  | case4 i j l _ ih => exact ih.cons_cons i

section last

variable {below same : Nat → Nat → Bool}

theorem below_head (hw : Weak below)
    (hsame : ∀ i j, same i j = true ↔ below i j = false ∧ below j i = false) {i j : Nat}
    {l : List Nat} (h : (i :: j :: l).Pairwise (Lex below)) (hij : ¬ same i j = true) :
    ∀ y ∈ j :: l, below i y = true := by
  have hlex : Lex below i j := List.rel_of_pairwise_cons h List.mem_cons_self
  have hbelow : below i j = true := by
    by_cases hb : below i j = true
    · exact hb
    · exact absurd ((hsame i j).mpr ⟨eq_false_of_ne_true hb, hlex.not_below hw⟩) hij
  intro y hy
  rcases List.mem_cons.mp hy with rfl | hy
  · exact hbelow
  · exact hw.below_of_not hbelow
      (Lex.not_below hw (List.rel_of_pairwise_cons h.tail hy))

/-- What is kept: the positions that no larger one compares the same to. -/
theorem mem_keepLast (hw : Weak below)
    (hsame : ∀ i j, same i j = true ↔ below i j = false ∧ below j i = false) {l : List Nat}
    (h : l.Pairwise (Lex below)) (x : Nat) :
    x ∈ keepLast same l ↔ x ∈ l ∧ ∀ y ∈ l, same x y = true → y ≤ x := by
  fun_induction keepLast same l with
  | case1 => simp
  | case2 i =>
      simp only [List.mem_singleton, forall_eq]
      exact ⟨fun hx => ⟨hx, fun _ => Nat.le_of_eq hx.symm⟩, fun hx => hx.1⟩
  | case3 i j l hij ih =>
      have hlex : ∀ y ∈ j :: l, Lex below i y := fun y hy => List.rel_of_pairwise_cons h hy
      have hlt : i < j := by
        obtain hb | hb := hlex j List.mem_cons_self
        · exact absurd hb (by simp [((hsame i j).mp hij).1])
        · exact hb.2
      rw [ih h.tail]
      constructor
      · rintro ⟨hx, hmax⟩
        refine ⟨List.mem_cons_of_mem i hx, fun y hy hxy => ?_⟩
        rcases List.mem_cons.mp hy with rfl | hy
        · obtain hb | hb := hlex x hx
          · exact absurd hb (by simp [((hsame x y).mp hxy).2])
          · exact Nat.le_of_lt hb.2
        · exact hmax y hy hxy
      · rintro ⟨hx, hmax⟩
        refine ⟨?_, fun y hy => hmax y (List.mem_cons_of_mem i hy)⟩
        rcases List.mem_cons.mp hx with rfl | hx
        · exact absurd (hmax j (List.mem_cons_of_mem _ List.mem_cons_self) hij)
            (Nat.not_le_of_lt hlt)
        · exact hx
  | case4 i j l hij ih =>
      have hbelow := below_head hw hsame h hij
      rw [List.mem_cons, ih h.tail]
      constructor
      · rintro (rfl | ⟨hx, hmax⟩)
        · refine ⟨List.mem_cons_self, fun y hy hxy => ?_⟩
          rcases List.mem_cons.mp hy with rfl | hy
          · exact Nat.le_refl _
          · exact absurd (hbelow y hy) (by simp [((hsame x y).mp hxy).1])
        · refine ⟨List.mem_cons_of_mem i hx, fun y hy hxy => ?_⟩
          rcases List.mem_cons.mp hy with rfl | hy
          · exact absurd (hbelow x hx) (by simp [((hsame x y).mp hxy).2])
          · exact hmax y hy hxy
      · rintro ⟨hx, hmax⟩
        rcases List.mem_cons.mp hx with rfl | hx
        · exact .inl rfl
        · exact .inr ⟨hx, fun y hy => hmax y (List.mem_cons_of_mem i hy)⟩

/-- What is kept compares strictly. -/
theorem keepLast_pairwise (hw : Weak below)
    (hsame : ∀ i j, same i j = true ↔ below i j = false ∧ below j i = false) {l : List Nat}
    (h : l.Pairwise (Lex below)) :
    (keepLast same l).Pairwise fun i j => below i j = true := by
  fun_induction keepLast same l with
  | case1 => exact .nil
  | case2 i => exact List.pairwise_singleton _ _
  | case3 i j l _ ih => exact ih h.tail
  | case4 i j l hij ih =>
      refine List.pairwise_cons.mpr ⟨fun y hy => ?_, ih h.tail⟩
      exact below_head hw hsame h hij y ((mem_keepLast hw hsame h.tail y).mp hy).1

end last

end Phi.StableSort
