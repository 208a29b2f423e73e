import Mathlib.Data.List.Nodup
import Mathlib.Logic.Equiv.Basic
import Phi.Lib.Circular

/-!
# Phi.Lib.Heap

Heapsort in place.

`after` says that one element belongs behind another.  A heap has at its top an
element that no other belongs behind; `siftDown` makes one of two heaps and an
element above them, and taking the top off again and again fills the cells from
the end.  What is left is the same elements, none behind one it belongs before.
-/

namespace Phi.Heap

variable {α : Type}

/-! ## the sort -/

/-- Two cells exchanged. -/
def swap (h : Nat → α) (i j : Nat) : Nat → α := h ∘ Equiv.swap i j

variable (after : α → α → Bool)

/-- The child of `root` that belongs behind the other. -/
def child (n : Nat) (h : Nat → α) (root : Nat) : Nat :=
  if 2 * root + 2 < n && after (h (2 * root + 2)) (h (2 * root + 1)) then 2 * root + 2
  else 2 * root + 1

theorem lt_child (n : Nat) (h : Nat → α) (root : Nat) : root < child after n h root := by
  unfold child
  split <;> omega

/-- The element at `root` goes down while a child belongs behind it. -/
def siftDown (n : Nat) (h : Nat → α) (root : Nat) : Nat → α :=
  if 2 * root + 1 < n then
    if after (h (child after n h root)) (h root) then
      siftDown n (swap h (child after n h root) root) (child after n h root)
    else h
  else h
termination_by n - root
decreasing_by
  have := lt_child after n h root
  omega

/-- The roots below `k`, the last one first. -/
def build (n : Nat) : Nat → (Nat → α) → Nat → α
  | 0, h => h
  | k + 1, h => build n k (siftDown after n h k)

/-- The top goes behind the heap, again and again. -/
def extract : Nat → (Nat → α) → Nat → α
  | 0, h => h
  | 1, h => h
  | k + 2, h => extract (k + 1) (siftDown after (k + 1) (swap h 0 (k + 1)) 0)

def heapsort (n : Nat) (h : Nat → α) : Nat → α :=
  if n < 2 then h else extract after n (build after n (n / 2) h)

/-! ## exchanges -/

/-- The first `n` cells hold the same elements as before, the others what they
held. -/
structure Permuted (n : Nat) (h h' : Nat → α) : Prop where
  perm : (Circular.read h' 0 n).Perm (Circular.read h 0 n)
  rest : ∀ i, n ≤ i → h' i = h i

section permuted

variable {n m : Nat} {h h' h'' : Nat → α}

theorem Permuted.refl (n : Nat) (h : Nat → α) : Permuted n h h := ⟨.refl _, fun _ _ => rfl⟩

theorem Permuted.trans (a : Permuted n h h') (b : Permuted n h' h'') : Permuted n h h'' :=
  ⟨b.perm.trans a.perm, fun i hi => (b.rest i hi).trans (a.rest i hi)⟩

theorem permuted_swap (h : Nat → α) {i j : Nat} (hi : i < n) (hj : j < n) :
    Permuted n h (swap h i j) := by
  constructor
  · have hperm : ((List.range n).map (Equiv.swap i j)).Perm (List.range n) := by
      refine (List.perm_ext_iff_of_nodup
        (List.nodup_range.map (Equiv.swap i j).injective) List.nodup_range).mpr fun k => ?_
      have hlt : ∀ k, k < n → Equiv.swap i j k < n := fun k hk => by
        rw [Equiv.swap_apply_def]
        split_ifs <;> omega
      simp only [List.mem_map, List.mem_range]
      constructor
      · rintro ⟨l, hl, rfl⟩
        exact hlt l hl
      · exact fun hk => ⟨Equiv.swap i j k, hlt k hk, Equiv.swap_apply_self i j k⟩
    have hmap := hperm.map h
    rw [List.map_map] at hmap
    simpa [Circular.read, swap, Function.comp_def] using hmap
  · intro k hk
    exact congrArg h (Equiv.swap_apply_of_ne_of_ne (by omega) (by omega))

/-- Cells past the permuted ones may be counted in. -/
theorem Permuted.mono (a : Permuted m h h') (hm : m ≤ n) : Permuted n h h' := by
  refine ⟨?_, fun i hi => a.rest i (by omega)⟩
  obtain ⟨d, rfl⟩ := Nat.exists_eq_add_of_le hm
  rw [Circular.read_append, Circular.read_append]
  refine a.perm.append (.of_eq (Circular.read_congr fun k _ => a.rest _ ?_))
  omega

/-- Each element was in one of the cells before. -/
theorem Permuted.from (a : Permuted n h h') {i : Nat} (hi : i < n) : ∃ j < n, h' i = h j := by
  have hmem : h' i ∈ Circular.read h' 0 n := by
    simp only [Circular.read, List.mem_map, List.mem_range]
    exact ⟨i, hi, by rw [Nat.zero_add]⟩
  have hmem' := a.perm.mem_iff.mp hmem
  simp only [Circular.read, List.mem_map, List.mem_range, Nat.zero_add] at hmem'
  obtain ⟨j, hj, heq⟩ := hmem'
  exact ⟨j, hj, heq.symm⟩

end permuted

/-- `after` is the order of a key, ties left open. -/
structure Ordering : Prop where
  asymm : ∀ {a b}, after a b = true → after b a = false
  trans : ∀ {a b c}, after a b = false → after b c = false → after a c = false

variable {after}

theorem Ordering.self (ho : Ordering after) (a : α) : after a a = false := by
  cases ha : after a a with
  | false => rfl
  | true => exact ha.symm.trans (ho.asymm ha)

theorem child_lt {n root : Nat} (h : Nat → α) (hr : 2 * root + 1 < n) :
    child after n h root < n := by
  unfold child
  split
  · next hc =>
      simp only [Bool.and_eq_true, decide_eq_true_eq] at hc
      omega
  · exact hr

theorem siftDown_permuted (n : Nat) (h : Nat → α) (root : Nat) :
    Permuted n h (siftDown after n h root) := by
  induction h, root using siftDown.induct after n with
  | case1 h root hr hafter ih =>
      rw [siftDown, if_pos hr, if_pos hafter]
      exact (permuted_swap h (child_lt h hr) (by omega)).trans ih
  | case2 h root hr hafter =>
      rw [siftDown, if_pos hr, if_neg hafter]
      exact .refl _ _
  | case3 h root hr =>
      rw [siftDown, if_neg hr]
      exact .refl _ _

theorem build_permuted (n k : Nat) (h : Nat → α) : Permuted n h (build after n k h) := by
  induction k generalizing h with
  | zero => exact .refl _ _
  | succ k ih => exact (siftDown_permuted n h k).trans (ih _)

theorem extract_permuted (n : Nat) (h : Nat → α) : Permuted n h (extract after n h) := by
  induction n using Nat.strongRecOn generalizing h with
  | ind n ih =>
      match n with
      | 0 => exact .refl _ _
      | 1 => exact .refl _ _
      | k + 2 =>
          rw [extract]
          have hswap := permuted_swap h (n := k + 2) (show 0 < k + 2 by omega)
            (show k + 1 < k + 2 by omega)
          have hsift : Permuted (k + 2) (swap h 0 (k + 1))
              (siftDown after (k + 1) (swap h 0 (k + 1)) 0) :=
            (siftDown_permuted (k + 1) _ 0).mono (Nat.le_succ _)
          exact (hswap.trans hsift).trans ((ih (k + 1) (by omega) _).mono (Nat.le_succ _))

/-! ## heaps -/

/-- Of the first `n` cells none that has a parent from `lo` on belongs behind
it. -/
def HeapFrom (after : α → α → Bool) (lo n : Nat) (h : Nat → α) : Prop :=
  ∀ j, 0 < j → j < n → lo ≤ (j - 1) / 2 → after (h j) (h ((j - 1) / 2)) = false

/-- All but the children of `root` are in order, and they are with its parent. -/
structure Sifting (after : α → α → Bool) (lo n : Nat) (h : Nat → α) (root : Nat) : Prop where
  except : ∀ j, 0 < j → j < n → lo ≤ (j - 1) / 2 → (j - 1) / 2 ≠ root →
    after (h j) (h ((j - 1) / 2)) = false
  grand : 0 < root → lo ≤ (root - 1) / 2 → ∀ c, 0 < c → c < n → (c - 1) / 2 = root →
    after (h c) (h ((root - 1) / 2)) = false

section heaps

variable {lo n root : Nat} {h : Nat → α}

theorem child_parent (n : Nat) (h : Nat → α) (root : Nat) :
    (child after n h root - 1) / 2 = root := by
  unfold child
  split <;> omega

/-- No child belongs behind the one that is chosen. -/
theorem child_last (ho : Ordering after) {c : Nat} (hc : 0 < c) (hn : c < n)
    (hp : (c - 1) / 2 = root) : after (h c) (h (child after n h root)) = false := by
  have hcases : c = 2 * root + 1 ∨ c = 2 * root + 2 := by omega
  unfold child
  split
  · next h2 =>
      simp only [Bool.and_eq_true, decide_eq_true_eq] at h2
      rcases hcases with rfl | rfl
      · exact ho.asymm h2.2
      · exact ho.self _
  · next h2 =>
      rcases hcases with rfl | rfl
      · exact ho.self _
      · simpa [hn] using h2

theorem swap_left (h : Nat → α) (i j : Nat) : swap h i j i = h j :=
  congrArg h (Equiv.swap_apply_left i j)

theorem swap_right (h : Nat → α) (i j : Nat) : swap h i j j = h i :=
  congrArg h (Equiv.swap_apply_right i j)

theorem swap_of_ne (h : Nat → α) {i j k : Nat} (hi : k ≠ i) (hj : k ≠ j) : swap h i j k = h k :=
  congrArg h (Equiv.swap_apply_of_ne_of_ne hi hj)

/-- One step down. -/
theorem Sifting.step (ho : Ordering after) (hs : Sifting after lo n h root)
    (hr : 2 * root + 1 < n) (hlo : lo ≤ root)
    (hafter : after (h (child after n h root)) (h root) = true) :
    Sifting after lo n (swap h (child after n h root) root) (child after n h root) := by
  have hgt := lt_child after n h root
  have hlt : child after n h root < n := child_lt h hr
  have hpar : (child after n h root - 1) / 2 = root := child_parent n h root
  have hlast : ∀ j, 0 < j → j < n → (j - 1) / 2 = root →
      after (h j) (h (child after n h root)) = false := fun j hj hn hp => child_last ho hj hn hp
  generalize child after n h root = c at *
  constructor
  · intro j hj hjn hjlo hjc
    by_cases hjeq : j = c
    · rw [hjeq, hpar, swap_left, swap_right]
      exact ho.asymm hafter
    · by_cases hjp : (j - 1) / 2 = root
      · rw [hjp, swap_right, swap_of_ne h hjeq (by omega)]
        exact hlast j hj hjn hjp
      · by_cases hjr : j = root
        · rw [hjr, swap_right, swap_of_ne h (by omega) (by omega)]
          exact hs.grand (by omega) (by omega) c (by omega) hlt hpar
        · rw [swap_of_ne h hjeq hjr, swap_of_ne h hjc hjp]
          exact hs.except j hj hjn hjlo hjp
  · intro _ _ d hd hdn hdc
    rw [hpar, swap_right, swap_of_ne h (by omega) (by omega), ← hdc]
    exact hs.except d hd hdn (by omega) (by omega)

/-- Where the element stops, all is in order. -/
theorem Sifting.stop (hs : Sifting after lo n h root)
    (hstop : ∀ c, 0 < c → c < n → (c - 1) / 2 = root → after (h c) (h root) = false) :
    HeapFrom after lo n h := by
  intro j hj hjn hjlo
  by_cases hp : (j - 1) / 2 = root
  · rw [hp]
    exact hstop j hj hjn hp
  · exact hs.except j hj hjn hjlo hp

theorem siftDown_heap (ho : Ordering after) (hlo : lo ≤ root)
    (hs : Sifting after lo n h root) : HeapFrom after lo n (siftDown after n h root) := by
  induction h, root using siftDown.induct after n with
  | case1 h root hr hafter ih =>
      rw [siftDown, if_pos hr, if_pos hafter]
      have := lt_child after n h root
      exact ih (by omega) (hs.step ho hr hlo hafter)
  | case2 h root hr hafter =>
      rw [siftDown, if_pos hr, if_neg hafter]
      exact hs.stop fun c hc hn hp =>
        ho.trans (child_last ho hc hn hp) (eq_false_of_ne_true hafter)
  | case3 h root hr =>
      rw [siftDown, if_neg hr]
      exact hs.stop fun c hc hn hp => by omega

/-- The roots below `k` made heaps over heaps. -/
theorem build_heap (ho : Ordering after) {k : Nat} (hh : HeapFrom after k n h) :
    HeapFrom after 0 n (build after n k h) := by
  induction k generalizing h with
  | zero => exact hh
  | succ k ih =>
      refine ih (siftDown_heap ho (Nat.le_refl k) ⟨fun j hj hn hlo hne => ?_, fun hk hlo => ?_⟩)
      · exact hh j hj hn (by omega)
      · omega

/-- No element of a heap belongs behind its top. -/
theorem HeapFrom.top (ho : Ordering after) (hh : HeapFrom after 0 n h) {j : Nat} (hj : j < n)
    (hself : after (h 0) (h 0) = false) : after (h j) (h 0) = false := by
  induction j using Nat.strongRecOn with
  | ind j ih =>
      rcases Nat.eq_zero_or_pos j with rfl | hpos
      · exact hself
      · exact ho.trans (hh j hpos hj (Nat.zero_le _)) (ih _ (by omega) (by omega))

/-! ## the order at the end -/

/-- The heap in the first `k` cells, and behind it the elements taken off: none
belongs behind a later one, nor does any of the heap behind one of them. -/
structure Extracting (after : α → α → Bool) (n k : Nat) (h : Nat → α) : Prop where
  heap : HeapFrom after 0 k h
  behind : ∀ i j, i < k → k ≤ j → j < n → after (h i) (h j) = false
  sorted : ∀ i j, k ≤ i → i < j → j < n → after (h i) (h j) = false

/-- The top taken off. -/
theorem Extracting.step (ho : Ordering after) {k : Nat}
    (he : Extracting after n (k + 2) h) :
    Extracting after n (k + 1) (siftDown after (k + 1) (swap h 0 (k + 1)) 0) := by
  have hperm : Permuted (k + 1) (swap h 0 (k + 1)) (siftDown after (k + 1) (swap h 0 (k + 1)) 0) :=
    siftDown_permuted _ _ _
  -- what is in the heap now was in it before
  have hold : ∀ i < k + 1, ∃ j < k + 2, siftDown after (k + 1) (swap h 0 (k + 1)) 0 i = h j := by
    intro i hi
    obtain ⟨j, hj, heq⟩ := hperm.from hi
    obtain ⟨l, hl, heq'⟩ := (permuted_swap h (show 0 < k + 2 by omega)
      (show k + 1 < k + 2 by omega)).from (show j < k + 2 by omega)
    exact ⟨l, hl, heq.trans heq'⟩
  have hlast : siftDown after (k + 1) (swap h 0 (k + 1)) 0 (k + 1) = h 0 :=
    (hperm.rest _ (Nat.le_refl _)).trans (swap_right h 0 (k + 1))
  have hrest : ∀ j, k + 2 ≤ j → siftDown after (k + 1) (swap h 0 (k + 1)) 0 j = h j := fun j hj =>
    (hperm.rest j (by omega)).trans (swap_of_ne h (by omega) (by omega))
  refine ⟨?_, ?_, ?_⟩
  · refine siftDown_heap ho (Nat.zero_le _) ⟨fun j hj hjn _ hne => ?_, fun h0 => ?_⟩
    swap
    · exact absurd h0 (Nat.lt_irrefl 0)
    rw [swap_of_ne h (by omega) (by omega), swap_of_ne h (by omega) (by omega)]
    exact he.heap j hj (by omega) (Nat.zero_le _)
  · intro i j hi hj hjn
    obtain ⟨l, hl, heq⟩ := hold i hi
    rw [heq]
    rcases Nat.eq_or_lt_of_le hj with rfl | hj
    · rw [hlast]
      exact he.heap.top ho hl (ho.self _)
    · rw [hrest j hj]
      exact he.behind l j hl hj hjn
  · intro i j hi hij hjn
    rw [hrest j (by omega)]
    rcases Nat.eq_or_lt_of_le hi with rfl | hi
    · rw [hlast]
      exact he.behind 0 j (by omega) (by omega) hjn
    · rw [hrest i hi]
      exact he.sorted i j hi hij hjn

theorem extract_sorted (ho : Ordering after) {k : Nat} (hk : k ≤ n)
    (he : Extracting after n k h) {i j : Nat} (hij : i < j) (hj : j < n) :
    after (extract after k h i) (extract after k h j) = false := by
  induction k using Nat.strongRecOn generalizing h with
  | ind k ih =>
      match k with
      | 0 => exact he.sorted i j (Nat.zero_le _) hij hj
      | 1 =>
          rcases Nat.eq_zero_or_pos i with rfl | hi
          · exact he.behind 0 j (by omega) hij hj
          · exact he.sorted i j hi hij hj
      | k + 2 => exact ih (k + 1) (by omega) (by omega) (he.step ho)

end heaps

/-- The sort rearranges the first `n` cells so that none belongs behind a later
one. -/
theorem heapsort_spec (ho : Ordering after) (n : Nat) (h : Nat → α) :
    Permuted n h (heapsort after n h) ∧
      (Circular.read (heapsort after n h) 0 n).Pairwise fun a b => after a b = false := by
  have hsorted : ∀ i j, i < j → j < n →
      after (heapsort after n h i) (heapsort after n h j) = false := by
    intro i j hij hj
    rw [heapsort, if_neg (by omega)]
    have hhalf : HeapFrom after (n / 2) n h := fun j hj hjn hlo => by omega
    exact extract_sorted ho (Nat.le_refl n)
      ⟨build_heap ho hhalf, fun i j _ hj hjn => by omega, fun i j hi _ hjn => by omega⟩ hij hj
  constructor
  · unfold heapsort
    split
    · exact .refl _ _
    · exact (build_permuted n (n / 2) h).trans (extract_permuted n _)
  · rw [List.pairwise_iff_getElem]
    intro i j hi hj hij
    simp only [Circular.read, List.getElem_map, List.getElem_range, Nat.zero_add]
    exact hsorted i j hij (by simpa using hj)

end Phi.Heap
