import Phi.Lib.Circular

/-!
# Phi.Lib.Keyed

Tables of records with a key, in an array: binary search and insertion sort.

`find_spec`: in a table that is sorted by its keys the search finds a record
exactly if there is one.  `insertionSort_spec`: the sort rearranges the first
`n` records in the order of their keys.
-/

namespace Phi.Keyed

variable {α : Type} (key : α → Nat)

/-! ## the code -/

/-- The record with the key `k` from `lo` to `hi`. -/
def find (m : Nat → α) (k lo hi : Nat) : Option α :=
  if lo < hi then
    let mid := (lo + hi) / 2
    if key (m mid) = k then some (m mid)
    else if key (m mid) < k then find m k (mid + 1) hi
    else find m k lo mid
  else none
termination_by hi - lo

/-- `x` put into the first `j + 1` places, those with a larger key moved up. -/
def sink (x : α) : Nat → (Nat → α) → Nat → α
  | 0, m => fun i => if i = 0 then x else m i
  | j + 1, m =>
      if key (m j) ≤ key x then fun i => if i = j + 1 then x else m i
      else sink x j fun i => if i = j + 1 then m j else m i

/-- The records from `i` on put into their places, with `k` to go. -/
def sortFrom : Nat → Nat → (Nat → α) → Nat → α
  | 0, _, m => m
  | k + 1, i, m => sortFrom k (i + 1) (sink key (m i) i m)

def insertionSort (n : Nat) (m : Nat → α) : Nat → α := sortFrom key (n - 1) 1 m

/-! ## the search -/

/-- What the search finds is there; what it does not find is not. -/
theorem find_between {m : Nat → α} (k lo hi : Nat)
    (hs : ∀ i j, lo ≤ i → i < j → j < hi → key (m i) < key (m j)) :
    match find key m k lo hi with
    | some x => ∃ i, lo ≤ i ∧ i < hi ∧ x = m i ∧ key x = k
    | none => ∀ i, lo ≤ i → i < hi → key (m i) ≠ k := by
  fun_induction find key m k lo hi with
  | case1 lo hi hlt mid heq =>
      exact ⟨mid, by omega, by omega, rfl, heq⟩
  | case2 lo hi hlt mid hne hless ih =>
      have hrest := ih fun i j hi' hij hj => hs i j (by omega) hij hj
      split at hrest
      · obtain ⟨i, hlo, hhi, hx, hk⟩ := hrest
        exact ⟨i, by omega, hhi, hx, hk⟩
      · intro i hlo hhi
        rcases Nat.lt_trichotomy i mid with him | rfl | him
        · have := hs i mid hlo him (by omega)
          omega
        · exact hne
        · exact hrest i him hhi
  | case3 lo hi hlt mid hne hless ih =>
      have hrest := ih fun i j hi' hij hj => hs i j hi' hij (by omega)
      split at hrest
      · obtain ⟨i, hlo, hhi, hx, hk⟩ := hrest
        exact ⟨i, hlo, by omega, hx, hk⟩
      · intro i hlo hhi
        rcases Nat.lt_trichotomy i mid with him | rfl | him
        · exact hrest i hlo him
        · exact hne
        · have := hs mid i (by omega) him hhi
          omega
  | case4 lo hi hlt =>
      intro i hlo hhi
      omega

/-- The search in a sorted table. -/
theorem find_spec {m : Nat → α} {n : Nat}
    (hs : (Circular.read m 0 n).Pairwise fun a b => key a < key b) (k : Nat) (x : α) :
    find key m k 0 n = some x ↔ x ∈ Circular.read m 0 n ∧ key x = k := by
  have hcells : ∀ i j, i < j → j < n → key (m i) < key (m j) := fun i j hij hj => by
    have h := List.pairwise_iff_getElem.1 hs i j (by simpa using Nat.lt_trans hij hj)
      (by simpa using hj) hij
    simpa [Circular.read] using h
  have hfind := find_between key k 0 n fun i j _ hij hj => hcells i j hij hj
  have hmem : ∀ y, y ∈ Circular.read m 0 n ↔ ∃ i < n, m i = y := fun y => by
    simp [Circular.read]
  rw [hmem]
  cases hf : find key m k 0 n with
  | none =>
      rw [hf] at hfind
      constructor
      · intro h
        cases h
      · rintro ⟨⟨i, hi, rfl⟩, hk⟩
        exact absurd hk (hfind i (Nat.zero_le i) hi)
  | some y =>
      rw [hf] at hfind
      obtain ⟨i, -, hi, rfl, hk⟩ := hfind
      constructor
      · intro h
        obtain rfl := Option.some.inj h
        exact ⟨⟨i, hi, rfl⟩, hk⟩
      · rintro ⟨⟨j, hj, rfl⟩, hk'⟩
        rcases Nat.lt_trichotomy i j with hij | rfl | hij
        · have := hcells i j hij hj
          omega
        · rfl
        · have := hcells j i hij hi
          omega

/-! ## the sort -/

/-- In the order of the keys. -/
def Ascending (xs : List α) : Prop := xs.Pairwise fun a b => key a ≤ key b

theorem read_succ (m : Nat → α) (n : Nat) :
    Circular.read m 0 (n + 1) = Circular.read m 0 n ++ [m n] := by
  rw [Circular.read_append, Nat.zero_add]
  rfl

/-- A record put into its place. -/
theorem sink_spec (x : α) (j : Nat) (m : Nat → α) (hs : Ascending key (Circular.read m 0 j)) :
    (Circular.read (sink key x j m) 0 (j + 1)).Perm (x :: Circular.read m 0 j) ∧
      Ascending key (Circular.read (sink key x j m) 0 (j + 1)) ∧
      ∀ i, j < i → sink key x j m i = m i := by
  induction j generalizing m with
  | zero =>
      refine ⟨?_, ?_, fun i hi => ?_⟩
      · simp [Circular.read, sink]
      · simp [Circular.read, sink, Ascending]
      · exact if_neg (by omega)
  | succ j ih =>
      have hkeep : ∀ y, Circular.read (fun i => if i = j + 1 then y else m i) 0 j =
          Circular.read m 0 j := fun y =>
        Circular.read_congr fun i hi => if_neg (by omega)
      have hcut : Ascending key (Circular.read m 0 j) := by
        rw [read_succ] at hs
        exact (List.pairwise_append.1 hs).1
      have hlast : ∀ y ∈ Circular.read m 0 j, key y ≤ key (m j) := by
        rw [read_succ] at hs
        exact fun y hy => (List.pairwise_append.1 hs).2.2 y hy (m j) (List.mem_singleton_self _)
      rw [sink]
      split
      · next hle =>
          have hread : Circular.read (fun i => if i = j + 1 then x else m i) 0 (j + 1) =
              Circular.read m 0 (j + 1) :=
            Circular.read_congr fun i hi => if_neg (by omega)
          rw [read_succ, hread, if_pos rfl]
          refine ⟨List.perm_append_singleton _ _, ?_, fun i hi => if_neg (by omega)⟩
          refine List.pairwise_append.2 ⟨hs, List.pairwise_singleton _ _, fun y hy z hz => ?_⟩
          obtain rfl := List.mem_singleton.1 hz
          rw [read_succ] at hy
          rcases List.mem_append.1 hy with hy | hy
          · exact Nat.le_trans (hlast y hy) hle
          · obtain rfl := List.mem_singleton.1 hy
            exact hle
      · next hgt =>
          obtain ⟨hperm, hasc, hrest⟩ := ih (fun i => if i = j + 1 then m j else m i)
            (by rw [hkeep]; exact hcut)
          rw [hkeep] at hperm
          have htop : sink key x j (fun i => if i = j + 1 then m j else m i) (j + 1) = m j := by
            rw [hrest _ (Nat.lt_succ_self j), if_pos rfl]
          rw [read_succ _ (j + 1), read_succ m j, htop]
          refine ⟨hperm.append_right _, ?_, fun i hi => ?_⟩
          · refine List.pairwise_append.2 ⟨hasc, List.pairwise_singleton _ _, fun y hy z hz => ?_⟩
            obtain rfl := List.mem_singleton.1 hz
            rcases List.mem_cons.1 (hperm.mem_iff.1 hy) with rfl | hy
            · omega
            · exact hlast y hy
          · rw [hrest i (by omega), if_neg (by omega)]

/-- The sorted part grows to the whole. -/
theorem sortFrom_spec (k i : Nat) (m : Nat → α) (hs : Ascending key (Circular.read m 0 i)) :
    (Circular.read (sortFrom key k i m) 0 (i + k)).Perm (Circular.read m 0 (i + k)) ∧
      Ascending key (Circular.read (sortFrom key k i m) 0 (i + k)) := by
  induction k generalizing i m with
  | zero => exact ⟨.refl _, hs⟩
  | succ k ih =>
      obtain ⟨hperm, hasc, hrest⟩ := sink_spec key (m i) i m hs
      obtain ⟨hp, ha⟩ := ih (i + 1) (sink key (m i) i m) hasc
      have hlen : i + (k + 1) = i + 1 + k := by omega
      have hafter : Circular.read (sink key (m i) i m) (0 + (i + 1)) k =
          Circular.read m (0 + (i + 1)) k :=
        Circular.read_congr fun j hj => hrest _ (by omega)
      rw [sortFrom, hlen]
      refine ⟨hp.trans ?_, ha⟩
      rw [Circular.read_append _ 0 (i + 1), Circular.read_append m 0 (i + 1), hafter, read_succ m i]
      exact (hperm.trans (List.perm_append_singleton _ _).symm).append_right _

theorem insertionSort_spec (n : Nat) (m : Nat → α) :
    (Circular.read (insertionSort key n m) 0 n).Perm (Circular.read m 0 n) ∧
      Ascending key (Circular.read (insertionSort key n m) 0 n) := by
  cases n with
  | zero => exact ⟨.refl _, .nil⟩
  | succ n =>
      have h := sortFrom_spec key n 1 m (by simp [Ascending, Circular.read])
      rwa [Nat.add_comm 1 n] at h

end Phi.Keyed
