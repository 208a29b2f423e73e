import Phi.Lib.Heap
import Phi.Top.Snapshot

/-!
# Phi.Top.Procs

The order of the processes on the screen (`sort_procs` of `view.S`).

`sort_idx` gets the indexes of the processes that are shown, kernel threads
only on request, and is heapsorted.  The heap's order is the reverse of the
screen's: at its top is the row that sorts last, so the largest ends first.
-/

namespace Phi.Top

open Rpc

/-- What `sort_procs` reads: the listed processes, their shares as derived, and
the two switches. -/
structure ProcView where
  procs : List ProcStat
  procCpu : Nat → UInt32
  showKthreads : Bool
  sortMem : Bool
  nlisted : procs.length ≤ snProcCap

namespace ProcView

variable (v : ProcView)

/-- The resident size of the process at an index. -/
def rss (i : Nat) : UInt64 := ((v.procs[i]?).map (·.rssKb)).getD 0

/-- The process at an index is shown. -/
def shown (i : Nat) : Bool := v.showKthreads || !((v.procs[i]?).map (·.kthread)).getD false

/-- `proc_after`: the process at `a` sorts after the one at `b`. -/
def procAfter (a b : UInt32) : Bool :=
  let cpuA := v.procCpu a.toNat
  let cpuB := v.procCpu b.toNat
  let rssA := v.rss a.toNat
  let rssB := v.rss b.toNat
  if v.sortMem then
    if rssA < rssB then true
    else if rssB < rssA then false
    else cpuA < cpuB
  else
    if cpuA < cpuB then true
    else if cpuB < cpuA then false
    else rssA < rssB

/-- The loop that fills `sort_idx`, with `k` processes left from index `i` on;
`n` are in it. -/
def fill : Nat → Nat → Nat → (Nat → UInt32) → Nat × (Nat → UInt32)
  | 0, _, n, idx => (n, idx)
  | k + 1, i, n, idx =>
      if v.shown i then
        fill k (i + 1) (n + 1) fun j => if j = n then UInt32.ofNat i else idx j
      else fill k (i + 1) n idx

/-- `sort_procs`: the count, and `sort_idx`. -/
def sortProcs (old : Nat → UInt32) : Nat × (Nat → UInt32) :=
  let (n, idx) := v.fill v.procs.length 0 0 old
  (n, Heap.heapsort v.procAfter n idx)

/-! ## what it is for -/

/-- The indexes of the processes that are shown. -/
def visible : List Nat := (List.range v.procs.length).filter v.shown

/-- The process at `i` may stand above the one at `j`: the larger share, of
equal shares the larger size; or the other way round. -/
def Above (i j : Nat) : Prop :=
  if v.sortMem then v.rss j < v.rss i ∨ v.rss j = v.rss i ∧ v.procCpu j ≤ v.procCpu i
  else v.procCpu j < v.procCpu i ∨ v.procCpu j = v.procCpu i ∧ v.rss j ≤ v.rss i

/-- The rows in the order in which they are drawn. -/
def order (r : Nat × (Nat → UInt32)) : List Nat := (Circular.read r.2 0 r.1).map UInt32.toNat

/-- `sort_idx` is right. -/
structure Sorted (r : Nat × (Nat → UInt32)) : Prop where
  perm : (order r).Perm v.visible
  descending : (order r).Pairwise v.Above
  /-- whatever is cut off stands below whatever is shown -/
  top : ∀ k, ∀ i ∈ (order r).take k, ∀ j ∈ (order r).drop k, v.Above i j

/-! ## the comparison -/

/-- What does not sort after may stand above. -/
theorem above_iff (a b : UInt32) :
    v.Above a.toNat b.toNat ↔ v.procAfter a b = false := by
  unfold Above procAfter
  dsimp only
  split_ifs <;> simp only [UInt32.lt_iff_toNat_lt, UInt64.lt_iff_toNat_lt, UInt32.le_iff_toNat_le,
    UInt64.le_iff_toNat_le, ← UInt32.toNat_inj, ← UInt64.toNat_inj, decide_eq_false_iff_not,
    iff_false, iff_true] at * <;> omega

theorem ordering : Heap.Ordering v.procAfter where
  asymm {a b} h := by
    have hn : ¬ v.Above a.toNat b.toNat := by
      rw [above_iff, h]
      decide
    rw [← above_iff]
    unfold Above at hn ⊢
    split_ifs at hn ⊢ <;> simp only [UInt32.lt_iff_toNat_lt, UInt64.lt_iff_toNat_lt,
      UInt32.le_iff_toNat_le, UInt64.le_iff_toNat_le, ← UInt32.toNat_inj,
      ← UInt64.toNat_inj] at * <;> omega
  trans {a b c} hab hbc := by
    rw [← above_iff] at *
    unfold Above at *
    split_ifs at * <;> simp only [UInt32.lt_iff_toNat_lt, UInt64.lt_iff_toNat_lt,
      UInt32.le_iff_toNat_le, UInt64.le_iff_toNat_le, ← UInt32.toNat_inj,
      ← UInt64.toNat_inj] at * <;> omega

/-! ## the indexes -/

/-- The loop appends the shown indexes to the `n` already there. -/
theorem fill_reads (k i n : Nat) (idx : Nat → UInt32) :
    Circular.read (v.fill k i n idx).2 0 (v.fill k i n idx).1 =
      Circular.read idx 0 n ++ ((List.range' i k).filter v.shown).map UInt32.ofNat := by
  induction k generalizing i n idx with
  | zero => simp [fill]
  | succ k ih =>
      rw [fill, List.range'_succ, List.filter_cons]
      split
      · next hs =>
          have hkeep : Circular.read (fun j => if j = n then UInt32.ofNat i else idx j) 0 n =
              Circular.read idx 0 n :=
            Circular.read_congr fun j hj => by simp [Nat.ne_of_lt hj]
          rw [ih, Circular.read_append, hkeep]
          simp [Circular.read]
      · next hs => rw [ih]

/-- A listed index survives its 32 bits. -/
theorem toNat_visible : (v.visible.map UInt32.ofNat).map UInt32.toNat = v.visible := by
  have hfits : ∀ i ∈ v.visible, (UInt32.ofNat i).toNat = i := fun i hi => by
    have hlt : i < v.procs.length := by
      simp only [visible, List.mem_filter, List.mem_range] at hi
      exact hi.1
    have hcap : v.procs.length ≤ 16384 := v.nlisted
    rw [UInt32.toNat_ofNat']
    omega
  rw [List.map_map]
  exact (List.map_congr_left hfits).trans (List.map_id _)

/-- Before the sort `sort_idx` is the shown indexes in the snapshot's order. -/
theorem order_fill (old : Nat → UInt32) :
    order (v.fill v.procs.length 0 0 old) = v.visible := by
  rw [order, fill_reads, ← List.range_eq_range']
  exact v.toNat_visible

/-- The rows are the shown processes. -/
theorem perm_order (old : Nat → UInt32) : (order (v.sortProcs old)).Perm v.visible := by
  have hperm := (Heap.heapsort_spec v.ordering (v.fill v.procs.length 0 0 old).1
    (v.fill v.procs.length 0 0 old).2).1.perm.map UInt32.toNat
  rw [← v.order_fill old]
  exact hperm

/-- `sort_idx` is the shown processes, the largest first, for either key and
whatever stood in it before. -/
theorem procs_sorted (old : Nat → UInt32) : v.Sorted (v.sortProcs old) := by
  obtain ⟨-, hpairs⟩ := Heap.heapsort_spec v.ordering (v.fill v.procs.length 0 0 old).1
    (v.fill v.procs.length 0 0 old).2
  have hdesc : (order (v.sortProcs old)).Pairwise v.Above :=
    List.pairwise_map.2 (hpairs.imp fun h => (v.above_iff _ _).2 h)
  constructor
  · exact v.perm_order old
  · exact hdesc
  · intro k i hi j hj
    have happ := hdesc
    rw [← List.take_append_drop k (order (v.sortProcs old))] at happ
    exact (List.pairwise_append.1 happ).2.2 i hi j hj

end ProcView

end Phi.Top
