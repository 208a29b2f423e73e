import Phi.Lib.Circular
import Phi.Lib.Run
import Phi.Top.Snapshot

/-!
# Phi.Top.Cores

The cores of a sample (`derive` of `model.S`, the part that groups the CPUs).

The CPUs are taken in order, each with its core's id.  The table of cores is
searched for the id from the front; a core that is not there yet is put where
the search stopped, the records behind moved up one by one, as long as the
table has room.  Then the CPU becomes the next thread of its core, as long as
the core has room.
-/

namespace Phi.Top

open Circular hiding read
open Rpc

def coreThreads : Nat := 8
def coreCap : Nat := 1024

/-- A record of the table; of the threads the first `n` are in use. -/
structure Core where
  id : UInt16
  n : UInt16
  cpu : Nat → UInt16

/-- `DV_CORES`, `DV_NCORES`, `DV_MAXTHREADS`. -/
structure CoreTable where
  cores : Nat → Core
  ncores : Nat
  maxThreads : Nat

/-! ## the code -/

/-- Where the search for a core ends. -/
inductive Place where
  | found (i : Nat)
  | before (i : Nat)
  | after
deriving DecidableEq

/-- The search, with `k` records left from `i` on. -/
def searchCore (cores : Nat → Core) (id : UInt16) : Nat → Nat → Place
  | 0, _ => .after
  | k + 1, i =>
      if (cores i).id = id then .found i
      else if id < (cores i).id then .before i
      else searchCore cores id k (i + 1)

/-- The record with one thread more. -/
def Core.withThread (c : Core) (cpu : UInt16) : Core :=
  { c with n := c.n + 1, cpu := fun k => if k = c.n.toNat then cpu else c.cpu k }

/-- The CPU becomes the next thread of the core at `i`. -/
def CoreTable.addCpu (t : CoreTable) (i : Nat) (cpu : UInt16) : CoreTable :=
  if coreThreads ≤ (t.cores i).n.toNat then t
  else
    let c := (t.cores i).withThread cpu
    { t with
      cores := fun j => if j = i then c else t.cores j
      maxThreads := if c.n.toNat ≤ t.maxThreads then t.maxThreads else c.n.toNat }

/-- A new core at `i`, which keeps what its threads held before. -/
def CoreTable.openAt (t : CoreTable) (i : Nat) (id : UInt16) : CoreTable :=
  let cores := shiftUp t.cores i (t.ncores - i)
  { t with
    cores := fun j => if j = i then { cores i with id := id, n := 0 } else cores j
    ncores := t.ncores + 1 }

/-- One CPU. -/
def CoreTable.place (t : CoreTable) (id cpu : UInt16) : CoreTable :=
  match searchCore t.cores id t.ncores 0 with
  | .found i => t.addCpu i cpu
  | .before i => if coreCap ≤ t.ncores then t else (t.openAt i id).addCpu i cpu
  | .after =>
      if coreCap ≤ t.ncores then t else (t.openAt t.ncores id).addCpu t.ncores cpu

/-- The loop over the CPUs; the records hold whatever they held. -/
def deriveCores (s : Snapshot) (old : Nat → Core) : CoreTable :=
  run (fun t (c, i) => t.place c.core (UInt16.ofNat i)) ⟨old, 0, 0⟩ s.cpus.zipIdx

/-! ## what it is for -/

/-- A core with its threads. -/
abbrev Row := UInt16 × List UInt16

def Core.row (c : Core) : Row := (c.id, Circular.read c.cpu 0 c.n.toNat)

def CoreTable.rows (t : CoreTable) : List Row := (Circular.read t.cores 0 t.ncores).map Core.row

/-- The CPUs that lie on a core, in order. -/
def cpusOn (ids : List UInt16) (id : UInt16) : List Nat :=
  (ids.zipIdx.filter fun p => p.1 = id).map Prod.snd

/-- The table groups CPUs whose cores are `ids`: the cores in the order of
their ids, of the first `coreCap` that occur every one, and under each the
first `coreThreads` of its CPUs. -/
structure Grouped (ids : List UInt16) (t : CoreTable) : Prop where
  sorted : t.rows.Pairwise fun a b => a.1 < b.1
  cores : ∀ id, id ∈ t.rows.map Prod.fst ↔ id ∈ ids.eraseDups.take coreCap
  cpus : ∀ r ∈ t.rows, r.2.map UInt16.toNat = (cpusOn ids r.1).take coreThreads
  most : ∀ r ∈ t.rows, r.2.length ≤ t.maxThreads
  reached : t.maxThreads = 0 ∨ ∃ r ∈ t.rows, r.2.length = t.maxThreads

/-! ## on rows -/

/-- A CPU more, if the core has room. -/
def addThread (cpu : UInt16) (cpus : List UInt16) : List UInt16 :=
  if coreThreads ≤ cpus.length then cpus else cpus ++ [cpu]

/-- One CPU placed in the rows. -/
def placeRow (room : Bool) (id cpu : UInt16) : List Row → List Row
  | [] => if room then [(id, [cpu])] else []
  | r :: rs =>
      if r.1 = id then (r.1, addThread cpu r.2) :: rs
      else if id < r.1 then if room then (id, [cpu]) :: r :: rs else r :: rs
      else r :: placeRow room id cpu rs

section rows

variable {room : Bool} {id cpu : UInt16} {xs ys : List Row}

/-- Rows of smaller ids are passed. -/
theorem placeRow_append (h : ∀ x ∈ xs, x.1 < id) :
    placeRow room id cpu (xs ++ ys) = xs ++ placeRow room id cpu ys := by
  induction xs with
  | nil => rfl
  | cons x xs ih =>
      have hx := h x List.mem_cons_self
      have hne : x.1 ≠ id := UInt16.ne_of_lt hx
      have hge : ¬ id < x.1 := UInt16.not_lt.mpr (UInt16.le_of_lt hx)
      rw [List.cons_append, placeRow, if_neg hne, if_neg hge,
        ih fun y hy => h y (List.mem_cons_of_mem _ hy), List.cons_append]

end rows

/-! ## the code on rows -/

section code

variable {t : CoreTable} {id cpu : UInt16} {i : Nat}

theorem read_split (m : Nat → Core) {i n : Nat} (h : i < n) :
    Circular.read m 0 n = Circular.read m 0 i ++ m i :: Circular.read m (i + 1) (n - i - 1) := by
  have hn : n = i + (1 + (n - i - 1)) := by omega
  have hsplit : Circular.read m 0 (i + (1 + (n - i - 1))) =
      Circular.read m 0 i ++ m i :: Circular.read m (i + 1) (n - i - 1) := by
    rw [read_append, read_append, Nat.zero_add]
    rfl
  rwa [← hn] at hsplit

/-- Where the search ends: all records before it have smaller ids. -/
theorem searchCore_spec (cores : Nat → Core) (id : UInt16) (k i : Nat) :
    match searchCore cores id k i with
    | .found j => i ≤ j ∧ j < i + k ∧ (cores j).id = id ∧ ∀ l, i ≤ l → l < j → (cores l).id < id
    | .before j => i ≤ j ∧ j < i + k ∧ id < (cores j).id ∧ ∀ l, i ≤ l → l < j → (cores l).id < id
    | .after => ∀ l, i ≤ l → l < i + k → (cores l).id < id := by
  induction k generalizing i with
  | zero =>
      intro l hl hl'
      omega
  | succ k ih =>
      rw [searchCore]
      split_ifs with heq hlt
      · exact ⟨Nat.le_refl i, by omega, heq, fun l _ _ => by omega⟩
      · exact ⟨Nat.le_refl i, by omega, hlt, fun l _ _ => by omega⟩
      · have hi : (cores i).id < id :=
          UInt16.lt_of_le_of_ne (UInt16.not_lt.mp hlt) heq
        have hrest := ih (i + 1)
        split at hrest
        · obtain ⟨hle, hlt', hid, hall⟩ := hrest
          refine ⟨by omega, by omega, hid, fun l hl hlj => ?_⟩
          rcases Nat.eq_or_lt_of_le hl with rfl | hl
          · exact hi
          · exact hall l hl hlj
        · obtain ⟨hle, hlt', hid, hall⟩ := hrest
          refine ⟨by omega, by omega, hid, fun l hl hlj => ?_⟩
          rcases Nat.eq_or_lt_of_le hl with rfl | hl
          · exact hi
          · exact hall l hl hlj
        · intro l hl hlj
          rcases Nat.eq_or_lt_of_le hl with rfl | hl
          · exact hi
          · exact hrest l hl (by omega)

theorem read_ids {m : Nat → Core} (h : ∀ l < i, (m l).id < id) :
    ∀ x ∈ (Circular.read m 0 i).map Core.row, x.1 < id := by
  intro x hx
  simp only [Circular.read, List.mem_map, List.mem_range] at hx
  obtain ⟨c, ⟨l, hl, rfl⟩, rfl⟩ := hx
  rw [Nat.zero_add]
  exact h l hl

theorem Core.length_row (c : Core) : c.row.2.length = c.n.toNat := length_read _ _ _

/-- A record that is not full takes the thread. -/
theorem Core.row_withThread {c : Core} (h : ¬ coreThreads ≤ c.n.toNat) (cpu : UInt16) :
    (c.withThread cpu).row = (c.id, addThread cpu c.row.2) ∧
      (c.withThread cpu).n.toNat = c.n.toNat + 1 := by
  have hn : (c.n + 1).toNat = c.n.toNat + 1 := by
    have hone : (1 : UInt16).toNat = 1 := rfl
    unfold coreThreads at h
    rw [UInt16.toNat_add]
    omega
  refine ⟨?_, hn⟩
  rw [addThread, if_neg (by rw [c.length_row]; exact h), Core.row, Core.withThread, hn, read_append]
  congr 2
  · exact read_congr fun k hk => if_neg (by omega)
  · simp [Circular.read]

/-- A thread more, on the rows. -/
theorem rows_addCpu (t : CoreTable) (cpu : UInt16) (hi : i < t.ncores) :
    (t.addCpu i cpu).rows = (Circular.read t.cores 0 i).map Core.row ++
      ((t.cores i).id, addThread cpu (t.cores i).row.2) ::
        (Circular.read t.cores (i + 1) (t.ncores - i - 1)).map Core.row := by
  by_cases hfull : coreThreads ≤ (t.cores i).n.toNat
  · rw [CoreTable.addCpu, if_pos hfull, CoreTable.rows, read_split _ hi, List.map_append,
      List.map_cons, addThread, if_pos (by rw [Core.length_row]; exact hfull)]
    rfl
  · rw [CoreTable.addCpu, if_neg hfull, CoreTable.rows, read_split _ hi, List.map_append,
      List.map_cons, ← (Core.row_withThread hfull cpu).1]
    refine congrArg₂ (· ++ ·) (congrArg _ (read_congr fun k hk => if_neg (by omega)))
      (congrArg₂ (· :: ·) (congrArg Core.row (if_pos rfl))
        (congrArg _ (read_congr fun k hk => if_neg (by omega))))

/-- The records once room was made for a core. -/
theorem read_openAt (t : CoreTable) (id : UInt16) (hi : i ≤ t.ncores) :
    ∃ c : Core, c.row = (id, []) ∧ Circular.read (t.openAt i id).cores 0 (t.openAt i id).ncores =
      Circular.read t.cores 0 i ++ c :: Circular.read t.cores i (t.ncores - i) := by
  have hread := read_shiftUp t.cores i (t.ncores - i)
    { shiftUp t.cores i (t.ncores - i) i with id := id, n := 0 }
  have hcount : i + (t.ncores - i) + 1 = (t.openAt i id).ncores := by
    show _ = t.ncores + 1
    omega
  rw [hcount] at hread
  exact ⟨_, rfl, hread⟩

/-- A core more with its first thread, on the rows. -/
theorem rows_openAt (t : CoreTable) (id cpu : UInt16) (hi : i ≤ t.ncores) :
    ((t.openAt i id).addCpu i cpu).rows = (Circular.read t.cores 0 i).map Core.row ++
      (id, [cpu]) :: (Circular.read t.cores i (t.ncores - i)).map Core.row := by
  obtain ⟨c, hc, hread⟩ := read_openAt t id hi
  have hlt : i < (t.openAt i id).ncores := Nat.lt_succ_of_le hi
  rw [read_split _ hlt] at hread
  obtain ⟨hfront, hback⟩ := List.append_inj hread (by rw [length_read, length_read])
  obtain ⟨hcell, hrest⟩ := List.cons.inj hback
  have hid : ((t.openAt i id).cores i).id = id := by
    rw [hcell]
    exact congrArg Prod.fst hc
  rw [rows_addCpu _ _ hlt, hfront, hrest, hid, hcell, hc]
  rfl

/-- One CPU placed, on the rows. -/
theorem rows_place (t : CoreTable) (id cpu : UInt16) :
    (t.place id cpu).rows = placeRow (t.ncores < coreCap) id cpu t.rows := by
  have hspec := searchCore_spec t.cores id t.ncores 0
  unfold CoreTable.place
  split at hspec
  · next j hj =>
      obtain ⟨-, hlt, hid, hall⟩ := hspec
      have hlt' : j < t.ncores := by omega
      rw [rows_addCpu _ _ hlt', CoreTable.rows, read_split _ hlt', List.map_append, List.map_cons,
        placeRow_append (read_ids fun l hl => hall l (Nat.zero_le l) hl), placeRow]
      rw [if_pos (show (t.cores j).row.1 = id from hid)]
      rfl
  · next j hj =>
      obtain ⟨-, hlt, hid, hall⟩ := hspec
      have hlt' : j < t.ncores := by omega
      have hne : (t.cores j).row.1 ≠ id := (UInt16.ne_of_lt hid).symm
      have hrows : t.rows = (Circular.read t.cores 0 j).map Core.row ++ (t.cores j).row ::
          (Circular.read t.cores (j + 1) (t.ncores - j - 1)).map Core.row := by
        rw [CoreTable.rows, read_split _ hlt', List.map_append, List.map_cons]
      rw [hrows, placeRow_append (read_ids fun l hl => hall l (Nat.zero_le l) hl), placeRow,
        if_neg hne, if_pos (show id < (t.cores j).row.1 from hid)]
      split_ifs with hfull hroom hroom
      · simp only [decide_eq_true_eq] at hroom
        omega
      · exact hrows
      · have hback : Circular.read t.cores j (t.ncores - j) =
            t.cores j :: Circular.read t.cores (j + 1) (t.ncores - j - 1) := by
          have hn : t.ncores - j = 1 + (t.ncores - j - 1) := by omega
          rw [hn, read_append, ← hn]
          rfl
        rw [rows_openAt _ _ _ (Nat.le_of_lt hlt'), hback, List.map_cons]
      · simp only [decide_eq_true_eq] at hroom
        omega
  · next hj =>
      have hids : ∀ x ∈ t.rows, x.1 < id := read_ids fun l hl => hspec l (Nat.zero_le l) (by omega)
      have hend : placeRow (t.ncores < coreCap) id cpu (t.rows ++ []) =
          t.rows ++ placeRow (t.ncores < coreCap) id cpu [] := placeRow_append hids
      rw [List.append_nil] at hend
      rw [hend, placeRow]
      split_ifs with hfull hroom hroom
      · simp only [decide_eq_true_eq] at hroom
        omega
      · exact (List.append_nil _).symm
      · rw [rows_openAt _ _ _ (Nat.le_refl _), Nat.sub_self]
        rfl
      · simp only [decide_eq_true_eq] at hroom
        omega

end code

/-! ## what placing does to the rows -/

section placing

variable {room : Bool} {id cpu : UInt16} {rows : List Row}

/-- The core is there: its row takes the thread. -/
theorem placeRow_of_mem (hs : rows.Pairwise fun a b => a.1 < b.1)
    (h : id ∈ rows.map Prod.fst) : ∃ xs cpus ys, rows = xs ++ (id, cpus) :: ys ∧
      placeRow room id cpu rows = xs ++ (id, addThread cpu cpus) :: ys := by
  induction rows with
  | nil => simp at h
  | cons r rs ih =>
      obtain ⟨hr, hrs⟩ := List.pairwise_cons.mp hs
      rw [List.map_cons, List.mem_cons] at h
      rcases h with rfl | h
      · exact ⟨[], r.2, rs, rfl, by simp [placeRow]⟩
      · obtain ⟨xs, cpus, ys, rfl, hplace⟩ := ih hrs h
        have hlt : r.1 < id := hr (id, cpus) (by simp)
        have hne : r.1 ≠ id := UInt16.ne_of_lt hlt
        have hge : ¬ id < r.1 := UInt16.not_lt.mpr (UInt16.le_of_lt hlt)
        refine ⟨r :: xs, cpus, ys, rfl, ?_⟩
        rw [placeRow, if_neg hne, if_neg hge, hplace, List.cons_append]

/-- The core is not there: with room it gets a row between the smaller ids and
the larger ones. -/
theorem placeRow_of_not_mem (hs : rows.Pairwise fun a b => a.1 < b.1)
    (h : id ∉ rows.map Prod.fst) :
    (room = false ∧ placeRow room id cpu rows = rows) ∨
    (room = true ∧ ∃ xs ys, rows = xs ++ ys ∧ (∀ x ∈ xs, x.1 < id) ∧ (∀ y ∈ ys, id < y.1) ∧
      placeRow room id cpu rows = xs ++ (id, [cpu]) :: ys) := by
  induction rows with
  | nil =>
      cases room with
      | false => exact .inl ⟨rfl, rfl⟩
      | true => exact .inr ⟨rfl, [], [], rfl, by simp, by simp, rfl⟩
  | cons r rs ih =>
      obtain ⟨hr, hrs⟩ := List.pairwise_cons.mp hs
      rw [List.map_cons, List.mem_cons, not_or] at h
      have hne : r.1 ≠ id := Ne.symm h.1
      rw [placeRow, if_neg hne]
      split_ifs with hlt hroom
      · refine .inr ⟨hroom, [], r :: rs, rfl, by simp, fun y hy => ?_, rfl⟩
        rcases List.mem_cons.mp hy with rfl | hy
        · exact hlt
        · exact UInt16.lt_trans hlt (hr y hy)
      · exact .inl ⟨eq_false_of_ne_true hroom, rfl⟩
      · have hbelow : r.1 < id := UInt16.lt_of_le_of_ne (UInt16.not_lt.mp hlt) hne
        obtain ⟨hroom, hplace⟩ | ⟨hroom, xs, ys, rfl, hx, hy, hplace⟩ := ih hrs h.2
        · exact .inl ⟨hroom, by rw [hplace]⟩
        · refine .inr ⟨hroom, r :: xs, ys, rfl, fun x hx' => ?_, hy, ?_⟩
          swap
          · rw [hplace, List.cons_append]
          rcases List.mem_cons.mp hx' with rfl | hx'
          · exact hbelow
          · exact hx x hx'

end placing

/-! ## the CPUs so far -/

section sofar

variable {ids : List UInt16} {id : UInt16}

theorem eraseDups_concat (ids : List UInt16) (id : UInt16) : (ids ++ [id]).eraseDups =
    if id ∈ ids then ids.eraseDups else ids.eraseDups ++ [id] := by
  rw [List.eraseDups_append, List.cons_removeAll]
  by_cases h : id ∈ ids
  · simp [h]
  · simp [h, List.eraseDups_cons]

theorem cpusOn_concat (ids : List UInt16) (id r : UInt16) : cpusOn (ids ++ [id]) r =
    if id = r then cpusOn ids r ++ [ids.length] else cpusOn ids r := by
  rw [cpusOn, List.zipIdx_append, List.filter_append, List.map_append, cpusOn]
  split_ifs with h
  · simp [h]
  · simp [h]

theorem cpusOn_of_not_mem (h : id ∉ ids) : cpusOn ids id = [] := by
  rw [cpusOn, List.map_eq_nil_iff, List.filter_eq_nil_iff]
  rintro ⟨a, k⟩ hp
  have ha := List.fst_mem_of_mem_zipIdx hp
  simp only [decide_eq_true_eq]
  rintro rfl
  exact h ha

theorem cpusOn_lt {k : Nat} (h : k ∈ cpusOn ids id) : k < ids.length := by
  simp only [cpusOn, List.mem_map, List.mem_filter] at h
  obtain ⟨p, ⟨hp, -⟩, rfl⟩ := h
  have := List.snd_lt_add_of_mem_zipIdx hp
  omega

theorem addThread_take (xs : List Nat) (k : Nat) :
    addThread (UInt16.ofNat k) ((xs.take coreThreads).map UInt16.ofNat) =
      ((xs ++ [k]).take coreThreads).map UInt16.ofNat := by
  rw [addThread, List.length_map, List.length_take]
  split_ifs with h
  · rw [List.take_append_of_le_length (by omega)]
  · have hfits : (xs ++ [k]).length ≤ coreThreads := by
      rw [List.length_append, List.length_singleton]
      omega
    rw [List.take_of_length_le (by omega), List.take_of_length_le hfits, List.map_append]
    rfl

/-- The rows of the CPUs so far. -/
structure RowsOf (ids : List UInt16) (rows : List Row) : Prop where
  sorted : rows.Pairwise fun a b => a.1 < b.1
  cores : ∀ id, id ∈ rows.map Prod.fst ↔ id ∈ ids.eraseDups.take coreCap
  count : rows.length = min coreCap ids.eraseDups.length
  cpus : ∀ r ∈ rows, r.2 = ((cpusOn ids r.1).take coreThreads).map UInt16.ofNat

/-- A CPU of a core that is in the table. -/
theorem RowsOf.again {rows xs ys : List Row} {cpus : List UInt16} (h : RowsOf ids rows)
    (hrows : rows = xs ++ (id, cpus) :: ys) :
    RowsOf (ids ++ [id]) (xs ++ (id, addThread (UInt16.ofNat ids.length) cpus) :: ys) := by
  subst hrows
  have hmem : id ∈ ids := by
    have hid := (h.cores id).mp (by simp)
    exact List.mem_eraseDups.mp (List.mem_of_mem_take hid)
  have hnew : (ids ++ [id]).eraseDups = ids.eraseDups := by rw [eraseDups_concat, if_pos hmem]
  have hother : ∀ r : Row, r.1 ≠ id → cpusOn (ids ++ [id]) r.1 = cpusOn ids r.1 := fun r hr => by
    rw [cpusOn_concat, if_neg (Ne.symm hr)]
  have hs := h.sorted
  rw [List.pairwise_append, List.pairwise_cons] at hs
  obtain ⟨hx, ⟨hy, hys⟩, hxy⟩ := hs
  refine ⟨?_, ?_, ?_, ?_⟩
  · rw [List.pairwise_append, List.pairwise_cons]
    refine ⟨hx, ⟨hy, hys⟩, fun a ha b hb => ?_⟩
    rcases List.mem_cons.mp hb with rfl | hb
    · exact hxy a ha (id, cpus) List.mem_cons_self
    · exact hxy a ha b (List.mem_cons_of_mem _ hb)
  · intro r
    rw [hnew, ← h.cores r]
    simp
  · rw [hnew, ← h.count]
    simp
  · intro r hr
    rw [List.mem_append, List.mem_cons] at hr
    obtain hr | rfl | hr := hr
    · rw [hother r (UInt16.ne_of_lt (hxy r hr (id, cpus) List.mem_cons_self))]
      exact h.cpus r (by simp [hr])
    · have hcpus : cpus = ((cpusOn ids id).take coreThreads).map UInt16.ofNat :=
        h.cpus (id, cpus) (by simp)
      rw [cpusOn_concat, if_pos rfl, ← addThread_take, ← hcpus]
    · rw [hother r (UInt16.ne_of_lt (hy r hr)).symm]
      exact h.cpus r (by simp [hr])

/-- The first CPU of a core, with room in the table. -/
theorem RowsOf.first {xs ys : List Row} (h : RowsOf ids (xs ++ ys))
    (hnot : id ∉ (xs ++ ys).map Prod.fst) (hroom : (xs ++ ys).length < coreCap)
    (hx : ∀ x ∈ xs, x.1 < id) (hy : ∀ y ∈ ys, id < y.1) :
    RowsOf (ids ++ [id]) (xs ++ (id, [UInt16.ofNat ids.length]) :: ys) := by
  have hcount := h.count
  have hall : ids.eraseDups.take coreCap = ids.eraseDups := List.take_of_length_le (by omega)
  have hnew : id ∉ ids := fun hmem => by
    rw [h.cores, hall, List.mem_eraseDups] at hnot
    exact hnot hmem
  have hdups : (ids ++ [id]).eraseDups = ids.eraseDups ++ [id] := by
    rw [eraseDups_concat, if_neg hnew]
  have hother : ∀ r : Row, r.1 ≠ id → cpusOn (ids ++ [id]) r.1 = cpusOn ids r.1 := fun r hr => by
    rw [cpusOn_concat, if_neg (Ne.symm hr)]
  have hs := List.pairwise_append.mp h.sorted
  refine ⟨?_, ?_, ?_, ?_⟩
  · rw [List.pairwise_append, List.pairwise_cons]
    refine ⟨hs.1, ⟨hy, hs.2.1⟩, fun a ha b hb => ?_⟩
    rcases List.mem_cons.mp hb with rfl | hb
    · exact hx a ha
    · exact hs.2.2 a ha b hb
  · intro r
    have hr := h.cores r
    rw [hall] at hr
    rw [hdups, List.take_of_length_le (by
      rw [List.length_append, List.length_singleton]
      omega)]
    simp only [List.map_append, List.map_cons, List.mem_append, List.mem_cons,
      List.not_mem_nil, or_false] at hr ⊢
    rw [← hr]
    tauto
  · rw [hdups]
    simp only [List.length_append, List.length_cons, List.length_nil] at hcount hroom ⊢
    omega
  · intro r hr
    rw [List.mem_append, List.mem_cons] at hr
    obtain hr | rfl | hr := hr
    · rw [hother r (UInt16.ne_of_lt (hx r hr))]
      exact h.cpus r (by simp [hr])
    · rw [cpusOn_concat, if_pos rfl, cpusOn_of_not_mem hnew]
      rfl
    · rw [hother r (UInt16.ne_of_lt (hy r hr)).symm]
      exact h.cpus r (by simp [hr])

/-- A CPU of a core that finds no room. -/
theorem RowsOf.left {rows : List Row} (h : RowsOf ids rows) (hnot : id ∉ rows.map Prod.fst)
    (hfull : coreCap ≤ rows.length) : RowsOf (ids ++ [id]) rows := by
  have hcount := h.count
  have htake : (ids ++ [id]).eraseDups.take coreCap = ids.eraseDups.take coreCap := by
    rw [eraseDups_concat]
    split_ifs
    · rfl
    · exact List.take_append_of_le_length (by omega)
  refine ⟨h.sorted, fun r => by rw [htake]; exact h.cores r, ?_, fun r hr => ?_⟩
  · have hlen := congrArg List.length htake
    rw [List.length_take, List.length_take] at hlen
    omega
  · have hne : id ≠ r.1 := by
      rintro rfl
      exact hnot (List.mem_map_of_mem hr)
    rw [cpusOn_concat, if_neg hne]
    exact h.cpus r hr

/-- One CPU more. -/
theorem RowsOf.place {rows : List Row} (h : RowsOf ids rows) (id : UInt16) :
    RowsOf (ids ++ [id])
      (placeRow (rows.length < coreCap) id (UInt16.ofNat ids.length) rows) := by
  by_cases hmem : id ∈ rows.map Prod.fst
  · obtain ⟨xs, cpus, ys, hrows, hplace⟩ := placeRow_of_mem h.sorted hmem
    rw [hplace]
    exact h.again hrows
  · obtain ⟨hroom, hplace⟩ | ⟨hroom, xs, ys, hrows, hx, hy, hplace⟩ :=
      placeRow_of_not_mem h.sorted hmem
    · rw [hplace]
      exact h.left hmem (by simpa using hroom)
    · rw [hplace]
      subst hrows
      exact h.first hmem (by simpa using hroom) hx hy

end sofar

/-! ## the most threads -/

/-- The number is the length of the longest row. -/
structure Largest (rows : List Row) (n : Nat) : Prop where
  most : ∀ r ∈ rows, r.2.length ≤ n
  reached : n = 0 ∨ ∃ r ∈ rows, r.2.length = n

section most

variable {t : CoreTable} {i : Nat}

/-- A core without threads changes nothing. -/
theorem Largest.openAt (h : Largest t.rows t.maxThreads) (id : UInt16) (hi : i ≤ t.ncores) :
    Largest (t.openAt i id).rows (t.openAt i id).maxThreads := by
  obtain ⟨c, hc, hread⟩ := read_openAt t id hi
  have hold : t.rows = (Circular.read t.cores 0 i).map Core.row ++
      (Circular.read t.cores i (t.ncores - i)).map Core.row := by
    have hn : i + (t.ncores - i) = t.ncores := by omega
    rw [← List.map_append, CoreTable.rows]
    conv_lhs => rw [← hn, read_append, Nat.zero_add]
  have hrows : ∀ r, r ∈ (t.openAt i id).rows ↔ r = (id, []) ∨ r ∈ t.rows := by
    intro r
    rw [hold, CoreTable.rows, hread, List.map_append, List.map_cons, hc, List.mem_append,
      List.mem_cons, List.mem_append]
    tauto
  refine ⟨fun r hr => ?_, ?_⟩
  · rcases (hrows r).mp hr with rfl | hr
    · exact Nat.zero_le _
    · exact h.most r hr
  · refine h.reached.imp (fun h0 => h0) fun ⟨r, hr, hlen⟩ => ⟨r, (hrows r).mpr (.inr hr), hlen⟩

/-- A thread more is counted. -/
theorem Largest.addCpu (h : Largest t.rows t.maxThreads) (hi : i < t.ncores) (cpu : UInt16) :
    Largest (t.addCpu i cpu).rows (t.addCpu i cpu).maxThreads := by
  have hrows : t.rows = (Circular.read t.cores 0 i).map Core.row ++ (t.cores i).row ::
      (Circular.read t.cores (i + 1) (t.ncores - i - 1)).map Core.row := by
    rw [CoreTable.rows, read_split _ hi, List.map_append, List.map_cons]
  have hnew := rows_addCpu t cpu hi
  by_cases hfull : coreThreads ≤ (t.cores i).n.toNat
  · rw [CoreTable.addCpu, if_pos hfull]
    exact h
  · obtain ⟨hrow, hn⟩ := Core.row_withThread hfull cpu
    have hlen : (addThread cpu (t.cores i).row.2).length = (t.cores i).n.toNat + 1 := by
      rw [addThread, if_neg (by rw [Core.length_row]; exact hfull), List.length_append,
        Core.length_row, List.length_singleton]
    have hmax : (t.addCpu i cpu).maxThreads = max t.maxThreads ((t.cores i).n.toNat + 1) := by
      rw [CoreTable.addCpu, if_neg hfull]
      show (if _ ≤ _ then _ else _) = _
      rw [hn]
      split_ifs <;> omega
    rw [hnew, hmax]
    rw [hrows] at h
    refine ⟨fun r hr => ?_, .inr ?_⟩
    · rw [List.mem_append, List.mem_cons] at hr
      obtain hr | rfl | hr := hr
      · exact Nat.le_trans (h.most r (by simp [hr])) (Nat.le_max_left _ _)
      · rw [hlen]
        exact Nat.le_max_right _ _
      · exact Nat.le_trans (h.most r (by simp [hr])) (Nat.le_max_left _ _)
    · by_cases hle : t.maxThreads ≤ (t.cores i).n.toNat + 1
      · refine ⟨((t.cores i).id, addThread cpu (t.cores i).row.2), by simp, ?_⟩
        rw [hlen, Nat.max_eq_right hle]
      · rw [Nat.max_eq_left (by omega)]
        obtain hzero | ⟨r, hr, hr'⟩ := h.reached
        · omega
        · rw [List.mem_append, List.mem_cons] at hr
          obtain hr | rfl | hr := hr
          · exact ⟨r, by simp [hr], hr'⟩
          · rw [Core.length_row] at hr'
            omega
          · exact ⟨r, by simp [hr], hr'⟩

theorem Largest.place (h : Largest t.rows t.maxThreads) (id cpu : UInt16) :
    Largest (t.place id cpu).rows (t.place id cpu).maxThreads := by
  have hspec := searchCore_spec t.cores id t.ncores 0
  unfold CoreTable.place
  split at hspec
  · next j hj => exact h.addCpu (by omega) cpu
  · next j hj =>
      split_ifs
      · exact h
      · exact (h.openAt id (by omega)).addCpu (Nat.lt_succ_of_le (by omega)) cpu
  · split_ifs
    · exact h
    · exact (h.openAt id (Nat.le_refl _)).addCpu (Nat.lt_succ_self _) cpu

end most

/-! ## the whole loop -/

theorem length_rows (t : CoreTable) : t.rows.length = t.ncores := by
  rw [CoreTable.rows, List.length_map, length_read]

/-- The CPUs of a list, numbered from `ids.length` on, placed one after the
other. -/
theorem run_place (cs : List CpuStat) {ids : List UInt16} {t : CoreTable}
    (hrows : RowsOf ids t.rows) (hmost : Largest t.rows t.maxThreads) :
    let t' := run (fun t (c, i) => t.place c.core (UInt16.ofNat i)) t (cs.zipIdx ids.length)
    RowsOf (ids ++ cs.map (·.core)) t'.rows ∧ Largest t'.rows t'.maxThreads := by
  induction cs generalizing ids t with
  | nil => simpa using ⟨hrows, hmost⟩
  | cons c cs ih =>
      have hplace := hrows.place c.core
      rw [length_rows, ← rows_place] at hplace
      have hnext := ih hplace (hmost.place c.core (UInt16.ofNat ids.length))
      rw [List.length_append, List.length_singleton, List.append_assoc] at hnext
      rw [List.zipIdx_cons, run_cons, List.map_cons]
      exact hnext

theorem deriveCores_rows (s : Snapshot) (old : Nat → Core) :
    RowsOf (s.cpus.map (·.core)) (deriveCores s old).rows ∧
      Largest (deriveCores s old).rows (deriveCores s old).maxThreads := by
  have hstart : RowsOf [] (CoreTable.mk old 0 0).rows :=
    ⟨.nil, by simp [CoreTable.rows], by simp [CoreTable.rows], by simp [CoreTable.rows]⟩
  have hmost : Largest (CoreTable.mk old 0 0).rows 0 := ⟨by simp [CoreTable.rows], .inl rfl⟩
  exact run_place s.cpus hstart hmost

/-- The table keeps within its records. -/
theorem deriveCores_le (s : Snapshot) (old : Nat → Core) :
    (deriveCores s old).ncores ≤ coreCap ∧ (deriveCores s old).maxThreads ≤ coreThreads := by
  obtain ⟨hrows, hlargest⟩ := deriveCores_rows s old
  constructor
  · rw [← length_rows, hrows.count]
    exact Nat.min_le_left _ _
  · rcases hlargest.reached with h0 | ⟨r, hr, hlen⟩
    · rw [h0]
      exact Nat.zero_le _
    · rw [← hlen, hrows.cpus r hr, List.length_map]
      exact List.length_take_le _ _

/-- For every sample, whatever the records held before, the table groups its
CPUs. -/
theorem cores_grouped (s : Snapshot) (old : Nat → Core) :
    Grouped (s.cpus.map (·.core)) (deriveCores s old) := by
  obtain ⟨hrows, hlargest⟩ := deriveCores_rows s old
  refine ⟨hrows.sorted, hrows.cores, fun r hr => ?_, hlargest.most, hlargest.reached⟩
  rw [hrows.cpus r hr, List.map_map]
  refine (List.map_congr_left fun k hk => ?_).trans (List.map_id _)
  have hk' := cpusOn_lt (List.mem_of_mem_take hk)
  have hcap := s.ncpu
  rw [List.length_map] at hk'
  unfold snCpuCap at hcap
  exact UInt16.toNat_ofNat_of_lt (Nat.lt_of_lt_of_le hk' (Nat.le_trans hcap (by decide)))

end Phi.Top
