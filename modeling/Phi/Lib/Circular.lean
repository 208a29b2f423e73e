import Mathlib.Algebra.GroupWithZero.Nat

/-!
# Phi.Lib.Circular

Circular stores: an area of `size` cells addressed by free-running indices
reduced modulo `size`.

An area is a function from cell numbers.  `write` and `read` are the straight
copies a program makes; `writeWrap` and `readWrap` are the two-piece copies
around the end of the area.  `Holds m size lo xs` says that the live window
starting at index `lo` is the list `xs`: appending at its end keeps it while
the window fits, and reading from its front gives its prefix.
-/

namespace Phi.Circular

variable {α : Type}

/-! ## straight copies -/

/-- Copy `xs` into the area from cell `off` on. -/
def write (m : Nat → α) (off : Nat) (xs : List α) : Nat → α :=
  fun i => if off ≤ i then (xs[i - off]?).getD (m i) else m i

/-- The `n` cells from `off` on. -/
def read (m : Nat → α) (off n : Nat) : List α := (List.range n).map fun k => m (off + k)

@[simp] theorem length_read (m : Nat → α) (off n : Nat) : (read m off n).length = n := by
  simp [read]

@[simp] theorem read_zero (m : Nat → α) (off : Nat) : read m off 0 = [] := rfl

@[simp] theorem write_nil (m : Nat → α) (off : Nat) : write m off [] = m := by
  funext i; simp [write]

/-- A written cell carries its element. -/
theorem write_of_mem (m : Nat → α) {off k : Nat} {xs : List α} (hk : k < xs.length) :
    write m off xs (off + k) = xs[k] := by
  simp [write, hk]

/-- A cell outside the written piece keeps its element. -/
theorem write_of_not_mem (m : Nat → α) {off i : Nat} {xs : List α}
    (h : i < off ∨ off + xs.length ≤ i) : write m off xs i = m i := by
  unfold write
  split
  · next hle =>
      have hnone : xs[i - off]? = none := List.getElem?_eq_none (by omega)
      rw [hnone]; rfl
  · rfl

theorem getElem?_read (m : Nat → α) {off n k : Nat} (h : k < n) :
    (read m off n)[k]? = some (m (off + k)) := by
  simp [read, h]

/-- Areas that agree on the cells read give the same. -/
theorem read_congr {m m' : Nat → α} {off n : Nat} (h : ∀ k < n, m (off + k) = m' (off + k)) :
    read m off n = read m' off n := by
  unfold read
  exact List.map_congr_left fun k hk => h k (List.mem_range.mp hk)

theorem take_read (m : Nat → α) {off n k : Nat} (h : k ≤ n) :
    (read m off n).take k = read m off k := by
  unfold read
  rw [← List.map_take, List.take_range, Nat.min_eq_left h]

theorem drop_read (m : Nat → α) (off n k : Nat) :
    (read m off n).drop k = read m (off + k) (n - k) := by
  refine List.ext_getElem ?_ ?_
  · simp
  · intro i h1 h2
    simp [read, Nat.add_assoc]

theorem read_write (m : Nat → α) (off : Nat) (xs : List α) :
    read (write m off xs) off xs.length = xs := by
  refine List.ext_getElem ?_ ?_
  · simp
  · intro i h1 h2
    simp only [read, List.getElem_map, List.getElem_range]
    exact write_of_mem m h2

theorem read_append (m : Nat → α) (off n k : Nat) :
    read m off (n + k) = read m off n ++ read m (off + n) k := by
  unfold read
  rw [List.range_add, List.map_append, List.map_map]
  congr 1
  refine List.map_congr_left fun i _ => ?_
  simp [Nat.add_assoc]

theorem read_write_before (m : Nat → α) {off n at_ : Nat} (h : off + n ≤ at_) (xs : List α) :
    read (write m at_ xs) off n = read m off n := by
  unfold read
  refine List.map_congr_left fun i hi => ?_
  have hlt := List.mem_range.mp hi
  exact write_of_not_mem m (.inl (by omega))

theorem read_write_of_disjoint (m : Nat → α) {off n at_ : Nat} {xs : List α}
    (h : off + n ≤ at_ ∨ at_ + xs.length ≤ off) :
    read (write m at_ xs) off n = read m off n :=
  read_congr fun k hk => write_of_not_mem m (by omega)

/-- A cell of an area into which `xs` was written. -/
theorem write_apply (m : Nat → α) (off : Nat) (xs : List α) (i : Nat) :
    write m off xs i = if off ≤ i ∧ i < off + xs.length then (xs[i - off]?).getD (m i)
      else m i := by
  by_cases h : off ≤ i ∧ i < off + xs.length
  · rw [if_pos h]
    exact if_pos h.1
  · rw [if_neg h]
    exact write_of_not_mem m (by omega)

/-- Two pieces written one behind the other. -/
theorem write_append (m : Nat → α) (off : Nat) (xs ys : List α) :
    write (write m off xs) (off + xs.length) ys = write m off (xs ++ ys) := by
  funext i
  rw [write_apply, write_apply, write_apply, List.length_append]
  by_cases hx : off ≤ i ∧ i < off + xs.length
  · rw [if_neg (by omega), if_pos hx, if_pos (by omega),
      List.getElem?_append_left (by omega)]
  · by_cases hy : off + xs.length ≤ i ∧ i < off + xs.length + ys.length
    · rw [if_pos hy, if_neg hx, if_pos (by omega), List.getElem?_append_right (by omega),
        Nat.sub_sub]
    · rw [if_neg hy, if_neg hx, if_neg (by omega)]

/-- Areas that agree on a set of cells still do after the same piece was
written into both. -/
theorem write_congr {m m' : Nat → α} {P : Nat → Prop} (h : ∀ i, P i → m i = m' i) (off : Nat)
    (xs : List α) : ∀ i, P i → write m off xs i = write m' off xs i := by
  intro i hi
  rw [write_apply, write_apply, h i hi]

/-! ## making room -/

/-- The `k` cells from `i` on moved up by one, the last one first. -/
def shiftUp (m : Nat → α) (i : Nat) : Nat → Nat → α
  | 0 => m
  | k + 1 => shiftUp (fun j => if j = i + k + 1 then m (i + k) else m j) i k

theorem shiftUp_apply (m : Nat → α) (i k j : Nat) :
    shiftUp m i k j = if i < j ∧ j ≤ i + k then m (j - 1) else m j := by
  induction k generalizing m with
  | zero =>
      rw [if_neg (by omega)]
      rfl
  | succ k ih =>
      rw [shiftUp, ih]
      by_cases hlast : j = i + k + 1
      · subst hlast
        rw [if_neg (by omega), if_pos rfl, if_pos (by omega)]
        rfl
      · by_cases hmid : i < j ∧ j ≤ i + k
        · rw [if_pos hmid, if_neg (by omega), if_pos (by omega)]
        · rw [if_neg hmid, if_neg hlast, if_neg (by omega)]

/-- A cell put where room was made. -/
theorem read_shiftUp (m : Nat → α) (i k : Nat) (x : α) :
    read (fun j => if j = i then x else shiftUp m i k j) 0 (i + k + 1) =
      read m 0 i ++ x :: read m i k := by
  have hsplit : i + k + 1 = i + (1 + k) := by omega
  rw [hsplit, read_append, read_append]
  have hbefore : read (fun j => if j = i then x else shiftUp m i k j) 0 i = read m 0 i :=
    read_congr fun j hj => by
      show (if 0 + j = i then x else shiftUp m i k (0 + j)) = m (0 + j)
      rw [if_neg (by omega), shiftUp_apply, if_neg (by omega)]
  have hafter : read (fun j => if j = i then x else shiftUp m i k j) (0 + i + 1) k =
      read m i k := by
    refine List.ext_getElem (by simp) fun j h1 h2 => ?_
    have hj : j < k := by simpa using h2
    simp only [read, List.getElem_map, List.getElem_range]
    rw [if_neg (by omega), shiftUp_apply, if_pos (by omega)]
    congr 1
    omega
  have hone : read (fun j => if j = i then x else shiftUp m i k j) (0 + i) 1 = [x] := by
    simp [read]
  rw [hbefore, hafter, hone]
  rfl

/-! ## copies around the end -/

/-- Copy `xs` in from index `pos` on: what fits before the end of the area,
the rest from its start. -/
def writeWrap (m : Nat → α) (size pos : Nat) (xs : List α) : Nat → α :=
  let first := min xs.length (size - pos % size)
  write (write m (pos % size) (xs.take first)) 0 (xs.drop first)

/-- Copy `n` elements out from index `pos` on, in the same two pieces. -/
def readWrap (m : Nat → α) (size pos n : Nat) : List α :=
  let first := min n (size - pos % size)
  read m (pos % size) first ++ read m 0 (n - first)

/-- The cell of the `k`-th element past `pos`, before the end of the area. -/
theorem add_mod_of_lt {size pos k : Nat} (h : pos % size + k < size) :
    (pos + k) % size = pos % size + k := by
  rw [Nat.add_mod, ← Nat.mod_eq_of_lt h, Nat.add_mod (pos % size)]
  simp

/-- The cell of the `k`-th element past `pos`, past the end of the area. -/
theorem add_mod_of_ge {size pos k : Nat} (h : size ≤ pos % size + k) (hk : k ≤ size)
    (hpos : 0 < size) : (pos + k) % size = pos % size + k - size := by
  have hlt := Nat.mod_lt pos hpos
  have hcalc : (pos + k) % size = (pos % size + k) % size := by
    rw [Nat.add_mod, Nat.add_mod (pos % size)]; simp
  rw [hcalc, Nat.mod_eq_sub_mod h, Nat.mod_eq_of_lt (by omega)]

/-- Distinct indices of one window use distinct cells. -/
theorem mod_ne_of_lt {size p q : Nat} (hpq : p < q) (hq : q < p + size) : p % size ≠ q % size := by
  intro h
  have hd : (q - p) % size = 0 := Nat.sub_mod_eq_zero_of_mod_eq h.symm
  rw [Nat.mod_eq_of_lt (by omega)] at hd
  omega

/-- The `k`-th copied element sits at its own index. -/
theorem writeWrap_new (m : Nat → α) {size pos k : Nat} {xs : List α}
    (hlen : xs.length ≤ size) (hk : k < xs.length) :
    writeWrap m size pos xs ((pos + k) % size) = xs[k] := by
  have hpos : 0 < size := by omega
  have hlt := Nat.mod_lt pos hpos
  unfold writeWrap
  rcases Nat.lt_or_ge (pos % size + k) size with hin | hout
  · have hkf : k < (xs.take (min xs.length (size - pos % size))).length := by
      rw [List.length_take]; omega
    rw [add_mod_of_lt hin, write_of_not_mem, write_of_mem _ hkf, List.getElem_take]
    right
    rw [List.length_drop]
    omega
  · have hcell : pos % size + k - size = 0 + (k - (size - pos % size)) := by omega
    have hmin : min xs.length (size - pos % size) = size - pos % size := by omega
    rw [add_mod_of_ge hout (by omega) hpos, hcell, hmin, write_of_mem]
    · rw [List.getElem_drop]
      congr 1
      omega
    · rw [List.length_drop]; omega

/-- An index of the window before the copy keeps its element. -/
theorem writeWrap_old (m : Nat → α) {size pos q : Nat} {xs : List α} (hpos : 0 < size)
    (hq : q < pos) (hfit : pos + xs.length ≤ q + size) :
    writeWrap m size pos xs (q % size) = m (q % size) := by
  have hlt := Nat.mod_lt pos hpos
  have hne : ∀ k, k < xs.length → q % size ≠ (pos + k) % size := fun k hk =>
    mod_ne_of_lt (by omega) (by omega)
  unfold writeWrap
  rw [write_of_not_mem, write_of_not_mem]
  · -- the first piece: its cells are those of `pos + k` before the end
    rcases Nat.lt_or_ge (q % size) (pos % size) with h | h
    · exact .inl h
    · right
      rw [List.length_take]
      rcases Nat.lt_or_ge (q % size)
        (pos % size + min (min xs.length (size - pos % size)) xs.length) with hin | hout
      · have hk := hne (q % size - pos % size) (by omega)
        rw [add_mod_of_lt (by omega)] at hk
        omega
      · exact hout
  · -- the second piece: its cells are those of `pos + k` past the end
    right
    rw [List.length_drop]
    rcases Nat.lt_or_ge (q % size) (0 + (xs.length - min xs.length (size - pos % size)))
      with hin | hout
    · have hk := hne (q % size + (size - pos % size)) (by omega)
      rw [add_mod_of_ge (by omega) (by omega) hpos] at hk
      omega
    · exact hout

/-- Only the cell of the start index matters to a copy. -/
theorem writeWrap_congr (m : Nat → α) {size p q : Nat} (h : p % size = q % size) (xs : List α) :
    writeWrap m size p xs = writeWrap m size q xs := by
  unfold writeWrap
  rw [h]

theorem readWrap_congr (m : Nat → α) {size p q : Nat} (h : p % size = q % size) (n : Nat) :
    readWrap m size p n = readWrap m size q n := by
  unfold readWrap
  rw [h]

/-- A copy in that ends before the end of the area is a straight one. -/
theorem write_eq_writeWrap (m : Nat → α) {size pos : Nat} {xs : List α}
    (h : pos % size + xs.length ≤ size) : write m (pos % size) xs = writeWrap m size pos xs := by
  have hmin : min xs.length (size - pos % size) = xs.length := by omega
  unfold writeWrap
  dsimp only
  rw [hmin, List.take_length, List.drop_length, write_nil]

/-- Reading around the end visits the indices in order. -/
theorem readWrap_eq (m : Nat → α) {size pos n : Nat} (hpos : 0 < size) (hn : n ≤ size) :
    readWrap m size pos n = (List.range n).map fun k => m ((pos + k) % size) := by
  have hlt := Nat.mod_lt pos hpos
  unfold readWrap
  apply List.ext_getElem
  · simp only [List.length_append, length_read, List.length_map, List.length_range]
    omega
  · intro k h1 h2
    have hk : k < n := by simpa using h2
    rw [List.getElem_append]
    split
    · next hin =>
        rw [length_read] at hin
        simp only [read, List.getElem_map, List.getElem_range]
        rw [add_mod_of_lt (by omega)]
    · next hout =>
        rw [length_read] at hout
        have hcell : (pos + k) % size = 0 + (k - min n (size - pos % size)) := by
          rw [add_mod_of_ge (by omega) (by omega) hpos]
          omega
        simp only [read, List.getElem_map, List.getElem_range, hcell, List.length_map,
          List.length_range]

/-! ## the live window -/

/-- The cells of the window that starts at index `lo` carry `xs`. -/
def Holds (m : Nat → α) (size lo : Nat) (xs : List α) : Prop :=
  ∀ k (h : k < xs.length), m ((lo + k) % size) = xs[k]

theorem holds_nil (m : Nat → α) (size lo : Nat) : Holds m size lo [] := by
  intro k h
  simp at h

/-- A prefix of the window is a window. -/
theorem Holds.left {m : Nat → α} {size lo : Nat} {xs ys : List α}
    (h : Holds m size lo (xs ++ ys)) : Holds m size lo xs := by
  intro k hk
  rw [h k (by rw [List.length_append]; omega), List.getElem_append_left hk]

/-- What a two-piece read returns is what the cells hold. -/
theorem holds_readWrap (m : Nat → α) {size lo n : Nat} (hpos : 0 < size) (hn : n ≤ size) :
    Holds m size lo (readWrap m size lo n) := by
  intro k hk
  simp only [readWrap_eq m hpos hn, List.getElem_map, List.getElem_range]

/-- Appending after the window extends it, while it fits the area. -/
theorem Holds.writeWrap {m : Nat → α} {size lo : Nat} {xs ys : List α}
    (h : Holds m size lo xs) (hfit : xs.length + ys.length ≤ size) :
    Holds (writeWrap m size (lo + xs.length) ys) size lo (xs ++ ys) := by
  intro k hk
  rw [List.length_append] at hk
  rw [List.getElem_append]
  split
  · next hx =>
      rw [writeWrap_old _ (by omega) (by omega) (by omega), h k hx]
  · next hx =>
      have hk' : lo + k = lo + xs.length + (k - xs.length) := by omega
      rw [hk', writeWrap_new _ (by omega) (by omega)]

/-- Two windows one after the other are one. -/
theorem Holds.append {m : Nat → α} {size lo : Nat} {xs ys : List α} (h : Holds m size lo xs)
    (h' : Holds m size (lo + xs.length) ys) : Holds m size lo (xs ++ ys) := by
  intro k hk
  rw [List.length_append] at hk
  rw [List.getElem_append]
  split
  · next hx => exact h k hx
  · next hx =>
      have hcell : lo + k = lo + xs.length + (k - xs.length) := by omega
      rw [hcell]
      exact h' (k - xs.length) (by omega)

/-- Windows with one start agree as far as both go. -/
theorem Holds.agree {m : Nat → α} {size lo : Nat} {xs ys : List α} (h : Holds m size lo xs)
    (h' : Holds m size lo ys) (hle : xs.length ≤ ys.length) : ys.take xs.length = xs := by
  apply List.ext_getElem
  · rw [List.length_take, Nat.min_eq_left hle]
  · intro k hk hk'
    rw [List.getElem_take, ← h k hk', h' k (by omega)]

/-- Dropping from the front of the window moves its start. -/
theorem Holds.drop {m : Nat → α} {size lo n : Nat} {xs : List α} (h : Holds m size lo xs) :
    Holds m size (lo + n) (xs.drop n) := by
  intro k hk
  rw [List.length_drop] at hk
  rw [List.getElem_drop, ← h (n + k) (by omega), Nat.add_assoc]

/-- Reading around the end from the front of the window gives its prefix. -/
theorem Holds.readWrap {m : Nat → α} {size lo n : Nat} {xs : List α} (h : Holds m size lo xs)
    (hpos : 0 < size) (hn : n ≤ xs.length) (hsize : n ≤ size) :
    readWrap m size lo n = xs.take n := by
  rw [readWrap_eq m hpos hsize]
  apply List.ext_getElem
  · simp [hn]
  · intro k h1 h2
    have hk : k < n := by simpa using h1
    simp only [List.getElem_map, List.getElem_range, List.getElem_take]
    exact h k (by omega)

/-- Reading one piece that ends before the end of the area gives the prefix. -/
theorem Holds.read {m : Nat → α} {size lo n : Nat} {xs : List α} (h : Holds m size lo xs)
    (hn : n ≤ xs.length) (hend : lo % size + n ≤ size) :
    read m (lo % size) n = xs.take n := by
  apply List.ext_getElem
  · simp [hn]
  · intro k h1 h2
    have hk : k < n := by simpa using h1
    simp only [Circular.read, List.getElem_map, List.getElem_range, List.getElem_take]
    rw [← add_mod_of_lt (by omega)]
    exact h k (by omega)

end Phi.Circular
