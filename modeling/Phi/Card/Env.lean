import Phi.Lib.StableSort

/-!
# Phi.Card.Env

The environment of a command (`kcmp` and `ex_env` of `exec.S`).

The entries of an Exec frame are records in arrival order.  `ex_env` sorts
their indices by key, bottom up and through two areas in turn, keeps of equal
keys the last, and writes an entry "k=v" for each one kept.  Nothing is
inherited: the command gets these entries and no others.
-/

namespace Phi.Card

open StableSort

/-! ## records -/

/-- A string of the frame: its length was a 16-bit word. -/
structure Text where
  bytes : List UInt8
  short : bytes.length < 2 ^ 16

/-- A record of `ex_decode`: key, value, and whether either holds a NUL byte. -/
structure EnvRec where
  key : Text
  value : Text
  nul : Bool

/-- The bytes of both keys while there are so many left, then the lengths. -/
def kcmpLoop (r10 r11 : UInt32) : Nat → List UInt8 → List UInt8 → UInt32
  | n + 1, a :: as, b :: bs =>
      let eax := a.toUInt32 - b.toUInt32
      if eax ≠ 0 then eax else kcmpLoop r10 r11 n as bs
  | _, _, _ => r10 - r11

/-- `kcmp`: bytewise, then shorter first. -/
def kcmp (a b : EnvRec) : UInt32 :=
  let r10 := UInt32.ofNat a.key.bytes.length
  let r11 := UInt32.ofNat b.key.bytes.length
  let ecx := if r10 ≤ r11 then r10 else r11
  kcmpLoop r10 r11 ecx.toNat a.key.bytes b.key.bytes

/-- The sign of a 32-bit word. -/
def negative (eax : UInt32) : Bool := 2 ^ 31 ≤ eax.toNat

/-! ## the sort -/

section sort

/- Whether the entry with the one index sorts strictly before that with the other. -/
variable (below : Nat → Nat → Bool)

/-- The rest of a run: labels 10 and 11. -/
def copyRest (src : Nat → Nat) (stop i k : Nat) (dst : Nat → Nat) : Nat × (Nat → Nat) :=
  if i < stop then copyRest src stop (i + 1) (k + 1) (Circular.write dst k [src i]) else (k, dst)
termination_by stop - i

/-- Two runs merged, from label 7 on: the right one's entry only where it sorts
strictly before the left one's. -/
def mergeRuns (src : Nat → Nat) (mid hi i j k : Nat) (dst : Nat → Nat) : Nat → Nat :=
  if i < mid ∧ j < hi then
    if below (src j) (src i) = true then
      mergeRuns src mid hi i (j + 1) (k + 1) (Circular.write dst k [src j])
    else mergeRuns src mid hi (i + 1) j (k + 1) (Circular.write dst k [src i])
  else
    let (k, dst) := copyRest src mid i k dst
    (copyRest src hi j k dst).2
termination_by mid - i + (hi - j)

/-- A pass over the runs of `width` entries, from label 4 on. -/
def mergePass (width n : Nat) (hw : 0 < width) (src : Nat → Nat) (lo : Nat) (dst : Nat → Nat) :
    Nat → Nat :=
  if lo < n then
    let mid := min (lo + width) n
    let hi := min (lo + 2 * width) n
    mergePass width n hw src hi (mergeRuns below src mid hi lo mid lo dst)
  else dst
termination_by n - lo

/-- The passes, from label 3 on, `src` and `dst` exchanged after each. -/
def mergePasses (width n : Nat) (hw : 0 < width) (src dst : Nat → Nat) : Nat → Nat :=
  if width < n then
    mergePasses (width + width) n (Nat.add_pos_left hw width)
      (mergePass below width n hw src 0 dst) src
  else src
termination_by n - width

end sort

/-- The indices in sorted order. -/
def sortedIdx (recs : Nat → EnvRec) (envc : Nat) (idxA idxB : Nat → Nat) : Nat → Nat :=
  mergePasses (fun i j => negative (kcmp (recs i) (recs j))) 1 envc Nat.one_pos
    (Circular.write idxA 0 (List.range envc)) idxB

/-! ## the entries -/

/-- What `ex_env` leaves: the environment's strings, `ex_path` and `ex_nul`. -/
structure EnvOut where
  envp : List (List UInt8)
  path : Option (List UInt8)
  nul : Bool

/-- "PATH". -/
def pathKey : List UInt8 := [0x50, 0x41, 0x54, 0x48]

/-- An entry written: "k=v", its value noted where its key is PATH. -/
def EnvOut.keep (out : EnvOut) (r : EnvRec) : EnvOut where
  envp := out.envp ++ [r.key.bytes ++ 0x3d :: r.value.bytes]
  path := if r.key.bytes = pathKey then some r.value.bytes else out.path
  nul := out.nul || r.nul

/-- The entries from number `t` on, from label 21 on: one whose key the next
one has is passed over. -/
def keepEntries (recs : Nat → EnvRec) (idx : Nat → Nat) (n t : Nat) (out : EnvOut) : EnvOut :=
  if t < n then
    if t + 1 < n ∧ kcmp (recs (idx t)) (recs (idx (t + 1))) = 0 then
      keepEntries recs idx n (t + 1) out
    else keepEntries recs idx n (t + 1) (out.keep (recs (idx t)))
  else out
termination_by n - t

/-- `ex_env`, with what `ex_decode` found out about NUL bytes. -/
def exEnv (recs : Nat → EnvRec) (envc : Nat) (idxA idxB : Nat → Nat) (nul : Bool) : EnvOut :=
  keepEntries recs (sortedIdx recs envc idxA idxB) envc 0 ⟨[], none, nul⟩

/-! ## the comparison -/

theorem kcmpLoop_sign (c : Nat) (r10 r11 : UInt32) (as bs : List UInt8)
    (ha : r10.toNat = as.length + c) (hb : r11.toNat = bs.length + c)
    (hashort : as.length + c < 2 ^ 16) (hbshort : bs.length + c < 2 ^ 16) :
    (negative (kcmpLoop r10 r11 (min as.length bs.length) as bs) = true ↔ as < bs) ∧
      (kcmpLoop r10 r11 (min as.length bs.length) as bs = 0 ↔ as = bs) := by
  have hdiff : ∀ x y : UInt32, x.toNat < 2 ^ 16 → y.toNat < 2 ^ 16 →
      (negative (x - y) = true ↔ x.toNat < y.toNat) ∧ (x - y = 0 ↔ x.toNat = y.toNat) := by
    intro x y hx hy
    have hsub : (x - y).toNat = (2 ^ 32 - y.toNat + x.toNat) % 2 ^ 32 := UInt32.toNat_sub ..
    rw [← UInt32.toNat_inj, hsub]
    simp only [negative, decide_eq_true_eq, hsub]
    show _ ∧ (_ = 0 ↔ _)
    omega
  induction as generalizing bs c with
  | nil =>
      have hends := hdiff r10 r11 (ha ▸ hashort) (hb ▸ hbshort)
      rw [ha, hb] at hends
      cases bs with
      | nil => simpa [kcmpLoop] using hends
      | cons b bs => simpa [kcmpLoop] using hends
  | cons a as ih =>
      cases bs with
      | nil =>
          have hends := hdiff r10 r11 (ha ▸ hashort) (hb ▸ hbshort)
          rw [ha, hb, List.length_cons, List.length_nil] at hends
          constructor
          · exact iff_of_false (fun h => by have := hends.1.mp h; omega) (List.not_lt_nil _)
          · exact iff_of_false (fun h => by have := hends.2.mp h; omega) (List.cons_ne_nil a as)
      | cons b bs =>
          have hbytes := hdiff a.toUInt32 b.toUInt32
            (by simp; exact Nat.lt_trans a.toNat_lt (by decide))
            (by simp; exact Nat.lt_trans b.toNat_lt (by decide))
          have hmin : min (a :: as).length (b :: bs).length = min as.length bs.length + 1 := by
            simp [Nat.add_min_add_right]
          rw [hmin, kcmpLoop]
          by_cases hab : a = b
          · subst hab
            have hrest := ih (c + 1) bs (by simpa [Nat.add_assoc, Nat.add_comm 1] using ha)
              (by simpa [Nat.add_assoc, Nat.add_comm 1] using hb)
              (by simpa [Nat.add_assoc, Nat.add_comm 1] using hashort)
              (by simpa [Nat.add_assoc, Nat.add_comm 1] using hbshort)
            simpa using hrest
          · have hne : a.toUInt32 - b.toUInt32 ≠ 0 := fun hzero => hab
              (UInt8.toNat_inj.mp (by simpa using hbytes.2.mp hzero))
            rw [if_pos hne, List.cons_lt_cons_iff, UInt8.lt_iff_toNat_lt]
            constructor
            · simpa [hab] using hbytes.1
            · exact iff_of_false hne fun h => hab (List.head_eq_of_cons_eq h)

/-- `kcmp` orders keys by their bytes, unsigned, the shorter of two first. -/
theorem kcmp_sign (a b : EnvRec) :
    (negative (kcmp a b) = true ↔ a.key.bytes < b.key.bytes) ∧
      (kcmp a b = 0 ↔ a.key.bytes = b.key.bytes) := by
  have ha : (UInt32.ofNat a.key.bytes.length).toNat = a.key.bytes.length :=
    UInt32.toNat_ofNat_of_lt' (Nat.lt_trans a.key.short (by decide))
  have hb : (UInt32.ofNat b.key.bytes.length).toNat = b.key.bytes.length :=
    UInt32.toNat_ofNat_of_lt' (Nat.lt_trans b.key.short (by decide))
  have hmin : (if UInt32.ofNat a.key.bytes.length ≤ UInt32.ofNat b.key.bytes.length
      then UInt32.ofNat a.key.bytes.length else UInt32.ofNat b.key.bytes.length).toNat =
        min a.key.bytes.length b.key.bytes.length := by
    have hle := UInt32.le_iff_toNat_le (a := UInt32.ofNat a.key.bytes.length)
      (b := UInt32.ofNat b.key.bytes.length)
    rw [ha, hb] at hle
    split <;> rename_i h <;> rw [hle] at h <;> omega
  unfold kcmp
  dsimp only
  rw [hmin]
  exact kcmpLoop_sign 0 _ _ _ _ ha hb a.key.short b.key.short

/-- The sort's comparison of the entries behind two indices. -/
def keyBelow (recs : Nat → EnvRec) (i j : Nat) : Bool := negative (kcmp (recs i) (recs j))

theorem keyBelow_iff (recs : Nat → EnvRec) (i j : Nat) :
    keyBelow recs i j = true ↔ (recs i).key.bytes < (recs j).key.bytes :=
  (kcmp_sign (recs i) (recs j)).1

theorem keyBelow_false_iff (recs : Nat → EnvRec) (i j : Nat) :
    keyBelow recs i j = false ↔ (recs j).key.bytes ≤ (recs i).key.bytes := by
  rw [← List.not_lt, ← keyBelow_iff, Bool.not_eq_true]

theorem keyBelow_weak (recs : Nat → EnvRec) : Weak (keyBelow recs) where
  asymm {i j} h := (keyBelow_false_iff recs j i).mpr
    (List.le_of_lt ((keyBelow_iff recs i j).mp h))
  trans {i j k} hij hjk := (keyBelow_false_iff recs i k).mpr
    (List.le_trans ((keyBelow_false_iff recs j k).mp hjk) ((keyBelow_false_iff recs i j).mp hij))

/-! ## what the sort leaves -/

theorem read_next (f : Nat → Nat) {a b : Nat} (h : a < b) :
    Circular.read f a (b - a) = f a :: Circular.read f (a + 1) (b - (a + 1)) := by
  have hcut := Circular.read_append f a 1 (b - (a + 1))
  rw [show 1 + (b - (a + 1)) = b - a by omega] at hcut
  rw [hcut]
  rfl

theorem write_next (dst : Nat → Nat) (k v : Nat) (xs : List Nat) :
    Circular.write (Circular.write dst k [v]) (k + 1) xs = Circular.write dst k (v :: xs) :=
  Circular.write_append dst k [v] xs

theorem copyRest_eq (src : Nat → Nat) (stop i k : Nat) (dst : Nat → Nat) :
    copyRest src stop i k dst =
      (k + (stop - i), Circular.write dst k (Circular.read src i (stop - i))) := by
  fun_induction copyRest src stop i k dst with
  | case1 i k dst hlt ih =>
      rw [ih, write_next, ← read_next src hlt]
      simp only [Prod.mk.injEq, and_true]
      omega
  | case2 i k dst hlt =>
      rw [show stop - i = 0 by omega]
      simp

/-- The merge loops write the merge of the two runs. -/
theorem mergeRuns_eq (below : Nat → Nat → Bool) (src : Nat → Nat) (mid hi i j k : Nat)
    (dst : Nat → Nat) :
    mergeRuns below src mid hi i j k dst = Circular.write dst k
      ((Circular.read src i (mid - i)).merge (Circular.read src j (hi - j))
        fun a b => !below b a) := by
  fun_induction mergeRuns below src mid hi i j k dst with
  | case1 i j k dst hlt hbelow ih =>
      rw [ih, write_next]
      conv => rhs; rw [read_next src hlt.1, read_next src hlt.2]
      rw [List.cons_merge_cons, if_neg (by simp [hbelow]), ← read_next src hlt.1]
  | case2 i j k dst hlt hbelow ih =>
      rw [ih, write_next]
      conv => rhs; rw [read_next src hlt.1, read_next src hlt.2]
      rw [List.cons_merge_cons, if_pos (by simpa using hbelow), ← read_next src hlt.2]
  | case3 i j k dst hlt k' dst' hcopy =>
      rw [copyRest_eq] at hcopy
      obtain ⟨rfl, rfl⟩ := Prod.mk.inj hcopy
      rw [copyRest_eq]
      dsimp only
      rcases Nat.lt_or_ge i mid with hi' | hi'
      · rw [show hi - j = 0 by omega]
        simp
      · rw [show mid - i = 0 by omega]
        simp

/-- A pass from `lo` on leaves what lies before, and every run of twice the width
sorted. -/
theorem mergePass_runs {below : Nat → Nat → Bool} (hw : Weak below) {width n : Nat}
    (hpos : 0 < width) {src : Nat → Nat} (hsrc : StableSort.Runs below src width n) (lo : Nat)
    (hlo : n ≤ lo ∨ 2 * width ∣ lo) (dst : Nat → Nat) :
    (∀ i < lo, mergePass below width n hpos src lo dst i = dst i) ∧
      ∀ a, 2 * width ∣ a → lo ≤ a → a < n →
        Sorted below (mergePass below width n hpos src lo dst) a (min (a + 2 * width) n) := by
  fun_induction mergePass below width n hpos src lo dst with
  | case1 lo dst hlt mid hi ih =>
      have hdiv : 2 * width ∣ lo := hlo.resolve_left (by omega)
      have hnext : n ≤ hi ∨ 2 * width ∣ hi := by
        rcases Nat.lt_or_ge (lo + 2 * width) n with h | h
        · rw [show hi = lo + 2 * width by omega]
          exact .inr (Nat.dvd_add hdiv (Nat.dvd_refl _))
        · exact .inl (by omega)
      obtain ⟨hbefore, hafter⟩ := ih hnext
      have hmid : lo ≤ mid ∧ mid ≤ hi := by omega
      have hmerged := mergeRuns_eq below src mid hi lo mid lo dst
      constructor
      · intro i hi'
        rw [hbefore i (by omega), hmerged, Circular.write_of_not_mem _ (.inl hi')]
      · intro a ha hle han
        by_cases hal : a = lo
        · subst hal
          have hrun : width ∣ a := Nat.dvd_trans (Nat.dvd_mul_left width 2) ha
          have hleft : Sorted below src a mid := hsrc a hrun hlt
          have hright : Sorted below src mid hi := by
            rcases Nat.lt_or_ge (a + width) n with h | h
            · rw [show mid = a + width by omega, show hi = min (a + width + width) n by omega]
              exact hsrc (a + width) (Nat.dvd_add hrun (Nat.dvd_refl _)) h
            · rw [show mid = n by omega, show hi = n by omega]
              exact sorted_empty n
          refine (Sorted.merge hw hmid.1 hmid.2 hleft hright ?_).congr fun i _ hi' => hbefore i hi'
          rw [hmerged]
          have hlen : hi - a = ((Circular.read src a (mid - a)).merge
              (Circular.read src mid (hi - mid)) fun i j => !below j i).length := by
            simp only [List.length_merge, Circular.length_read]
            omega
          rw [hlen, Circular.read_write]
        · obtain ⟨c, rfl⟩ := ha
          obtain ⟨d, rfl⟩ := hdiv
          have hcd : d + 1 ≤ c := by
            refine Nat.lt_of_mul_lt_mul_left (a := 2 * width) ?_
            omega
          have hmul : 2 * width * (d + 1) ≤ 2 * width * c := Nat.mul_le_mul_left _ hcd
          rw [Nat.mul_add, Nat.mul_one] at hmul
          exact hafter _ (Nat.dvd_mul_right _ _) (by omega) han
  | case2 lo dst hlt =>
      exact ⟨fun _ _ => rfl, fun a _ hle ha => absurd ha (by omega)⟩

theorem mergePasses_sorted {below : Nat → Nat → Bool} (hw : Weak below) {width n : Nat}
    (hpos : 0 < width) {src : Nat → Nat} (hsrc : StableSort.Runs below src width n)
    (dst : Nat → Nat) :
    Sorted below (mergePasses below width n hpos src dst) 0 n := by
  fun_induction mergePasses below width n hpos src dst with
  | case1 width hpos src dst hlt ih =>
      refine ih fun a ha han => ?_
      rw [← Nat.two_mul] at ha ⊢
      exact (mergePass_runs hw hpos hsrc 0 (.inr (Nat.dvd_zero _)) dst).2 a ha (Nat.zero_le a) han
  | case2 width hpos src dst hlt =>
      rcases Nat.eq_zero_or_pos n with rfl | hn
      · exact sorted_empty 0
      · have hrun := hsrc 0 (Nat.dvd_zero _) hn
        rwa [Nat.zero_add, Nat.min_eq_right (Nat.le_of_not_lt hlt)] at hrun

/-- The sorted indices: all of them, by key, and by arrival where keys are equal. -/
theorem sortedIdx_sorted (recs : Nat → EnvRec) (envc : Nat) (idxA idxB : Nat → Nat) :
    Sorted (keyBelow recs) (sortedIdx recs envc idxA idxB) 0 envc :=
  mergePasses_sorted (keyBelow_weak recs) Nat.one_pos (runs_one fun i hi => by
    rw [Circular.write_apply, if_pos (by simpa using hi)]
    simp [hi]) idxB

/-! ## the ordered map -/

/-- Two indices whose entries have one key. -/
def sameKey (recs : Nat → EnvRec) (i j : Nat) : Bool := kcmp (recs i) (recs j) == 0

theorem sameKey_iff (recs : Nat → EnvRec) (i j : Nat) :
    sameKey recs i j = true ↔ (recs i).key.bytes = (recs j).key.bytes := by
  rw [sameKey, beq_iff_eq]
  exact (kcmp_sign (recs i) (recs j)).2

theorem sameKey_below (recs : Nat → EnvRec) (i j : Nat) :
    sameKey recs i j = true ↔ keyBelow recs i j = false ∧ keyBelow recs j i = false := by
  rw [sameKey_iff, keyBelow_false_iff, keyBelow_false_iff]
  exact ⟨fun h => ⟨h ▸ List.le_refl _, h ▸ List.le_refl _⟩, fun h => List.le_antisymm h.2 h.1⟩

/-- The walk over the sorted indices writes the entries that it keeps. -/
theorem keepEntries_eq (recs : Nat → EnvRec) (idx : Nat → Nat) (n t : Nat) (out : EnvOut) :
    keepEntries recs idx n t out =
      ((keepLast (sameKey recs) (Circular.read idx t (n - t))).map recs).foldl EnvOut.keep out := by
  fun_induction keepEntries recs idx n t out with
  | case1 t out hlt hsame ih =>
      have hkey : sameKey recs (idx t) (idx (t + 1)) = true := beq_iff_eq.mpr hsame.2
      rw [ih, read_next idx hlt, read_next idx hsame.1, keepLast, if_pos hkey]
  | case2 t out hlt hsame ih =>
      rw [ih, read_next idx hlt]
      rcases Nat.lt_or_ge (t + 1) n with h | h
      · have hkey : ¬ sameKey recs (idx t) (idx (t + 1)) = true := fun hs =>
          hsame ⟨h, beq_iff_eq.mp hs⟩
        rw [read_next idx h, keepLast, if_neg hkey]
        rfl
      · rw [show n - (t + 1) = 0 by omega]
        rfl
  | case3 t out hlt =>
      rw [show n - t = 0 by omega]
      rfl

theorem keep_all (rs : List EnvRec) (out : EnvOut) :
    (rs.foldl EnvOut.keep out).envp =
        out.envp ++ rs.map (fun r => r.key.bytes ++ 0x3d :: r.value.bytes) ∧
      (rs.foldl EnvOut.keep out).nul = (out.nul || rs.any EnvRec.nul) := by
  induction rs generalizing out with
  | nil => simp
  | cons r rs ih =>
      obtain ⟨henvp, hnul⟩ := ih (out.keep r)
      constructor
      · rw [List.foldl_cons, henvp]
        simp [EnvOut.keep]
      · rw [List.foldl_cons, hnul]
        simp [EnvOut.keep, Bool.or_assoc]

/-- A map from keys to values. -/
abbrev EnvMap := List UInt8 → Option (List UInt8)

/-- An entry inserted: it takes the place of one with its key. -/
def EnvMap.insert (m : EnvMap) (r : EnvRec) : EnvMap := fun k =>
  if k = r.key.bytes then some r.value.bytes else m k

/-- The entries inserted in arrival order. -/
def inserted (rs : List EnvRec) : EnvMap := rs.foldl EnvMap.insert fun _ => none

theorem inserted_succ (recs : Nat → EnvRec) (n : Nat) (k : List UInt8) :
    inserted (Circular.read recs 0 (n + 1)) k =
      if k = (recs n).key.bytes then some (recs n).value.bytes
      else inserted (Circular.read recs 0 n) k := by
  rw [inserted, Circular.read_append, List.foldl_append, Nat.zero_add]
  rfl

/-- Index `i` is the last of a key below `n`. -/
def LastOf (recs : Nat → EnvRec) (n : Nat) (k : List UInt8) (i : Nat) : Prop :=
  i < n ∧ (recs i).key.bytes = k ∧ ∀ j < n, (recs j).key.bytes = k → j ≤ i

/-- What the map holds: the value of the last entry of a key, or nothing where
there is none. -/
theorem inserted_cases (recs : Nat → EnvRec) (n : Nat) (k : List UInt8) :
    (∃ i, LastOf recs n k i ∧
        inserted (Circular.read recs 0 n) k = some (recs i).value.bytes) ∨
      ((∀ j < n, (recs j).key.bytes ≠ k) ∧ inserted (Circular.read recs 0 n) k = none) := by
  induction n with
  | zero => exact .inr ⟨fun j hj => absurd hj (Nat.not_lt_zero j), rfl⟩
  | succ n ih =>
      rw [inserted_succ]
      by_cases hk : k = (recs n).key.bytes
      · rw [if_pos hk]
        exact .inl ⟨n, ⟨Nat.lt_succ_self n, hk.symm, fun j hj _ => Nat.le_of_lt_succ hj⟩, rfl⟩
      · rw [if_neg hk]
        have hold : ∀ j < n + 1, (recs j).key.bytes = k → j < n := fun j hj hjk =>
          Nat.lt_of_le_of_ne (Nat.le_of_lt_succ hj) fun hjn => hk (hjn ▸ hjk.symm)
        obtain ⟨i, ⟨hlt, hkey, hlast⟩, hval⟩ | ⟨hnone, hval⟩ := ih
        · exact .inl ⟨i, ⟨Nat.lt_succ_of_lt hlt, hkey, fun j hj hjk =>
            hlast j (hold j hj hjk) hjk⟩, hval⟩
        · exact .inr ⟨fun j hj hjk => hnone j (hold j hj hjk) hjk, hval⟩

/-- The indices that `ex_env` keeps. -/
def keptIdx (recs : Nat → EnvRec) (envc : Nat) (idxA idxB : Nat → Nat) : List Nat :=
  keepLast (sameKey recs) (Circular.read (sortedIdx recs envc idxA idxB) 0 envc)

theorem mem_keptIdx (recs : Nat → EnvRec) (envc : Nat) (idxA idxB : Nat → Nat) (i : Nat) :
    i ∈ keptIdx recs envc idxA idxB ↔ LastOf recs envc (recs i).key.bytes i := by
  obtain ⟨hperm, hlex⟩ := sortedIdx_sorted recs envc idxA idxB
  rw [Nat.sub_zero] at hperm hlex
  have hmem : ∀ j, j ∈ Circular.read (sortedIdx recs envc idxA idxB) 0 envc ↔ j < envc := by
    intro j
    rw [hperm.mem_iff, List.mem_range'_1]
    omega
  rw [keptIdx, mem_keepLast (keyBelow_weak recs) (sameKey_below recs) hlex, hmem]
  constructor
  · rintro ⟨hlt, hlast⟩
    exact ⟨hlt, rfl, fun j hj hjk =>
      hlast j ((hmem j).mpr hj) ((sameKey_iff recs i j).mpr hjk.symm)⟩
  · rintro ⟨hlt, -, hlast⟩
    exact ⟨hlt, fun j hj hij => hlast j ((hmem j).mp hj) ((sameKey_iff recs i j).mp hij).symm⟩

theorem keptIdx_pairwise (recs : Nat → EnvRec) (envc : Nat) (idxA idxB : Nat → Nat) :
    (keptIdx recs envc idxA idxB).Pairwise fun i j =>
      (recs i).key.bytes < (recs j).key.bytes := by
  have hlex := (sortedIdx_sorted recs envc idxA idxB).lex
  rw [Nat.sub_zero] at hlex
  exact (keepLast_pairwise (keyBelow_weak recs) (sameKey_below recs) hlex).imp
    fun {i j} h => (keyBelow_iff recs i j).mp h

/-- Looking a key up among the entries kept is looking it up in the map. -/
theorem find_kept (recs : Nat → EnvRec) (envc : Nat) (idxA idxB : Nat → Nat) (k : List UInt8) :
    (((keptIdx recs envc idxA idxB).map recs).find? (fun r => r.key.bytes == k)).map
        (fun r => r.value.bytes) = inserted (Circular.read recs 0 envc) k := by
  obtain ⟨i, hlast, hval⟩ | ⟨hnone, hval⟩ := inserted_cases recs envc k
  · rw [hval]
    cases hfind : ((keptIdx recs envc idxA idxB).map recs).find? (fun r => r.key.bytes == k) with
    | none =>
        have hkept : i ∈ keptIdx recs envc idxA idxB :=
          (mem_keptIdx recs envc idxA idxB i).mpr (hlast.2.1 ▸ hlast)
        have hno := List.find?_eq_none.mp hfind (recs i) (List.mem_map_of_mem hkept)
        exact absurd (beq_iff_eq.mpr hlast.2.1) hno
    | some r =>
        obtain ⟨x, hx, rfl⟩ := List.mem_map.mp (List.mem_of_find?_eq_some hfind)
        have hkey : (recs x).key.bytes = k := by simpa using List.find?_some hfind
        have hxlast := (mem_keptIdx recs envc idxA idxB x).mp hx
        have hxi : x = i := Nat.le_antisymm (hlast.2.2 x hxlast.1 hkey)
          (hxlast.2.2 i hlast.1 (hlast.2.1.trans hkey.symm))
        rw [hxi]
        rfl
  · rw [hval]
    have hno : ((keptIdx recs envc idxA idxB).map recs).find?
        (fun r => r.key.bytes == k) = none := by
      refine List.find?_eq_none.mpr fun r hr => ?_
      obtain ⟨x, hx, rfl⟩ := List.mem_map.mp hr
      have hxlast := (mem_keptIdx recs envc idxA idxB x).mp hx
      simpa using hnone x hxlast.1
    rw [hno]
    rfl

theorem keep_path (rs : List EnvRec) (out : EnvOut)
    (h : rs.Pairwise fun r s => r.key.bytes < s.key.bytes) :
    (rs.foldl EnvOut.keep out).path =
      ((rs.find? fun r => r.key.bytes == pathKey).map fun r => r.value.bytes).or out.path := by
  induction rs generalizing out with
  | nil => rfl
  | cons r rs ih =>
      rw [List.foldl_cons, ih (out.keep r) h.tail, List.find?_cons]
      by_cases hr : r.key.bytes = pathKey
      · have hno : (rs.find? fun r => r.key.bytes == pathKey) = none := by
          refine List.find?_eq_none.mpr fun s hs hkey => ?_
          have hlt := List.rel_of_pairwise_cons h hs
          rw [hr, beq_iff_eq.mp hkey] at hlt
          exact List.lt_irrefl _ hlt
        rw [hno]
        simp [EnvOut.keep, hr]
      · have hbeq : (r.key.bytes == pathKey) = false := by simpa using hr
        rw [hbeq]
        simp [EnvOut.keep, hr]

/-- **The command's environment is the ordered map of the frame's entries**: what
`ex_env` passes is sorted by key in unsigned byte order, has each key once, and
looking a key up in it finds what inserting the entries one after the other left
there; `ex_path` is what is found at PATH. -/
theorem ex_env_ordered (recs : Nat → EnvRec) (envc : Nat) (idxA idxB : Nat → Nat) (nul : Bool) :
    ∃ kept : List EnvRec,
      (exEnv recs envc idxA idxB nul).envp =
          kept.map (fun r => r.key.bytes ++ 0x3d :: r.value.bytes) ∧
        kept.Pairwise (fun r s => r.key.bytes < s.key.bytes) ∧
        (∀ k, (kept.find? (fun r => r.key.bytes == k)).map (fun r => r.value.bytes) =
          inserted (Circular.read recs 0 envc) k) ∧
        (exEnv recs envc idxA idxB nul).path =
          inserted (Circular.read recs 0 envc) pathKey ∧
        (exEnv recs envc idxA idxB nul).nul = (nul || kept.any EnvRec.nul) := by
  have hout : exEnv recs envc idxA idxB nul =
      ((keptIdx recs envc idxA idxB).map recs).foldl EnvOut.keep ⟨[], none, nul⟩ :=
    keepEntries_eq recs _ envc 0 _
  have hsorted : ((keptIdx recs envc idxA idxB).map recs).Pairwise
      fun r s => r.key.bytes < s.key.bytes :=
    List.pairwise_map.mpr (keptIdx_pairwise recs envc idxA idxB)
  refine ⟨_, ?_, hsorted, find_kept recs envc idxA idxB, ?_, ?_⟩
  · rw [hout, (keep_all _ _).1]
    rfl
  · rw [hout, keep_path _ _ hsorted, find_kept, Option.or_none]
  · rw [hout, (keep_all _ _).2]

end Phi.Card
