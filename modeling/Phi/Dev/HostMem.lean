import Mathlib.Data.List.Basic
import Phi.Lib.Run

/-!
# Phi.Dev.HostMem

`/dev/phihost`: reads and writes of host memory mapped into the card.

A transfer goes through the bounce buffer, 64 KiB at a time.  What an access to
the caller's memory gets done before it faults is a parameter, for any pattern
of faults.  A fault in a chunk after the first returns the bytes moved so far,
from inside the loop, and leaves `*ppos` where it was.
-/

namespace Phi.Dev

/-! ## the transfer loop -/

/-- `KNC_HOSTMEM_CHUNK`. -/
def chunkSize : Nat := 65536

/-- `copy_to_user` and `copy_from_user` on the caller's buffer: how many of the
`n` bytes at an offset are copied. -/
structure Access where
  copied : Nat → Nat → Nat
  le : ∀ off n, copied off n ≤ n

section transfer

variable {σ : Type} (access : Access) (part whole : Nat → Nat → σ → σ) (count : Nat)

/-- The loop over the chunks: `whole` moves one, `part` is what a fault leaves
of it.  Gives the bytes done and whether a chunk faulted. -/
def transfer : Nat → Nat → σ → Nat × σ × Bool
  | 0, done, s => (done, s, false)
  | fuel + 1, done, s =>
      if done < count then
        let n := min (count - done) chunkSize
        let copied := access.copied done n
        if copied < n then (done, part done copied s, true)
        else transfer fuel (done + n) (whole done n s)
      else (done, s, false)

end transfer

/-! ## the device -/

inductive Errno where
  | efault | erestartsys | enospc
deriving DecidableEq, Repr

inductive Ret where
  | count (n : Nat)
  | error (e : Errno)
deriving DecidableEq, Repr

/-- The window, the caller's buffer from `buf` on, and `*ppos`. -/
structure State where
  map : Nat → UInt8
  user : Nat → UInt8
  pos : Nat

/-- `n` bytes to the caller, `done` being there. -/
def State.give (s : State) (done n : Nat) (user : Nat → UInt8) : Nat → UInt8 := fun i =>
  if done ≤ i ∧ i < done + n then s.map (s.pos + i) else user i

/-- `n` bytes into the window. -/
def State.take (s : State) (done n : Nat) (map : Nat → UInt8) : Nat → UInt8 := fun x =>
  if s.pos + done ≤ x ∧ x < s.pos + done + n then s.user (x - s.pos) else map x

/-- `knc_hostmem_read`; `interrupted` is what `mutex_lock_interruptible` finds. -/
def kncHostmemRead (size : Nat) (interrupted : Bool) (access : Access) (count : Nat) (s : State) :
    Ret × State :=
  if size ≤ s.pos then (.count 0, s)
  else
    let count := min count (size - s.pos)
    if interrupted then (.error .erestartsys, s)
    else
      let (done, user, faulted) := transfer access s.give s.give count count 0 s.user
      if faulted then
        (if done ≠ 0 then .count done else .error .efault, { s with user := user })
      else (.count done, { s with user := user, pos := s.pos + done })

/-- `knc_hostmem_write`. -/
def kncHostmemWrite (size : Nat) (interrupted : Bool) (access : Access) (count : Nat)
    (s : State) : Ret × State :=
  if size ≤ s.pos then (.error .enospc, s)
  else
    let count := min count (size - s.pos)
    if interrupted then (.error .erestartsys, s)
    else
      let (done, map, faulted) :=
        transfer access (fun _ _ map => map) s.take count count 0 s.map
      if faulted then
        (if done ≠ 0 then .count done else .error .efault, { s with map := map })
      else (.count done, { s with map := map, pos := s.pos + done })

/-! ## the chunks -/

section chunks

variable (access : Access) (count : Nat)

/-- Chunk `k` is copied whole. -/
def Whole (k : Nat) : Prop :=
  access.copied (k * chunkSize) (min (count - k * chunkSize) chunkSize) =
    min (count - k * chunkSize) chunkSize

/-- No chunk after the first faults, unless the first one does. -/
def NoLateFault : Prop :=
  ¬ Whole access count 0 ∨ ∀ k, 0 < k → k * chunkSize < count → Whole access count k

variable {access count} {σ : Type} {part whole : Nat → Nat → σ → σ}

/-- The loop from chunk `k` on: to the end, or to the first chunk that faults. -/
theorem transfer_spec {P : Nat → σ → Prop}
    (hwhole : ∀ done n s, P done s → P (done + n) (whole done n s)) {fuel done k : Nat} {s : σ}
    (hdone : done = min (k * chunkSize) count) (hfuel : count ≤ done + fuel) (hs : P done s) :
    (∃ t, transfer access part whole count fuel done s = (count, t, false) ∧ P count t ∧
        ∀ j, k ≤ j → j * chunkSize < count → Whole access count j) ∨
      ∃ j t, k ≤ j ∧ j * chunkSize < count ∧ ¬ Whole access count j ∧
        (∀ i, k ≤ i → i < j → Whole access count i) ∧ P (j * chunkSize) t ∧
        transfer access part whole count fuel done s =
          (j * chunkSize, part (j * chunkSize)
            (access.copied (j * chunkSize) (min (count - j * chunkSize) chunkSize)) t, true) := by
  induction fuel generalizing done k s with
  | zero =>
      have hend : done = count := by omega
      subst hend
      refine .inl ⟨s, rfl, hs, fun j hj hlt => ?_⟩
      have := Nat.mul_le_mul_right chunkSize hj
      omega
  | succ fuel ih =>
      by_cases hlt : done < count
      · have hk : done = k * chunkSize := by omega
        rw [transfer, if_pos hlt]
        dsimp only
        by_cases hfault : access.copied done (min (count - done) chunkSize) <
            min (count - done) chunkSize
        · rw [if_pos hfault]
          subst hk
          exact .inr ⟨k, s, Nat.le_refl k, hlt, Nat.ne_of_lt hfault, fun i hi hi' => by omega, hs,
            rfl⟩
        · rw [if_neg hfault]
          have hle := access.le done (min (count - done) chunkSize)
          have hfirst : Whole access count k := by
            subst hk
            exact Nat.le_antisymm hle (Nat.not_lt.mp hfault)
          have hnext : (k + 1) * chunkSize = k * chunkSize + chunkSize := Nat.succ_mul k chunkSize
          have hpos : 0 < chunkSize := by decide
          have hdone' : done + min (count - done) chunkSize = min ((k + 1) * chunkSize) count := by
            omega
          obtain ⟨t, hrun, ht, hall⟩ | ⟨j, t, hj, hjlt, hbad, hbefore, ht, hrun⟩ :=
            ih hdone' (by omega) (hwhole _ _ _ hs)
          · refine .inl ⟨t, hrun, ht, fun j hj hjlt => ?_⟩
            rcases Nat.eq_or_lt_of_le hj with rfl | hj
            · exact hfirst
            · exact hall j hj hjlt
          · refine .inr ⟨j, t, by omega, hjlt, hbad, fun i hi hi' => ?_, ht, hrun⟩
            rcases Nat.eq_or_lt_of_le hi with rfl | hi
            · exact hfirst
            · exact hbefore i hi hi'
      · rw [transfer, if_neg hlt]
        have hend : done = count := by omega
        subst hend
        refine .inl ⟨s, rfl, hs, fun j hj hlt => ?_⟩
        have := Nat.mul_le_mul_right chunkSize hj
        omega

/-- A transfer from the start: through, a fault in the first chunk, or one in a
later chunk. -/
theorem transfer_start (access : Access) (count : Nat) (part whole : Nat → Nat → σ → σ)
    (P : Nat → σ → Prop)
    (hwhole : ∀ done n s, P done s → P (done + n) (whole done n s)) {s : σ} (hs : P 0 s) :
    (∃ t, transfer access part whole count count 0 s = (count, t, false) ∧ P count t ∧
        NoLateFault access count) ∨
      (∃ n t, transfer access part whole count count 0 s = (0, part 0 n t, true) ∧ P 0 t ∧
        NoLateFault access count) ∨
      ∃ done t, transfer access part whole count count 0 s = (done, t, true) ∧ 0 < done ∧
        ¬ NoLateFault access count := by
  have hzero : 0 = min (0 * chunkSize) count := by omega
  obtain ⟨t, hrun, ht, hall⟩ | ⟨j, t, -, hlt, hbad, hbefore, ht, hrun⟩ :=
    transfer_spec hwhole hzero (Nat.le_add_left count 0) hs
  · exact .inl ⟨t, hrun, ht, .inr fun k _ hk => hall k (Nat.zero_le k) hk⟩
  · rcases Nat.eq_zero_or_pos j with rfl | hj
    · rw [Nat.zero_mul] at hrun ht
      exact .inr (.inl ⟨_, t, hrun, ht, .inl hbad⟩)
    · have hchunk : 0 < chunkSize := by decide
      refine .inr (.inr ⟨_, _, hrun, Nat.mul_pos hj hchunk, ?_⟩)
      rintro (hfirst | hlater)
      · exact hfirst (hbefore 0 (Nat.le_refl 0) hj)
      · exact hbad (hlater j hj hlt)

end chunks

/-! ## what a call reports -/

/-- What a read returns is what it gave the caller, and `*ppos` moved by as
much; an error moves nothing on. -/
def ReadsRight (s : State) (r : Ret × State) : Prop :=
  match r.1 with
  | .count n => (∀ i, r.2.user i = if i < n then s.map (s.pos + i) else s.user i) ∧
      r.2.pos = s.pos + n
  | .error _ => r.2.pos = s.pos

/-- What a write returns is what it put into the window. -/
def WritesRight (s : State) (r : Ret × State) : Prop :=
  match r.1 with
  | .count n =>
      (∀ x, r.2.map x = if s.pos ≤ x ∧ x < s.pos + n then s.user (x - s.pos) else s.map x) ∧
      r.2.pos = s.pos + n
  | .error _ => r.2.map = s.map ∧ r.2.pos = s.pos

section calls

variable (size : Nat) (interrupted : Bool) (access : Access) (count : Nat) (s : State)

/-- The call does not come to its loop, or no chunk after the first faults. -/
def Sound : Prop :=
  interrupted = true ∨ NoLateFault access (min count (size - s.pos))

theorem give_grows (done n : Nat) (user : Nat → UInt8)
    (h : ∀ i, user i = if i < done then s.map (s.pos + i) else s.user i) (i : Nat) :
    s.give done n user i = if i < done + n then s.map (s.pos + i) else s.user i := by
  rw [State.give]
  by_cases hin : done ≤ i ∧ i < done + n
  · rw [if_pos hin, if_pos hin.2]
  · rw [if_neg hin, h i]
    by_cases hlt : i < done
    · rw [if_pos hlt, if_pos (by omega)]
    · rw [if_neg hlt, if_neg (by omega)]

theorem take_grows (done n : Nat) (map : Nat → UInt8)
    (h : ∀ x, map x = if s.pos ≤ x ∧ x < s.pos + done then s.user (x - s.pos) else s.map x)
    (x : Nat) :
    s.take done n map x =
      if s.pos ≤ x ∧ x < s.pos + (done + n) then s.user (x - s.pos) else s.map x := by
  rw [State.take]
  by_cases hin : s.pos + done ≤ x ∧ x < s.pos + done + n
  · rw [if_pos hin, if_pos (by omega)]
  · rw [if_neg hin, h x]
    by_cases hlt : s.pos ≤ x ∧ x < s.pos + done
    · rw [if_pos hlt, if_pos (by omega)]
    · rw [if_neg hlt, if_neg (by omega)]

/-- Nothing lies behind the end of the window. -/
theorem sound_of_end (h : size ≤ s.pos) : Sound size interrupted access count s := by
  refine .inr (.inr fun k _ hk => ?_)
  omega

theorem read_right_iff :
    ReadsRight s (kncHostmemRead size interrupted access count s) ↔
      Sound size interrupted access count s := by
  unfold kncHostmemRead
  by_cases hend : size ≤ s.pos
  · rw [if_pos hend]
    exact iff_of_true ⟨fun i => (if_neg (Nat.not_lt_zero i)).symm, rfl⟩
      (sound_of_end size interrupted access count s hend)
  · rw [if_neg hend]
    cases interrupted with
    | true => exact iff_of_true rfl (.inl rfl)
    | false =>
        have hsound : Sound size false access count s ↔
            NoLateFault access (min count (size - s.pos)) := by simp [Sound]
        obtain ⟨user, hrun, huser, hgood⟩ | ⟨n, user, hrun, -, hgood⟩ |
            ⟨done, user, hrun, hpos, hbad⟩ :=
          transfer_start access (min count (size - s.pos)) s.give s.give
            (fun done user => ∀ i, user i = if i < done then s.map (s.pos + i) else s.user i)
            (give_grows s) (s := s.user) fun i => (if_neg (Nat.not_lt_zero i)).symm
        · rw [hsound]
          simp only [Bool.false_eq_true, if_false, hrun]
          exact iff_of_true ⟨huser, rfl⟩ hgood
        · rw [hsound]
          simp only [Bool.false_eq_true, if_false, hrun, if_true]
          exact iff_of_true rfl hgood
        · rw [hsound]
          simp only [Bool.false_eq_true, if_false, hrun, if_true, if_pos (Nat.ne_of_gt hpos)]
          refine iff_of_false (fun h => ?_) hbad
          have hmoved : s.pos = s.pos + done := h.2
          omega

theorem write_right_iff :
    WritesRight s (kncHostmemWrite size interrupted access count s) ↔
      Sound size interrupted access count s := by
  unfold kncHostmemWrite
  by_cases hend : size ≤ s.pos
  · rw [if_pos hend]
    exact iff_of_true ⟨rfl, rfl⟩ (sound_of_end size interrupted access count s hend)
  · rw [if_neg hend]
    cases interrupted with
    | true => exact iff_of_true ⟨rfl, rfl⟩ (.inl rfl)
    | false =>
        have hsound : Sound size false access count s ↔
            NoLateFault access (min count (size - s.pos)) := by simp [Sound]
        obtain ⟨map, hrun, hmap, hgood⟩ | ⟨n, map, hrun, hmap, hgood⟩ |
            ⟨done, map, hrun, hpos, hbad⟩ :=
          transfer_start access (min count (size - s.pos)) (fun _ _ map => map) s.take
            (fun done map => ∀ x, map x =
              if s.pos ≤ x ∧ x < s.pos + done then s.user (x - s.pos) else s.map x)
            (take_grows s) (s := s.map) fun x => (if_neg (by omega)).symm
        · rw [hsound]
          simp only [Bool.false_eq_true, if_false, hrun]
          exact iff_of_true ⟨hmap, rfl⟩ hgood
        · have hsame : map = s.map := funext fun x => (hmap x).trans (if_neg (by omega))
          rw [hsound]
          simp only [Bool.false_eq_true, if_false, hrun, if_true]
          exact iff_of_true ⟨hsame, rfl⟩ hgood
        · rw [hsound]
          simp only [Bool.false_eq_true, if_false, hrun, if_true, if_pos (Nat.ne_of_gt hpos)]
          refine iff_of_false (fun h => ?_) hbad
          have hmoved : s.pos = s.pos + done := h.2
          omega

end calls

/-! ## a caller that continues -/

/-- A call's count and what it meets. -/
structure Call where
  count : Nat
  interrupted : Bool
  access : Access

def Call.read (size : Nat) (s : State) (c : Call) : Ret × State :=
  kncHostmemRead size c.interrupted c.access c.count s

def Call.write (size : Nat) (s : State) (c : Call) : Ret × State :=
  kncHostmemWrite size c.interrupted c.access c.count s

def Call.Sound (size : Nat) (s : State) (c : Call) : Prop :=
  Dev.Sound size c.interrupted c.access c.count s

/-- The bytes a call reports. -/
def Ret.bytes : Ret → Nat
  | .count n => n
  | .error _ => 0

/-- A caller that reads on after each call: what it was told it got. -/
def readOn (size : Nat) : List Call → State → List UInt8 × State
  | [], s => ([], s)
  | c :: cs, s =>
      let (r, t) := c.read size s
      let (rest, u) := readOn size cs t
      ((List.range r.bytes).map t.user ++ rest, u)

/-- A caller that writes on with what it was told is not written yet. -/
def writeOn (size : Nat) (data : Nat → UInt8) : List Call → Nat → State → Nat × State
  | [], sent, s => (sent, s)
  | c :: cs, sent, s =>
      let (r, t) := c.write size { s with user := fun i => data (sent + i) }
      writeOn size data cs (sent + r.bytes) t

theorem read_map (size : Nat) (s : State) (c : Call) : (c.read size s).2.map = s.map := by
  unfold Call.read kncHostmemRead
  dsimp only
  split
  · rfl
  · split
    · rfl
    · split <;> rfl

/-- A sound read gives the caller the next bytes of the window. -/
theorem read_next (size : Nat) (s : State) (c : Call) (h : c.Sound size s) :
    (List.range (c.read size s).1.bytes).map (c.read size s).2.user =
        (List.range (c.read size s).1.bytes).map (fun i => s.map (s.pos + i)) ∧
      (c.read size s).2.pos = s.pos + (c.read size s).1.bytes := by
  have hright : ReadsRight s (c.read size s) :=
    (read_right_iff size c.interrupted c.access c.count s).mpr h
  unfold ReadsRight at hright
  cases hret : (c.read size s).1 with
  | count n =>
      rw [hret] at hright
      refine ⟨List.map_congr_left fun i hi => ?_, hright.2⟩
      have hlt : i < n := List.mem_range.mp hi
      rw [hright.1 i, if_pos hlt]
  | error e =>
      rw [hret] at hright
      exact ⟨rfl, hright⟩

theorem readOn_next (size : Nat) (cs : List Call) (s : State)
    (h : Along (fun s c => (Call.read size s c).2) (Call.Sound size) s cs) :
    ∃ k, (readOn size cs s).1 = (List.range k).map (fun i => s.map (s.pos + i)) ∧
      (readOn size cs s).2.pos = s.pos + k := by
  induction cs generalizing s with
  | nil => exact ⟨0, rfl, rfl⟩
  | cons c cs ih =>
      obtain ⟨hsound, hrest⟩ := h
      obtain ⟨k, hbytes, hpos⟩ := ih _ hrest
      obtain ⟨hfirst, hmoved⟩ := read_next size s c hsound
      refine ⟨(c.read size s).1.bytes + k, ?_, ?_⟩
      · show (List.range (c.read size s).1.bytes).map (c.read size s).2.user ++
          (readOn size cs (c.read size s).2).1 = _
        rw [hfirst, hbytes, read_map, hmoved, List.range_add, List.map_append, List.map_map]
        congr 1
        refine List.map_congr_left fun i _ => ?_
        rw [Function.comp, Nat.add_assoc]
      · show (readOn size cs (c.read size s).2).2.pos = _
        rw [hpos, hmoved, Nat.add_assoc]

/-- The writes of a caller that writes on are all sound. -/
def SoundWrites (size : Nat) (data : Nat → UInt8) : List Call → Nat → State → Prop
  | [], _, _ => True
  | c :: cs, sent, s =>
      c.Sound size s ∧
        SoundWrites size data cs
          (sent + (c.write size { s with user := fun i => data (sent + i) }).1.bytes)
          (c.write size { s with user := fun i => data (sent + i) }).2

theorem writeOn_next (size : Nat) (data : Nat → UInt8) (cs : List Call) (sent : Nat) (s : State)
    (h : SoundWrites size data cs sent s) :
    ∃ k, (writeOn size data cs sent s).1 = sent + k ∧
      (writeOn size data cs sent s).2.pos = s.pos + k ∧
      ∀ x, (writeOn size data cs sent s).2.map x =
        if s.pos ≤ x ∧ x < s.pos + k then data (sent + (x - s.pos)) else s.map x := by
  induction cs generalizing sent s with
  | nil => exact ⟨0, rfl, rfl, fun x => (if_neg (by omega)).symm⟩
  | cons c cs ih =>
      obtain ⟨hsound, hrest⟩ := h
      have hright : WritesRight { s with user := fun i => data (sent + i) }
          (c.write size { s with user := fun i => data (sent + i) }) :=
        (write_right_iff size c.interrupted c.access c.count
          { s with user := fun i => data (sent + i) }).mpr hsound
      rw [writeOn]
      generalize c.write size { s with user := fun i => data (sent + i) } = r at hright hrest ⊢
      obtain ⟨ret, t⟩ := r
      have hmoved : t.pos = s.pos + ret.bytes ∧ ∀ x, t.map x =
          if s.pos ≤ x ∧ x < s.pos + ret.bytes then data (sent + (x - s.pos)) else s.map x := by
        cases ret with
        | count n => exact ⟨hright.2, hright.1⟩
        | error e => exact ⟨hright.2, fun x => (congrFun hright.1 x).trans (if_neg (by
            show ¬ (s.pos ≤ x ∧ x < s.pos + 0)
            omega)).symm⟩
      obtain ⟨k, hsent, hpos, hmap⟩ := ih _ _ hrest
      refine ⟨ret.bytes + k, by rw [hsent, Nat.add_assoc], by rw [hpos, hmoved.1, Nat.add_assoc],
        fun x => ?_⟩
      rw [hmap x, hmoved.2 x, hmoved.1]
      by_cases hfirst : s.pos ≤ x ∧ x < s.pos + ret.bytes
      · rw [if_neg (by omega), if_pos hfirst, if_pos (by omega)]
      · rw [if_neg hfirst]
        by_cases hlater : s.pos + ret.bytes ≤ x ∧ x < s.pos + ret.bytes + k
        · have hoff : sent + ret.bytes + (x - (s.pos + ret.bytes)) = sent + (x - s.pos) := by
            omega
          rw [if_pos hlater, if_pos (by omega)]
          exact congrArg data hoff
        · rw [if_neg hlater, if_neg (by omega)]

/-- A call of one chunk has no later one. -/
theorem sound_of_le (size : Nat) (s : State) {c : Call} (h : c.count ≤ chunkSize) :
    c.Sound size s := by
  refine .inr (.inr fun k hk hlt => ?_)
  have := Nat.le_mul_of_pos_left chunkSize hk
  omega

/-- **A transfer moves what it reports exactly when no chunk after the first
faults alone**; and over calls that do, a caller that continues neither repeats
nor skips a byte. -/
theorem hostmem_right_iff (size : Nat) :
    (∀ (interrupted : Bool) (access : Access) (count : Nat) (s : State),
        (ReadsRight s (kncHostmemRead size interrupted access count s) ↔
          Sound size interrupted access count s) ∧
        (WritesRight s (kncHostmemWrite size interrupted access count s) ↔
          Sound size interrupted access count s)) ∧
      (∀ (cs : List Call) (s : State),
        Along (fun s c => (Call.read size s c).2) (Call.Sound size) s cs →
          ∃ k, (readOn size cs s).1 = (List.range k).map (fun i => s.map (s.pos + i)) ∧
            (readOn size cs s).2.pos = s.pos + k) ∧
      ∀ (data : Nat → UInt8) (cs : List Call) (s : State),
        SoundWrites size data cs 0 s →
          ∃ k, (writeOn size data cs 0 s).1 = k ∧ (writeOn size data cs 0 s).2.pos = s.pos + k ∧
            ∀ x, (writeOn size data cs 0 s).2.map x =
              if s.pos ≤ x ∧ x < s.pos + k then data (x - s.pos) else s.map x := by
  refine ⟨fun interrupted access count s =>
    ⟨read_right_iff size interrupted access count s,
      write_right_iff size interrupted access count s⟩,
    readOn_next size, fun data cs s h => ?_⟩
  obtain ⟨k, hsent, hpos, hmap⟩ := writeOn_next size data cs 0 s h
  rw [Nat.zero_add] at hsent
  exact ⟨k, hsent, hpos, fun x => by rw [hmap x, Nat.zero_add]⟩

/-- Memory that ends `n` bytes into the caller's buffer. -/
def mappedTo (n : Nat) : Access where
  copied off len := min len (n - off)
  le _ _ := Nat.min_le_left _ _

/-- A caller that reads 4 KiB at a time, the second time into bad memory. -/
theorem hostmem_right_iff_page (map user : Nat → UInt8) :
    ∃ k, (readOn 70000 [⟨4096, false, mappedTo 4096⟩, ⟨4096, false, mappedTo 100⟩,
          ⟨4096, false, mappedTo 4096⟩] ⟨map, user, 60000⟩).1 =
        (List.range k).map fun i => map (60000 + i) := by
  obtain ⟨k, hbytes, -⟩ := (hostmem_right_iff 70000).2.1 [⟨4096, false, mappedTo 4096⟩,
    ⟨4096, false, mappedTo 100⟩, ⟨4096, false, mappedTo 4096⟩] ⟨map, user, 60000⟩
    ⟨sound_of_le _ _ (by decide), sound_of_le _ _ (by decide), sound_of_le _ _ (by decide), trivial⟩
  exact ⟨k, hbytes⟩

/-- 128 KiB into memory mapped for 100000 bytes: 65536 are reported and the
position stays. -/
theorem hostmem_fault_later :
    ¬ ReadsRight ⟨fun _ => 1, fun _ => 0, 0⟩
        (kncHostmemRead 131072 false (mappedTo 100000) 131072 ⟨fun _ => 1, fun _ => 0, 0⟩) ∧
      (kncHostmemRead 131072 false (mappedTo 100000) 131072 ⟨fun _ => 1, fun _ => 0, 0⟩).1 =
        .count 65536 ∧
      (kncHostmemRead 131072 false (mappedTo 100000) 131072 ⟨fun _ => 1, fun _ => 0, 0⟩).2.pos =
        0 := by
  refine ⟨fun h => ?_, rfl, rfl⟩
  have hmoved : (0 : Nat) = 0 + 65536 := h.2
  omega

end Phi.Dev
