import Phi.Lib.Probe
import Phi.Top.Snapshot

/-!
# Phi.Top.Seen

The history of processes: pid -> (ticks, time), in an open addressing table
of `seenCap` entries (`model.S`).

An entry whose pid is 0 is empty.  `seenFind` walks from the pid's slot to the
pid or to an empty entry; it has no bound of its own, so it ends within
`seenCap` steps or not at all (`seenFrom_eq_none`).  `seenRemember` records
every listed process and then forgets the entries that were not seen for two
minutes: a stale entry is emptied and the entries behind it in its chain are
put back one by one.  A walk that does not end gives `none`.
-/

namespace Phi.Top

open Probe

/-! ## the table -/

def seenBits : Nat := 16
def seenCap : Nat := 1 <<< seenBits
def forgetAfterUs : UInt64 := 120000000

/-- An entry of the table. -/
structure Seen where
  pid : UInt32
  ticks : UInt64
  atUs : UInt64
deriving DecidableEq

abbrev SeenTable := Nat → Seen

/-- The slot's history as it is mapped: all zero. -/
def seenEmpty : SeenTable := fun _ => ⟨0, 0, 0⟩

/-! ## `seen_find` -/

/-- The slot where the walk for a pid starts. -/
def seenHash (pid : UInt32) : Nat := ((pid * 2654435761) >>> 16).toNat

/-- The slot behind another. -/
def seenNext (h : Nat) : Nat := (h + 1) &&& (seenCap - 1)

/-- The walk of `seen_find`, for so many steps. -/
def seenFrom (t : SeenTable) (pid : UInt32) : Nat → Nat → Option Nat
  | 0, _ => none
  | n + 1, h => if (t h).pid = 0 ∨ (t h).pid = pid then some h else seenFrom t pid n (seenNext h)

/-- `seen_find`: the entry of a pid, or the empty one for it. -/
def seenFind (t : SeenTable) (pid : UInt32) : Option Nat := seenFrom t pid seenCap (seenHash pid)

/-! ## `seen_remember` -/

/-- One listed process recorded. -/
def seenRecord (atUs : UInt64) (t : SeenTable) (p : Proc) : Option SeenTable := do
  let i ← seenFind t p.pid
  return Function.update t i ⟨p.pid, p.ticks, atUs⟩

/-- Every listed process recorded. -/
def seenRecordAll (atUs : UInt64) (t : SeenTable) (procs : List Proc) : Option SeenTable :=
  procs.foldlM (seenRecord atUs) t

/-- An entry emptied: its pid becomes 0. -/
def seenClear (t : SeenTable) (i : Nat) : SeenTable := Function.update t i { t i with pid := 0 }

/-- The entries from `c` on up to an empty one are taken out and put where
`seen_find` then finds them. -/
def seenReinsert : Nat → SeenTable → Nat → Option SeenTable
  | 0, _, _ => none
  | n + 1, t, c =>
      if (t c).pid = 0 then some t
      else do
        let i ← seenFind (seenClear t c) (t c).pid
        seenReinsert n (Function.update (seenClear t c) i (t c)) (seenNext c)

/-- More steps than the entries of a chain can make towards their slots. -/
def reinsertSteps : Nat := seenCap * seenCap * seenCap + seenCap

/-- The entry was not seen for two minutes. -/
def Stale (now : UInt64) (e : Seen) : Prop := e.pid ≠ 0 ∧ forgetAfterUs ≤ now - e.atUs

instance (now : UInt64) (e : Seen) : Decidable (Stale now e) := by
  unfold Stale; infer_instance

/-- The walk that forgets the stale, at entry `i`. -/
def seenForgetAt (now : UInt64) (t : SeenTable) (i : Nat) : Option SeenTable :=
  if Stale now (t i) then seenReinsert reinsertSteps (seenClear t i) (seenNext i) else some t

/-- The walk that forgets the stale, over the first `n` entries. -/
def seenForget (now : UInt64) (t : SeenTable) : Nat → Option SeenTable
  | 0 => some t
  | n + 1 => do
      let t ← seenForget now t n
      seenForgetAt now t n

def seenRemember (t : SeenTable) (s : Snapshot) : Option SeenTable := do
  let t ← seenRecordAll s.atUs t s.procs
  seenForget s.atUs t seenCap

/-! ## as a table of `Phi.Lib.Probe` -/

theorem seenHash_lt (pid : UInt32) : seenHash pid < seenCap := by
  have hlt := (pid * 2654435761).toNat_lt
  have hshift : UInt32.toNat 16 % 32 = 16 := rfl
  rw [seenHash, UInt32.toNat_shiftRight, hshift, Nat.shiftRight_eq_div_pow]
  change _ < 2 ^ 16
  omega

def seenShape : Shape Seen UInt32 where
  size := seenCap
  key := Seen.pid
  home := seenHash
  home_lt := seenHash_lt

/-- The entries that are not empty. -/
def cells (t : SeenTable) (i : Nat) : Option Seen := if (t i).pid = 0 then none else some (t i)

variable {t t' : SeenTable} {i c p n : Nat} {pid : UInt32} {e : Seen}

theorem cells_eq_none : cells t i = none ↔ (t i).pid = 0 := by
  simp [cells]

theorem cells_eq_some : cells t i = some e ↔ t i = e ∧ e.pid ≠ 0 := by
  unfold cells
  split <;> grind

theorem cells_update (t : SeenTable) (i : Nat) (x : Seen) :
    cells (Function.update t i x) =
      Function.update (cells t) i (if x.pid = 0 then none else some x) := by
  funext j
  by_cases h : j = i
  · subst h; simp [cells]
  · simp [cells, Function.update_of_ne h]

theorem cells_clear (t : SeenTable) (i : Nat) :
    cells (seenClear t i) = Function.update (cells t) i none := by
  simp [seenClear, cells_update]

@[simp] theorem cells_empty : cells seenEmpty = fun _ => none := rfl

theorem seenNext_eq (hc : c < seenCap) : seenNext c = slot seenCap c 1 := by
  have h : seenCap - 1 = 2 ^ 16 - 1 := rfl
  rw [seenNext, h, Nat.and_two_pow_sub_one_eq_mod, slot_eq_mod hc (by decide)]
  rfl

/-! ## what each routine does -/

/-- The walk stops at the entry. -/
def Stops (t : SeenTable) (pid : UInt32) (i : Nat) : Prop := (t i).pid = 0 ∨ (t i).pid = pid

theorem seenFrom_eq_some {h : Nat} (hh : h < seenCap) (hn : n ≤ seenCap) :
    seenFrom t pid n h = some p ↔
      ∃ d < n, p = slot seenCap h d ∧ Stops t pid p ∧
        ∀ d' < d, ¬ Stops t pid (slot seenCap h d') := by
  induction n generalizing h with
  | zero => simp [seenFrom]
  | succ n ih =>
      have hnext : ∀ d, d + 1 < seenCap →
          slot seenCap (slot seenCap h 1) d = slot seenCap h (d + 1) := by
        intro d hd
        rw [slot_slot_succ hh hh (by simp; omega), dist_self, Nat.zero_add, Nat.add_comm]
      rw [seenFrom, seenNext_eq hh]
      split
      · next hstop =>
          constructor
          · intro heq
            obtain rfl : h = p := Option.some.inj heq
            exact ⟨0, by omega, (slot_zero hh).symm, hstop, by omega⟩
          · rintro ⟨d, -, rfl, -, hd⟩
            rcases Nat.eq_zero_or_pos d with rfl | h0
            · rw [slot_zero hh]
            · exact absurd (by rwa [slot_zero hh]) (hd 0 h0)
      · next hstop =>
          rw [ih (slot_one_lt hh) (by omega)]
          constructor
          · rintro ⟨d, hd, rfl, hs, hb⟩
            refine ⟨d + 1, by omega, hnext d (by omega), hs, fun d' hd' => ?_⟩
            cases d' with
            | zero => rwa [slot_zero hh]
            | succ d' => rw [← hnext d' (by omega)]; exact hb d' (by omega)
          · rintro ⟨d, hd, rfl, hs, hb⟩
            cases d with
            | zero => exact absurd (by rwa [slot_zero hh] at hs) hstop
            | succ d =>
                refine ⟨d, by omega, (hnext d (by omega)).symm, hs, fun d' hd' => ?_⟩
                rw [hnext d' (by omega)]
                exact hb (d' + 1) (by omega)

/-- A walk that did not end around the table never ends. -/
theorem seenFrom_eq_none (h : seenFind t pid = none) (n : Nat) :
    seenFrom t pid n (seenHash pid) = none := by
  have hfull : ∀ i < seenCap, ¬ Stops t pid i := by
    intro i hi hs
    classical
    have hex : ∃ d, Stops t pid (slot seenCap (seenHash pid) d) :=
      ⟨dist seenCap (seenHash pid) i, by rwa [slot_dist (seenHash_lt pid) hi]⟩
    have hlt : Nat.find hex < seenCap :=
      (Nat.find_min' hex (by rwa [slot_dist (seenHash_lt pid) hi])).trans_lt (dist_lt hi)
    have := (seenFrom_eq_some (seenHash_lt pid) le_rfl).mpr
      ⟨Nat.find hex, hlt, rfl, Nat.find_spec hex, fun d' hd' => Nat.find_min hex hd'⟩
    rw [seenFind, this] at h
    cases h
  have hnever : ∀ n h, h < seenCap → seenFrom t pid n h = none := by
    intro n
    induction n with
    | zero => exact fun _ _ => rfl
    | succ n ih =>
        intro h hh
        rw [seenFrom, seenNext_eq hh]
        simp only [show ¬ ((t h).pid = 0 ∨ (t h).pid = pid) from hfull h hh, if_false]
        exact ih _ (slot_one_lt hh)
  exact hnever n _ (seenHash_lt pid)

theorem seenFind_eq_some : seenFind t pid = some p ↔ Lands seenShape (cells t) pid p := by
  have hh := seenHash_lt pid
  have hstops : ∀ i, Stops t pid i ↔ ∀ e, cells t i = some e → e.pid = pid := by
    intro i
    unfold Stops cells
    split <;> grind
  rw [seenFind, seenFrom_eq_some hh le_rfl]
  constructor
  · rintro ⟨d, hd, rfl, hs, hb⟩
    refine ⟨slot_lt hh hd, (hstops _).mp hs, fun d' hd' => ?_⟩
    change d' < dist seenCap (seenHash pid) (slot seenCap (seenHash pid) d) at hd'
    rw [dist_slot hh hd] at hd'
    have := mt (hstops _).mpr (hb d' hd')
    push Not at this
    exact this
  · intro hl
    refine ⟨dist seenCap (seenHash pid) p, dist_lt hl.lt, (slot_dist hh hl.lt).symm,
      (hstops p).mpr hl.ends, fun d' hd' hs => ?_⟩
    obtain ⟨e, he, hne⟩ := hl.walk d' hd'
    exact hne ((hstops _).mp hs e he)

/-- Some entry is empty. -/
def HasRoom (t : SeenTable) : Prop := ∃ i < seenCap, (t i).pid = 0

/-- A lookup in a table with an empty entry ends. -/
theorem HasRoom.seenFind (h : HasRoom t) (pid : UInt32) :
    ∃ p, seenFind t pid = some p ∧ Lands seenShape (cells t) pid p := by
  obtain ⟨i, hi, h0⟩ := h
  obtain ⟨p, hp⟩ := exists_lands (S := seenShape) pid hi (cells_eq_none.mpr h0)
  exact ⟨p, seenFind_eq_some.mpr hp, hp⟩

theorem hasRoom_clear (t : SeenTable) (hi : i < seenCap) : HasRoom (seenClear t i) :=
  ⟨i, hi, by simp [seenClear]⟩

/-- What the reinsertion leaves. -/
theorem seenReinsert_refill (h : seenReinsert n t c = some t') (hc : c < seenCap) :
    Refill seenShape (cells t) c (cells t') := by
  induction n generalizing t c with
  | zero => cases h
  | succ n ih =>
      rw [seenReinsert] at h
      split at h
      · next h0 =>
          obtain rfl : t = t' := Option.some.inj h
          exact .done (cells_eq_none.mpr h0)
      · next h0 =>
          cases hf : Top.seenFind (seenClear t c) (t c).pid with
          | none => rw [hf] at h; cases h
          | some p =>
              rw [hf] at h
              have hl := seenFind_eq_some.mp hf
              have hr := ih h (by rw [seenNext_eq hc]; exact slot_one_lt hc)
              rw [cells_clear] at hl
              rw [cells_update, cells_clear, if_neg h0, seenNext_eq hc] at hr
              exact .step (cells_eq_some.mpr ⟨rfl, h0⟩) hl hr

/-- The reinsertion ends: each entry that moves comes nearer to its slot, and
between two moves the next empty entry is nearer. -/
theorem seenReinsert_ends {w g : Nat} (hc : c < seenCap)
    (hw : weight seenShape (cells t) ≤ w) (hg : g < seenCap)
    (he : cells t (slot seenCap c g) = none) (hn : w * seenCap + g < n) :
    ∃ t', seenReinsert n t c = some t' := by
  induction n generalizing t c w g with
  | zero => omega
  | succ n ih =>
      rw [seenReinsert]
      split
      · exact ⟨t, rfl⟩
      · next h0 =>
          obtain ⟨p, hf, hl⟩ := (hasRoom_clear t hc).seenFind (t c).pid
          have hct : cells t c = some (t c) := cells_eq_some.mpr ⟨rfl, h0⟩
          rw [cells_clear] at hl
          have hnew : cells (Function.update (seenClear t c) p (t c)) =
              Function.update (Function.update (cells t) c none) p (some (t c)) := by
            rw [cells_update, cells_clear, if_neg h0]
          simp only [hf, Option.bind_eq_bind, Option.bind_some]
          rw [seenNext_eq hc]
          rcases weight_refill (S := seenShape) hc hct hl with hsame | hless
          · have hg0 : 0 < g := by
              rcases Nat.eq_zero_or_pos g with rfl | h
              · rw [slot_zero hc, hct] at he
                cases he
              · exact h
            refine ih (w := w) (g := g - 1) (slot_one_lt hc) (by rw [hnew, hsame]; exact hw)
              (by omega) ?_ (by omega)
            have hidx : 0 + 1 + (g - 1) = g := by omega
            rw [hnew, hsame, slot_slot_succ hc hc (by simp; omega), dist_self, hidx, he]
          · have hpc : p ≠ c := by
              rintro rfl
              rw [Function.update_idem, ← hct, Function.update_eq_self] at hless
              omega
            have hw1 : 0 < w := by omega
            refine ih (g := seenCap - 1) (slot_one_lt hc) (w := w - 1) (by rw [hnew]; omega)
              (by decide) ?_ ?_
            · have : slot seenCap (slot seenCap c 1) (seenCap - 1) = c := by
                have : 1 < seenCap := by decide
                unfold slot
                grind
              rw [hnew, this, Function.update_of_ne hpc.symm, Function.update_self]
            · have : (w - 1) * seenCap + seenCap = w * seenCap := by
                rw [← Nat.succ_mul, Nat.succ_eq_add_one, Nat.sub_add_cancel hw1]
              have : 1 < seenCap := by decide
              omega

/-! ## the entries that are recorded -/

/-- The table has the entry. -/
def Recorded (t : SeenTable) (e : Seen) : Prop := e.pid ≠ 0 ∧ ∃ i < seenCap, t i = e

/-- The probe invariant: every entry is reached from its slot over entries
that are not empty, and no pid has two. -/
abbrev Probed (t : SeenTable) : Prop := Wf seenShape (cells t)

theorem recorded_iff : Recorded t e ↔ Stored seenShape (cells t) e := by
  constructor
  · rintro ⟨h0, i, hi, he⟩
    exact ⟨i, hi, cells_eq_some.mpr ⟨he, h0⟩⟩
  · rintro ⟨i, hi, he⟩
    obtain ⟨he, h0⟩ := cells_eq_some.mp he
    exact ⟨h0, i, hi, he⟩

theorem Recorded.pid_ne (h : Recorded t e) : e.pid ≠ 0 := h.1

theorem probed_empty : Probed seenEmpty := by
  rw [Probed, cells_empty]
  exact wf_empty

theorem not_recorded_empty : ¬ Recorded seenEmpty e := by
  rintro ⟨h0, i, -, rfl⟩
  exact h0 rfl

theorem seenRecord_of_find {atUs : UInt64} {q : Proc} (h : seenFind t q.pid = some i) :
    seenRecord atUs t q = some (Function.update t i ⟨q.pid, q.ticks, atUs⟩) := by
  rw [seenRecord, h]
  rfl

theorem seenRecordAll_cons (atUs : UInt64) (t : SeenTable) (q : Proc) (qs : List Proc) :
    seenRecordAll atUs t (q :: qs) = (seenRecord atUs t q).bind (seenRecordAll atUs · qs) := rfl

/-- One process recorded: its entry is the new one, the others stay. -/
theorem seenRecord_spec {atUs : UInt64} {q : Proc} (h : seenRecord atUs t q = some t')
    (hw : Probed t) :
    Probed t' ∧ ∀ e, Recorded t' e ↔
      (e = ⟨q.pid, q.ticks, atUs⟩ ∧ q.pid ≠ 0) ∨ e.pid ≠ q.pid ∧ Recorded t e := by
  cases hf : seenFind t q.pid with
  | none => rw [seenRecord, hf] at h; cases h
  | some i =>
      rw [seenRecord_of_find hf] at h
      obtain rfl : Function.update t i ⟨q.pid, q.ticks, atUs⟩ = t' := Option.some.inj h
      have hl := seenFind_eq_some.mp hf
      simp only [recorded_iff, Probed, cells_update]
      by_cases h0 : q.pid = 0
      · -- nothing has pid 0: the walk ended at an empty entry, which stays empty
        have hnone : cells t i = none := by
          cases hi : cells t i with
          | none => rfl
          | some e => exact absurd ((hl.ends e hi).trans h0) (cells_eq_some.mp hi).2
        rw [if_pos h0, ← hnone, Function.update_eq_self]
        refine ⟨hw, fun e => ?_⟩
        simp only [h0, ne_eq, not_true, and_false, false_or]
        exact ⟨fun he => ⟨(recorded_iff.mpr he).1, he⟩, And.right⟩
      · rw [if_neg h0]
        have hl' : Lands seenShape (cells t) (seenShape.key ⟨q.pid, q.ticks, atUs⟩) i := hl
        refine ⟨hw.put hl', fun e => ?_⟩
        rw [hw.stored_put hl']
        simp [seenShape, h0]

theorem HasRoom.seenRecord (h : HasRoom t) (atUs : UInt64) (q : Proc) :
    ∃ t', seenRecord atUs t q = some t' := by
  obtain ⟨i, hi, -⟩ := h.seenFind q.pid
  exact ⟨_, seenRecord_of_find hi⟩

theorem not_stale_of_pid {now : UInt64} (h : e.pid = 0) : ¬ Stale now e := fun hs => hs.1 h

/-- One visit of the walk that forgets: nothing, or a stale entry emptied and
the chain behind it put back. -/
theorem seenForgetAt_cases {now : UInt64} (h : seenForgetAt now t i = some t')
    (hi : i < seenCap) :
    (¬ Stale now (t i) ∧ t' = t) ∨
      (Stale now (t i) ∧ cells t i = some (t i) ∧
        Refill seenShape (Function.update (cells t) i none) (slot seenCap i 1) (cells t')) := by
  unfold seenForgetAt at h
  split at h
  · next hs =>
      have hr := seenReinsert_refill h (by rw [seenNext_eq hi]; exact slot_one_lt hi)
      rw [cells_clear, seenNext_eq hi] at hr
      exact .inr ⟨hs, cells_eq_some.mpr ⟨rfl, hs.1⟩, hr⟩
  · next hs => exact .inl ⟨hs, (Option.some.inj h).symm⟩

theorem seenForgetAt_ends (now : UInt64) (t : SeenTable) (hi : i < seenCap) :
    ∃ t', seenForgetAt now t i = some t' := by
  unfold seenForgetAt
  split
  · rw [seenNext_eq hi]
    have hlt : 1 < seenCap := by decide
    refine seenReinsert_ends (g := seenCap - 1) (slot_one_lt hi) (weight_le _ _) (by omega) ?_ ?_
    · have hback : slot seenCap (slot seenCap i 1) (seenCap - 1) = i := by
        unfold slot
        grind
      rw [hback, cells_clear, Function.update_self]
    · change seenCap * seenCap * seenCap + (seenCap - 1) < reinsertSteps
      unfold reinsertSteps
      omega
  · exact ⟨t, rfl⟩

/-- A visit keeps the probe invariant and removes at most the stale entry. -/
theorem seenForgetAt_spec {now : UInt64} (h : seenForgetAt now t i = some t')
    (hi : i < seenCap) (hw : Probed t) :
    Probed t' ∧ ∀ e, Recorded t' e ↔ Recorded t e ∧ (Stale now (t i) → e ≠ t i) := by
  rcases seenForgetAt_cases h hi with ⟨hs, rfl⟩ | ⟨hs, hc, hr⟩
  · exact ⟨hw, fun e => by simp [hs]⟩
  · have hl := hw.clear (S := seenShape) hi
    refine ⟨hr.wf (slot_one_lt hi) hl, fun e => ?_⟩
    rw [recorded_iff, hr.stored (slot_one_lt hi) hl, hw.stored_clear hi hc, ← recorded_iff]
    simp [hs]

/-- The number of entries that are not empty. -/
def seenCount (t : SeenTable) : Nat := occupied seenShape (cells t)

theorem hasRoom_iff : HasRoom t ↔ seenCount t < seenCap := by
  have h := occupied_lt_iff (S := seenShape) (t := cells t)
  simp only [cells_eq_none] at h
  exact h.symm

theorem seenForgetAt_count {now : UInt64} (h : seenForgetAt now t i = some t')
    (hi : i < seenCap) (hw : Probed t) : seenCount t' ≤ seenCount t := by
  rcases seenForgetAt_cases h hi with ⟨-, rfl⟩ | ⟨-, hc, hr⟩
  · rfl
  · have h1 := occupied_update (S := seenShape) (t := cells t) hi none
    rw [hc] at h1
    simp only [Option.elim_some, Option.elim_none] at h1
    rw [seenCount, hr.occupied_eq (slot_one_lt hi) (hw.clear hi), seenCount]
    omega

theorem seenForgetAt_room {now : UInt64} (h : seenForgetAt now t i = some t')
    (hi : i < seenCap) (hw : Probed t) (hroom : HasRoom t) : HasRoom t' :=
  hasRoom_iff.mpr ((seenForgetAt_count h hi hw).trans_lt (hasRoom_iff.mp hroom))

/-! ## the pids that are recorded -/

/-- The pids the table has. -/
def seenPids (t : SeenTable) : Finset UInt32 :=
  ((Finset.range seenCap).image fun i => (t i).pid).erase 0

theorem mem_seenPids : pid ∈ seenPids t ↔ ∃ e, Recorded t e ∧ e.pid = pid := by
  simp only [seenPids, Finset.mem_erase, Finset.mem_image, Finset.mem_range]
  constructor
  · rintro ⟨h0, i, hi, rfl⟩
    exact ⟨t i, ⟨h0, i, hi, rfl⟩, rfl⟩
  · rintro ⟨e, ⟨h0, i, hi, rfl⟩, rfl⟩
    exact ⟨h0, i, hi, rfl⟩

@[simp] theorem seenPids_empty : seenPids seenEmpty = ∅ := by
  ext pid
  simp [mem_seenPids, not_recorded_empty]

/-- No pid is recorded twice: there are as many as entries. -/
theorem card_seenPids (hw : Probed t) : (seenPids t).card = seenCount t := by
  have himage : seenPids t =
      ((Finset.range seenCap).filter fun i => (t i).pid ≠ 0).image fun i => (t i).pid := by
    ext pid
    simp only [seenPids, Finset.mem_erase, Finset.mem_image, Finset.mem_filter]
    grind
  have hinj : Set.InjOn (fun i => (t i).pid)
      ((Finset.range seenCap).filter fun i => (t i).pid ≠ 0) := by
    intro i hi j hj hij
    simp only [Finset.coe_filter, Finset.mem_range, Set.mem_ofPred_eq] at hi hj
    exact hw.once i hi.1 j hj.1 (t i) (t j) (cells_eq_some.mpr ⟨rfl, hi.2⟩)
      (cells_eq_some.mpr ⟨rfl, hj.2⟩) hij
  rw [himage, Finset.card_image_of_injOn hinj, Finset.card_eq_sum_ones, Finset.sum_filter]
  have hcount : seenCount t =
      ∑ i ∈ Finset.range seenCap, (cells t i).elim 0 fun _ => 1 := rfl
  rw [hcount]
  refine Finset.sum_congr rfl fun i _ => ?_
  unfold cells
  split <;> simp_all

theorem seenRecord_pids {atUs : UInt64} {q : Proc} (h : seenRecord atUs t q = some t')
    (hw : Probed t) : seenPids t' = seenPids t ∪ ({q.pid} : Finset UInt32).erase 0 := by
  obtain ⟨-, hr⟩ := seenRecord_spec h hw
  ext pid
  simp only [Finset.mem_union, Finset.mem_erase, Finset.mem_singleton, mem_seenPids]
  constructor
  · rintro ⟨e, he, rfl⟩
    rcases (hr e).mp he with ⟨rfl, h0⟩ | ⟨-, he⟩
    · exact .inr ⟨h0, rfl⟩
    · exact .inl ⟨e, he, rfl⟩
  · rintro (⟨e, he, rfl⟩ | ⟨h0, rfl⟩)
    · by_cases hq : e.pid = q.pid
      · exact ⟨_, (hr _).mpr (.inl ⟨rfl, hq ▸ he.pid_ne⟩), hq.symm⟩
      · exact ⟨e, (hr e).mpr (.inr ⟨hq, he⟩), rfl⟩
    · exact ⟨_, (hr _).mpr (.inl ⟨rfl, h0⟩), rfl⟩

end Phi.Top
