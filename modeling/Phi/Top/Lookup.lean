import Phi.Top.Derive
import Phi.Top.History

/-!
# Phi.Top.Lookup

Whether the lookups of a pid end, over a run of samples (`model_update` of
`model.S`).

An update derives numbers from the sample before, for which it looks every
listed process up, and then records the sample in the history.  A lookup ends
where the table has an empty entry.  Nothing bounds the pids of two minutes by
the size of the table: `lookups_end_iff` says when the lookups of a run all
have an empty entry to end at, `crowd_endless` is a run where one has not.
-/

namespace Phi.Top

open Rpc

/-- What phitop keeps of a card: the history, the sample before and the
derived record. -/
structure Slot where
  seen : SeenTable
  prev : Option Snapshot
  derived : Option Derived

def slotStart : Slot := ⟨seenEmpty, none, none⟩

/-- What is derived in an update: nothing new from the first sample. -/
def updateDerived (s : Slot) (x : Snapshot) : Except Halt (Option Derived) :=
  match s.prev with
  | some p => (derive s.seen p x).map some
  | none => .ok s.derived

/-- `model_update`: the derived numbers, and the history last. -/
def modelUpdate (s : Slot) (x : Snapshot) : Except Halt Slot := do
  let derived ← updateDerived s x
  match seenRemember s.seen x with
  | none => .error .endless
  | some seen => return ⟨seen, some x, derived⟩

/-- The slot after a run of samples. -/
def updated (h : List Snapshot) : Except Halt Slot := h.foldlM modelUpdate slotStart

theorem updated_snoc (h : List Snapshot) (x : Snapshot) :
    updated (h ++ [x]) = updated h >>= (modelUpdate · x) := by
  simp [updated, List.foldlM_append]

/-- Every lookup of an update is made in a table with an empty entry: those of
the shares, those that record a process, and those that put an entry back,
after it was emptied.  And the update ends. -/
structure Served (s : Slot) (x : Snapshot) : Prop where
  shares : s.prev.isSome → x.procs ≠ [] → HasRoom s.seen
  records : ∀ n < x.procs.length,
    ∃ t, seenRecordAll x.atUs s.seen (x.procs.take n) = some t ∧ HasRoom t
  reinserts : ∀ t i, i < seenCap → HasRoom (seenClear t i)
  ends : ∃ s', modelUpdate s x = .ok s'

/-- The pids of the table and the ones listed before the last are fewer than
the entries of the table. -/
def Roomy (s : Slot) (x : Snapshot) : Prop :=
  x.procs ≠ [] →
    (seenPids s.seen ∪ (x.procs.dropLast.map Proc.pid).toFinset.erase 0).card < seenCap

variable {s s' : Slot} {x : Snapshot}

/-! ## one update -/

theorem modelUpdate_ok (h : modelUpdate s x = .ok s') :
    seenRemember s.seen x = some s'.seen ∧ s'.prev = some x := by
  rw [modelUpdate] at h
  cases hd : updateDerived s x with
  | error e => rw [hd] at h; cases h
  | ok d =>
      rw [hd] at h
      cases hr : seenRemember s.seen x with
      | none => rw [hr] at h; cases h
      | some t =>
          rw [hr] at h
          obtain rfl := Except.ok.inj h
          exact ⟨rfl, rfl⟩

theorem modelUpdate_probed (h : modelUpdate s x = .ok s') (hw : Probed s.seen) :
    Probed s'.seen :=
  (seenRemember_spec (modelUpdate_ok h).1 hw).1

/-- While a roomy sample is recorded the table has an empty entry. -/
theorem Roomy.records (hr : Roomy s x) (hw : Probed s.seen) {n : Nat} (hn : n < x.procs.length)
    {t : SeenTable} (h : seenRecordAll x.atUs s.seen (x.procs.take n) = some t) : HasRoom t := by
  have hne : x.procs ≠ [] := List.ne_nil_of_length_pos (by omega)
  have hsub : x.procs.take n ⊆ x.procs.dropLast := by
    rw [List.dropLast_eq_take]
    exact ((List.take_prefix_take_left (by omega)).sublist).subset
  rw [hasRoom_iff, ← card_seenPids (seenRecordAll_spec h hw).1, seenRecordAll_pids h hw]
  refine (Finset.card_le_card ?_).trans_lt (hr hne)
  refine Finset.union_subset_union_right (Finset.erase_subset_erase _ fun p hp => ?_)
  rw [List.mem_toFinset, List.mem_map] at hp ⊢
  obtain ⟨q, hq, rfl⟩ := hp
  exact ⟨q, hsub hq, rfl⟩

/-- The lookups of an update have an empty entry to end at exactly where the
sample is roomy. -/
theorem served_iff_roomy (hw : Probed s.seen) : Served s x ↔ Roomy s x := by
  constructor
  · intro hs hne
    have hlen := List.length_pos_of_ne_nil hne
    obtain ⟨t, ht, hroom⟩ := hs.records (x.procs.length - 1) (by omega)
    rw [← List.dropLast_eq_take] at ht
    rw [← seenRecordAll_pids ht hw, card_seenPids (seenRecordAll_spec ht hw).1]
    exact hasRoom_iff.mp hroom
  · intro hr
    have hroom := fun n hn t => hr.records hw (n := n) hn (t := t)
    have hfirst : x.procs ≠ [] → HasRoom s.seen := fun hne =>
      hroom 0 (List.length_pos_of_ne_nil hne) s.seen rfl
    obtain ⟨u, hu⟩ := seenRecordAll_ends s.seen x.atUs x.procs hroom
    obtain ⟨t, ht⟩ := seenForget_ends x.atUs u le_rfl
    have hderived : ∃ d, updateDerived s x = .ok d := by
      unfold updateDerived
      cases s.prev with
      | none => exact ⟨_, rfl⟩
      | some p =>
          obtain ⟨d, hd⟩ := returns_derive p hfirst
          exact ⟨some d, by simp only [hd]; rfl⟩
    obtain ⟨d, hd⟩ := hderived
    have hrem : seenRemember s.seen x = some t := by
      rw [seenRemember_eq, hu, Option.bind_some, ht]
    refine ⟨fun _ => hfirst, fun n hn => ?_, fun t i hi => hasRoom_clear t hi,
      ⟨t, some x, d⟩, by rw [modelUpdate, hd, hrem]; rfl⟩
    obtain ⟨v, hv⟩ := seenRecordAll_ends s.seen x.atUs (x.procs.take n)
      fun m hm v hv => by
        rw [List.length_take] at hm
        rw [List.take_take, Nat.min_eq_left (by omega)] at hv
        exact hroom m (by omega) v hv
    exact ⟨v, hv, hroom n hn v hv⟩

/-! ## runs -/

theorem updated_probed {h : List Snapshot} {s : Slot} (hs : updated h = .ok s) :
    Probed s.seen := by
  induction h using List.reverseRecOn generalizing s with
  | nil =>
      obtain rfl := Except.ok.inj hs
      exact probed_empty
  | append_singleton h x ih =>
      rw [updated_snoc] at hs
      cases hu : updated h with
      | error e => rw [hu] at hs; cases hs
      | ok u =>
          rw [hu] at hs
          exact modelUpdate_probed hs (ih hu)

/-- At every sample of the run all lookups have an empty entry to end at. -/
def AllServed (h : List Snapshot) : Prop :=
  ∀ pre x, pre ++ [x] <+: h → ∃ s, updated pre = .ok s ∧ Served s x

/-- Every sample of the run is roomy for the slot it finds. -/
def AllRoomy (h : List Snapshot) : Prop :=
  ∀ pre x, pre ++ [x] <+: h → ∀ s, updated pre = .ok s → Roomy s x

/-- All lookups of a run end, in a table with an empty entry, exactly where
every sample is roomy for the slot it finds. -/
theorem lookups_end_iff (h : List Snapshot) : AllServed h ↔ AllRoomy h := by
  constructor
  · intro hs pre x hp s hu
    obtain ⟨s', hu', hserved⟩ := hs pre x hp
    obtain rfl := Except.ok.inj (hu.symm.trans hu')
    exact (served_iff_roomy (updated_probed hu)).mp hserved
  · intro hr pre
    have hrun : ∀ x, pre ++ [x] <+: h → ∃ s, updated pre = .ok s := by
      induction pre using List.reverseRecOn with
      | nil => exact fun _ _ => ⟨slotStart, rfl⟩
      | append_singleton pre y ih =>
          intro x hp
          have hp' : pre ++ [y] <+: h := (List.prefix_append _ [x]).trans hp
          obtain ⟨s, hs⟩ := ih y hp'
          obtain ⟨s', hs'⟩ := ((served_iff_roomy (updated_probed hs)).mpr (hr pre y hp' s hs)).ends
          exact ⟨s', by rw [updated_snoc, hs]; exact hs'⟩
    intro x hp
    obtain ⟨s, hs⟩ := hrun x hp
    exact ⟨s, hs, (served_iff_roomy (updated_probed hs)).mpr (hr pre x hp s hs)⟩

/-! ## a crowd -/

/-- `n` processes whose pids follow number `a`. -/
def procsFrom (a n : Nat) : List Proc := (List.range n).map fun k => ⟨UInt32.ofNat (a + k + 1), 0⟩

theorem length_procsFrom (a n : Nat) : (procsFrom a n).length = n := by
  simp [procsFrom]

theorem procsFrom_succ (a n : Nat) :
    procsFrom a (n + 1) = procsFrom a n ++ [⟨UInt32.ofNat (a + n + 1), 0⟩] := by
  simp [procsFrom, List.range_succ]

/-- As many processes as a sample keeps, the `j`-th so many pids. -/
def crowd (j : Nat) : Snapshot :=
  bareSample 0 (procsFrom (j * snProcCap) snProcCap) (length_procsFrom _ _).le

theorem procs_bareSample (a : UInt64) (ps : List Proc) (h : ps.length ≤ snProcCap) :
    (bareSample a ps h).procs = ps := rfl

theorem atUs_bareSample (a : UInt64) (ps : List Proc) (h : ps.length ≤ snProcCap) :
    (bareSample a ps h).atUs = a := rfl

theorem procs_crowd (j : Nat) : (crowd j).procs = procsFrom (j * snProcCap) snProcCap :=
  procs_bareSample _ _ _

theorem atUs_crowd (j : Nat) : (crowd j).atUs = 0 := atUs_bareSample _ _ _

/-- `n` samples, each of other processes. -/
def crowds (n : Nat) : List Snapshot := (List.range n).map crowd

/-- The first `n` pids. -/
def firstPids (n : Nat) : Finset UInt32 := (Finset.range n).image fun k => UInt32.ofNat (k + 1)

theorem card_firstPids_le (n : Nat) : (firstPids n).card ≤ n :=
  Finset.card_image_le.trans_eq (Finset.card_range n)

theorem card_firstPids {n : Nat} (hn : n < 2 ^ 32) : (firstPids n).card = n := by
  have hinj : Set.InjOn (fun k => UInt32.ofNat (k + 1)) (Finset.range n) := by
    intro a ha b hb hab
    have ha' := Finset.mem_range.mp ha
    have hb' := Finset.mem_range.mp hb
    have := congrArg UInt32.toNat hab
    simp only [UInt32.toNat_ofNat'] at this
    omega
  rw [firstPids, Finset.card_image_of_injOn hinj, Finset.card_range]

theorem mem_firstPids {n : Nat} (hn : n < 2 ^ 32) {pid : UInt32} :
    pid ∈ firstPids n ↔ 0 < pid.toNat ∧ pid.toNat ≤ n := by
  simp only [firstPids, Finset.mem_image, Finset.mem_range]
  constructor
  · rintro ⟨k, hk, rfl⟩
    rw [UInt32.toNat_ofNat', Nat.mod_eq_of_lt (by omega)]
    omega
  · rintro ⟨h0, hle⟩
    refine ⟨pid.toNat - 1, by omega, UInt32.toNat_inj.mp ?_⟩
    rw [UInt32.toNat_ofNat', Nat.mod_eq_of_lt (by omega)]
    omega

/-- A slot of a run of crowds: the history holds the pids listed so far, all
reported at time 0. -/
structure Crowded (n : Nat) (s : Slot) : Prop where
  probed : Probed s.seen
  times : ∀ e, Recorded s.seen e → e.atUs = 0
  pids : seenPids s.seen = firstPids (n * snProcCap)

/-- Processes recorded at one time, in a history of that time. -/
theorem times_seenRecordAll {atUs : UInt64} {t t' : SeenTable} {ps : List Proc}
    (h : seenRecordAll atUs t ps = some t') (hw : Probed t)
    (ht : ∀ e, Recorded t e → e.atUs = atUs) : ∀ e, Recorded t' e → e.atUs = atUs := by
  intro e he
  have := ((seenRecordAll_spec h hw).2 e).mp he
  split at this
  · rw [this.1]
  · exact ht e this

/-- The pids of a crowd and those before it. -/
theorem pids_procsFrom (n m : Nat) (hn : n < 4) (hm : m ≤ snProcCap) :
    firstPids (n * snProcCap) ∪ ((procsFrom (n * snProcCap) m).map Proc.pid).toFinset.erase 0 =
      firstPids (n * snProcCap + m) := by
  have hcap : snProcCap = 16384 := rfl
  have hsmall : n * snProcCap ≤ 3 * 16384 := by rw [hcap]; omega
  ext pid
  have hmem : pid ∈ ((procsFrom (n * snProcCap) m).map Proc.pid).toFinset.erase 0 ↔
      n * snProcCap < pid.toNat ∧ pid.toNat ≤ n * snProcCap + m := by
    simp only [procsFrom, List.map_map, Finset.mem_erase, List.mem_toFinset, List.mem_map,
      List.mem_range, Function.comp_apply]
    constructor
    · rintro ⟨-, k, hk, rfl⟩
      rw [UInt32.toNat_ofNat', Nat.mod_eq_of_lt (by omega)]
      omega
    · rintro ⟨hlt, hle⟩
      refine ⟨?_, pid.toNat - n * snProcCap - 1, by omega, UInt32.toNat_inj.mp ?_⟩
      · rintro rfl
        exact absurd hlt (by simp)
      · rw [UInt32.toNat_ofNat', Nat.mod_eq_of_lt (by omega)]
        omega
  rw [Finset.mem_union, hmem, mem_firstPids (by omega), mem_firstPids (by omega)]
  omega

/-- The first four crowds are roomy. -/
theorem Crowded.roomy {n : Nat} (hc : Crowded n s) (hn : n < 4) : Roomy s (crowd n) := by
  intro _
  have hcap : snProcCap = 16383 + 1 := rfl
  have hlast : (crowd n).procs.dropLast = procsFrom (n * snProcCap) 16383 := by
    rw [procs_crowd]
    nth_rewrite 2 [hcap]
    rw [procsFrom_succ, List.dropLast_concat]
  rw [hc.pids, hlast, pids_procsFrom n 16383 hn (by decide)]
  refine (card_firstPids_le _).trans_lt ?_
  change n * 16384 + 16383 < 65536
  omega

/-- A crowd that is roomy joins the history. -/
theorem Crowded.step {n : Nat} (hc : Crowded n s) (hn : n < 4) :
    ∃ s', modelUpdate s (crowd n) = .ok s' ∧ Crowded (n + 1) s' := by
  have hserved := (served_iff_roomy hc.probed).mpr (hc.roomy hn)
  obtain ⟨s', hs'⟩ := hserved.ends
  obtain ⟨u, hu⟩ := seenRecordAll_ends s.seen (crowd n).atUs (crowd n).procs fun n hn v hv => by
      obtain ⟨v', hv', hroom⟩ := hserved.records n hn
      obtain rfl := Option.some.inj (hv.symm.trans hv')
      exact hroom
  have hwu := (seenRecordAll_spec hu hc.probed).1
  have htimes := times_seenRecordAll hu hc.probed hc.times
  -- nothing is stale at time 0, so nothing is forgotten
  have hquiet : ∀ i, i < seenCap → ¬ Stale 0 (u i) := by
    intro i hi hs
    rw [Stale, htimes (u i) ⟨hs.1, i, hi, rfl⟩, atUs_crowd] at hs
    exact absurd hs.2 (by decide)
  have hforget : seenForget (crowd n).atUs u seenCap = some u :=
    seenForget_quiet (m := 0) rfl (Nat.zero_le _) fun i _ hi => hquiet i hi
  have hseen : s'.seen = u := by
    have hrem := (modelUpdate_ok hs').1
    rw [seenRemember_eq, hu, Option.bind_some, hforget] at hrem
    exact (Option.some.inj hrem).symm
  refine ⟨s', hs', by rw [hseen]; exact hwu, by rw [hseen]; exact htimes, ?_⟩
  rw [hseen, seenRecordAll_pids hu hc.probed, hc.pids, Nat.succ_mul, procs_crowd]
  exact pids_procsFrom n snProcCap hn le_rfl

theorem updated_crowds {n : Nat} (hn : n ≤ 4) : ∃ s, updated (crowds n) = .ok s ∧ Crowded n s ∧
    (0 < n → s.prev.isSome) := by
  induction n with
  | zero =>
      refine ⟨slotStart, rfl, ⟨probed_empty, fun e he => absurd he not_recorded_empty, ?_⟩, nofun⟩
      rw [slotStart, seenPids_empty]
      simp [firstPids]
  | succ n ih =>
      obtain ⟨s, hs, hc, -⟩ := ih (by omega)
      obtain ⟨s', hs', hc'⟩ := hc.step hn
      refine ⟨s', ?_, hc', fun _ => by rw [(modelUpdate_ok hs').2]; rfl⟩
      rw [crowds, List.range_succ, List.map_append, List.map_singleton, updated_snoc]
      rw [crowds] at hs
      rw [hs]
      exact hs'

/-- A full history that lacks a pid: the lookup of the pid does not end. -/
theorem seenFind_full {t : SeenTable} {pid : UInt32} (hw : Probed t)
    (hfull : (seenPids t).card = seenCap) (habs : pid ∉ seenPids t) : seenFind t pid = none := by
  cases h : seenFind t pid with
  | none => rfl
  | some p =>
      have hl := seenFind_eq_some.mp h
      rw [card_seenPids hw] at hfull
      cases hp : cells t p with
      | none =>
          have hroom : HasRoom t := ⟨p, hl.lt, cells_eq_none.mp hp⟩
          have := hasRoom_iff.mp hroom
          omega
      | some e =>
          exact absurd (mem_seenPids.mpr ⟨e, recorded_iff.mpr ⟨p, hl.lt, hp⟩, hl.ends e hp⟩) habs

/-- After four crowds the history is full, and the first lookup of the fifth
does not end. -/
theorem crowd_endless : updated (crowds 5) = .error .endless ∧ ¬ AllServed (crowds 5) := by
  obtain ⟨s, hs, hc, hprev⟩ := updated_crowds (n := 4) le_rfl
  obtain ⟨p, hp⟩ := Option.isSome_iff_exists.mp (hprev (by decide))
  have hcrowds : crowds 5 = crowds 4 ++ [crowd 4] := rfl
  have hlost : seenFind s.seen 65537 = none := by
    refine seenFind_full hc.probed ?_ ?_
    · rw [hc.pids, card_firstPids (by decide)]
      rfl
    · rw [hc.pids, mem_firstPids (by decide)]
      decide
  have hprocs : ∃ ps, (crowd 4).procs = ⟨65537, 0⟩ :: ps := by
    have hcap : snProcCap = 16383 + 1 := rfl
    rw [procs_crowd, procsFrom, hcap, List.range_succ_eq_map, List.map_cons]
    exact ⟨_, rfl⟩
  obtain ⟨ps, hps⟩ := hprocs
  have hderive : derive s.seen p (crowd 4) = .error .endless := by
    obtain ⟨l, -, hn⟩ := deriveNumbers_eq p (crowd 4)
    have hshare : deriveShare s.seen (crowd 4).atUs ⟨65537, 0⟩ = .error .endless := by
      rw [deriveShare, hlost]
    rw [derive, hn, hps, List.mapM_cons, hshare]
    rfl
  have hend : updated (crowds 5) = .error .endless := by
    rw [hcrowds, updated_snoc, hs]
    change modelUpdate s (crowd 4) = _
    rw [modelUpdate, updateDerived, hp]
    simp only [hderive]
    rfl
  refine ⟨hend, fun hall => ?_⟩
  obtain ⟨s', hs', hserved⟩ := hall (crowds 4) (crowd 4) (by rw [← hcrowds])
  obtain ⟨s'', hs''⟩ := hserved.ends
  rw [hcrowds, updated_snoc, hs'] at hend
  change modelUpdate s' (crowd 4) = _ at hend
  rw [hs''] at hend
  cases hend

end Phi.Top
