import Phi.Top.Seen

/-!
# Phi.Top.History

What the history of processes holds after a run of samples.

`lastReport` is the latest report of a pid in a run, and `Remembers` says what
the table is for: it has the probe invariant and holds exactly the pids
reported within the last two minutes, each with its latest ticks and time.

The walk that forgets empties a stale entry, puts the chain behind it back and
goes on with the next entry.  The entry that moves into the emptied one is not
looked at, so it stays even if it is stale as well (`moved_stale_stays`).
Where the first entry of the chain that moves there is not stale
(`FillsFresh`), the history is exact (`history_exact`).
-/

namespace Phi.Top

open Probe

variable {t t' : SeenTable} {i n : Nat} {now : UInt64} {e : Seen}

/-! ## what was reported -/

/-- The report of a pid in a sample; the last one, were it listed twice. -/
def reportIn (pid : UInt32) (s : Snapshot) : Option Seen :=
  (s.procs.reverse.find? (·.pid = pid)).map fun p => ⟨p.pid, p.ticks, s.atUs⟩

/-- The latest report of a pid in a run of samples. -/
def lastReport (pid : UInt32) (h : List Snapshot) : Option Seen :=
  h.reverse.findSome? (reportIn pid)

theorem lastReport_snoc (pid : UInt32) (h : List Snapshot) (s : Snapshot) :
    lastReport pid (h ++ [s]) = (reportIn pid s).or (lastReport pid h) := by
  simp only [lastReport, List.reverse_append, List.reverse_singleton, List.singleton_append,
    List.findSome?_cons]
  cases reportIn pid s <;> rfl

theorem reportIn_eq_some {pid : UInt32} {s : Snapshot} (h : reportIn pid s = some e) :
    e.pid = pid ∧ e.atUs = s.atUs := by
  obtain ⟨p, hp, rfl⟩ := Option.map_eq_some_iff.mp h
  exact ⟨by simpa using List.find?_some hp, rfl⟩

theorem lastReport_eq_some {pid : UInt32} {h : List Snapshot} (hl : lastReport pid h = some e) :
    e.pid = pid ∧ ∃ s ∈ h, e.atUs = s.atUs := by
  obtain ⟨s, hs, he⟩ := List.exists_of_findSome?_eq_some hl
  obtain ⟨hp, ht⟩ := reportIn_eq_some he
  exact ⟨hp, s, List.mem_reverse.mp hs, ht⟩

/-! ## the run -/

/-- The table after a run of samples. -/
def remembered (h : List Snapshot) : Option SeenTable := h.foldlM seenRemember seenEmpty

theorem remembered_snoc (h : List Snapshot) (s : Snapshot) :
    remembered (h ++ [s]) = (remembered h).bind (seenRemember · s) := by
  simp [remembered, List.foldlM_append]

/-- The table holds exactly the pids reported within the two minutes before
the last sample, each with its latest ticks and time. -/
structure Remembers (h : List Snapshot) (t : SeenTable) : Prop where
  probed : Probed t
  holds : ∀ e, Recorded t e ↔
    lastReport e.pid h = some e ∧ ∀ s ∈ h.getLast?, s.atUs - e.atUs < forgetAfterUs

/-- The history is exact after the run. -/
def Exact (h : List Snapshot) : Prop := ∃ t, remembered h = some t ∧ Remembers h t

/-- While the samples of a run are recorded the table has an empty entry. -/
def KeepsRoom (h : List Snapshot) : Prop :=
  ∀ pre s, pre ++ [s] <+: h → ∀ t, remembered pre = some t →
    ∀ n t', seenRecordAll s.atUs t (s.procs.take n) = some t' → HasRoom t'

/-- If entry `i` is stale, the first entry of the chain behind it whose walk
passes `i` is not. -/
def FreshFill (now : UInt64) (t : SeenTable) (i : Nat) : Prop :=
  Stale now (t i) → ∀ c, Fills seenShape (cells t) i c → ¬ Stale now (t (slot seenCap i c))

/-- Before every visit of the walk that forgets, in every sample of the run,
the entry that will move into an emptied one is not stale. -/
def FillsFresh (h : List Snapshot) : Prop :=
  ∀ pre s, pre ++ [s] <+: h → ∀ t, remembered pre = some t →
    ∀ u, seenRecordAll s.atUs t s.procs = some u →
      ∀ i < seenCap, ∀ v, seenForget s.atUs u i = some v → FreshFill s.atUs v i

/-- The samples' times never go back. -/
def Clocked (h : List Snapshot) : Prop := h.Pairwise (·.atUs ≤ ·.atUs)

/-- No sample lists pid 0. -/
def Named (h : List Snapshot) : Prop := ∀ s ∈ h, ∀ p ∈ s.procs, p.pid ≠ 0

/-! ## recording a sample -/

theorem seenRecordAll_spec {atUs : UInt64} {ps : List Proc} (h : seenRecordAll atUs t ps = some t')
    (hw : Probed t) :
    Probed t' ∧ ∀ e, Recorded t' e ↔
      match ps.reverse.find? (·.pid = e.pid) with
      | some p => e = ⟨p.pid, p.ticks, atUs⟩ ∧ p.pid ≠ 0
      | none => Recorded t e := by
  induction ps generalizing t with
  | nil =>
      obtain rfl : t = t' := Option.some.inj h
      exact ⟨hw, fun e => Iff.rfl⟩
  | cons p ps ih =>
      rw [seenRecordAll_cons] at h
      obtain ⟨u, h1, h⟩ := Option.bind_eq_some_iff.mp h
      obtain ⟨hu, hru⟩ := seenRecord_spec h1 hw
      obtain ⟨ht', hrt'⟩ := ih h hu
      refine ⟨ht', fun e => (hrt' e).trans ?_⟩
      rw [List.reverse_cons, List.find?_append]
      cases ps.reverse.find? (·.pid = e.pid) with
      | some q => rfl
      | none =>
          rw [Option.none_or, hru e]
          by_cases hp : p.pid = e.pid
          · simp [hp, eq_comm]
          · have : e ≠ ⟨p.pid, p.ticks, atUs⟩ := by rintro rfl; exact hp rfl
            simp [hp, this, Ne.symm hp]

theorem seenRecordAll_snoc (atUs : UInt64) (t : SeenTable) (ps : List Proc) (p : Proc) :
    seenRecordAll atUs t (ps ++ [p]) = (seenRecordAll atUs t ps).bind (seenRecord atUs · p) := by
  simp [seenRecordAll, List.foldlM_append]

/-- With an empty entry at every process recording a sample ends. -/
theorem seenRecordAll_ends (t : SeenTable) (atUs : UInt64) (ps : List Proc)
    (hroom : ∀ n < ps.length, ∀ t', seenRecordAll atUs t (ps.take n) = some t' → HasRoom t') :
    ∃ t', seenRecordAll atUs t ps = some t' := by
  have h : ∀ n ≤ ps.length, ∃ t', seenRecordAll atUs t (ps.take n) = some t' := by
    intro n
    induction n with
    | zero => exact fun _ => ⟨t, rfl⟩
    | succ n ih =>
        intro hn
        obtain ⟨u, hu⟩ := ih (by omega)
        obtain ⟨t', ht'⟩ := (hroom n hn u hu).seenRecord atUs ps[n]
        refine ⟨t', ?_⟩
        rw [← List.take_concat_get' ps n hn, seenRecordAll_snoc, hu]
        exact ht'
  simpa using h ps.length le_rfl

/-- The pids that are recorded after a sample was. -/
theorem seenRecordAll_pids {atUs : UInt64} {ps : List Proc}
    (h : seenRecordAll atUs t ps = some t') (hw : Probed t) :
    seenPids t' = seenPids t ∪ (ps.map Proc.pid).toFinset.erase 0 := by
  induction ps generalizing t with
  | nil =>
      obtain rfl : t = t' := Option.some.inj h
      simp
  | cons p ps ih =>
      rw [seenRecordAll_cons] at h
      obtain ⟨u, h1, h⟩ := Option.bind_eq_some_iff.mp h
      rw [ih h (seenRecord_spec h1 hw).1, seenRecord_pids h1 hw]
      ext pid
      simp
      grind

/-! ## forgetting the stale -/

theorem seenForget_succ (now : UInt64) (t : SeenTable) (n : Nat) :
    seenForget now t (n + 1) = (seenForget now t n).bind (seenForgetAt now · n) := rfl

/-- The walk that forgets ends. -/
theorem seenForget_ends (now : UInt64) (t : SeenTable) (hn : n ≤ seenCap) :
    ∃ t', seenForget now t n = some t' := by
  induction n with
  | zero => exact ⟨t, rfl⟩
  | succ n ih =>
      obtain ⟨u, hu⟩ := ih (by omega)
      rw [seenForget_succ, hu]
      exact seenForgetAt_ends now u hn

/-- From some entry on nothing is stale: the rest of the walk changes nothing. -/
theorem seenForget_quiet {m : Nat} (h : seenForget now t m = some t') (hmn : m ≤ n)
    (hq : ∀ i, m ≤ i → i < n → ¬ Stale now (t' i)) : seenForget now t n = some t' := by
  induction n, hmn using Nat.le_induction with
  | base => exact h
  | succ n hn ih =>
      rw [seenForget_succ, ih fun i h1 h2 => hq i h1 (by omega), Option.bind_some, seenForgetAt,
        if_neg (hq n hn (by omega))]

/-- It keeps the probe invariant, adds nothing and removes what is stale only. -/
theorem seenForget_spec (h : seenForget now t n = some t') (hn : n ≤ seenCap) (hw : Probed t) :
    Probed t' ∧ (∀ e, Recorded t' e → Recorded t e) ∧
      (∀ e, Recorded t e → ¬ Stale now e → Recorded t' e) ∧ seenCount t' ≤ seenCount t := by
  induction n generalizing t' with
  | zero =>
      obtain rfl : t = t' := Option.some.inj h
      exact ⟨hw, fun _ => id, fun _ he _ => he, le_rfl⟩
  | succ n ih =>
      rw [seenForget_succ] at h
      obtain ⟨u, hu, hv⟩ := Option.bind_eq_some_iff.mp h
      obtain ⟨hwu, hsub, hkeep, hcount⟩ := ih hu (by omega)
      obtain ⟨hw', hr⟩ := seenForgetAt_spec hv hn hwu
      refine ⟨hw', fun e he => hsub e ((hr e).mp he).1, fun e he hs => (hr e).mpr ?_, ?_⟩
      · refine ⟨hkeep e he hs, ?_⟩
        rintro hst rfl
        exact hs hst
      · exact (seenForgetAt_count hv hn hwu).trans hcount

/-- One visit: an entry before the visited one is not stale afterwards if none
was, and the visited one is not if what moves there is not. -/
theorem seenForgetAt_fresh (h : seenForgetAt now t n = some t') (hn : n < seenCap)
    (hw : Probed t) (hroom : HasRoom t) (hfill : FreshFill now t n)
    (hlow : ∀ j < n, ¬ Stale now (t j)) : ∀ j < n + 1, ¬ Stale now (t' j) := by
  intro j hj
  rcases seenForgetAt_cases h hn with ⟨hs, rfl⟩ | ⟨hs, hc, hr⟩
  · rcases Nat.lt_succ_iff_lt_or_eq.mp hj with h | rfl
    · exact hlow j h
    · exact hs
  · obtain ⟨q, hq, hq0⟩ := hroom
    have hqn : q ≠ n := by rintro rfl; exact hs.1 hq0
    obtain ⟨hmoved, hfilled⟩ :=
      hw.refill_emptied (S := seenShape) hn ⟨q, hq, hqn, cells_eq_none.mpr hq0⟩ hr
    rcases Nat.lt_succ_iff_lt_or_eq.mp hj with hlt | rfl
    · -- what is before entry `n` afterwards was before it, or is empty
      by_cases h0 : (t' j).pid = 0
      · exact not_stale_of_pid h0
      · obtain ⟨p, hp, hpn, hle, he⟩ := hmoved j (hlt.trans hn) (t' j) (cells_eq_some.mpr ⟨rfl, h0⟩)
        have hpj : p < n := by
          change Probe.dist seenCap n j ≤ Probe.dist seenCap n p at hle
          change p < seenCap at hp
          unfold Probe.dist at hle
          grind
        rw [← (cells_eq_some.mp he).1]
        exact hlow p hpj
    · by_cases h0 : (t' j).pid = 0
      · exact not_stale_of_pid h0
      · obtain ⟨c, hf, he⟩ := hfilled (t' j) (cells_eq_some.mpr ⟨rfl, h0⟩)
        rw [← (cells_eq_some.mp he).1]
        exact hfill hs c hf

/-- The whole walk leaves nothing stale. -/
theorem seenForget_fresh (h : seenForget now t n = some t') (hn : n ≤ seenCap) (hw : Probed t)
    (hroom : HasRoom t) (hfill : ∀ i < n, ∀ v, seenForget now t i = some v → FreshFill now v i) :
    ∀ j < n, ¬ Stale now (t' j) := by
  induction n generalizing t' with
  | zero => omega
  | succ n ih =>
      rw [seenForget_succ] at h
      obtain ⟨u, hu, hv⟩ := Option.bind_eq_some_iff.mp h
      obtain ⟨hwu, -, -, hcount⟩ := seenForget_spec hu (by omega) hw
      have hru : HasRoom u := hasRoom_iff.mpr (hcount.trans_lt (hasRoom_iff.mp hroom))
      exact seenForgetAt_fresh hv hn hwu hru (hfill n (by omega) u hu)
        (ih hu (by omega) fun i hi => hfill i (by omega))

/-! ## the history is exact -/

theorem not_stale_iff (h0 : e.pid ≠ 0) : ¬ Stale now e ↔ now - e.atUs < forgetAfterUs := by
  simp [Stale, h0]

/-- What was not stale at a later time was not at an earlier one. -/
theorem fresh_of_fresh {a b : UInt64} (hat : e.atUs ≤ a) (hab : a ≤ b)
    (h : b - e.atUs < forgetAfterUs) : a - e.atUs < forgetAfterUs := by
  rw [UInt64.lt_iff_toNat_lt] at h ⊢
  rw [UInt64.le_iff_toNat_le] at hat hab
  rw [UInt64.toNat_sub_of_le _ _ (UInt64.le_iff_toNat_le.mpr (hat.trans hab))] at h
  rw [UInt64.toNat_sub_of_le _ _ (UInt64.le_iff_toNat_le.mpr hat)]
  omega

theorem seenRemember_eq (t : SeenTable) (s : Snapshot) :
    seenRemember t s =
      (seenRecordAll s.atUs t s.procs).bind fun u => seenForget s.atUs u seenCap := rfl

/-- One sample. -/
theorem Remembers.step {h : List Snapshot} {s : Snapshot} (hr : Remembers h t)
    (hclock : Clocked (h ++ [s])) (hname : ∀ p ∈ s.procs, p.pid ≠ 0)
    (hroom : ∀ n t', seenRecordAll s.atUs t (s.procs.take n) = some t' → HasRoom t')
    (hfill : ∀ u, seenRecordAll s.atUs t s.procs = some u →
      ∀ i < seenCap, ∀ v, seenForget s.atUs u i = some v → FreshFill s.atUs v i) :
    ∃ t', seenRemember t s = some t' ∧ Remembers (h ++ [s]) t' := by
  obtain ⟨u, hu⟩ := seenRecordAll_ends t s.atUs s.procs fun n _ => hroom n
  obtain ⟨t', ht'⟩ := seenForget_ends s.atUs u le_rfl
  have hroomu : HasRoom u := hroom s.procs.length u (by rw [List.take_length]; exact hu)
  obtain ⟨hwu, hru⟩ := seenRecordAll_spec hu hr.probed
  obtain ⟨hw', hsub, hkeep, -⟩ := seenForget_spec ht' le_rfl hwu
  have hfresh := seenForget_fresh ht' le_rfl hwu hroomu (hfill u hu)
  refine ⟨t', by rw [seenRemember_eq, hu, Option.bind_some, ht'], hw', fun e => ?_⟩
  have hlast : (h ++ [s]).getLast? = some s := by simp
  simp only [hlast, Option.mem_some_iff, forall_eq', lastReport_snoc]
  have hswept : Recorded t' e ↔ Recorded u e ∧ s.atUs - e.atUs < forgetAfterUs := by
    constructor
    · intro he
      obtain ⟨h0, i, hi, rfl⟩ := he
      exact ⟨hsub _ ⟨h0, i, hi, rfl⟩, (not_stale_iff h0).mp (hfresh i hi)⟩
    · rintro ⟨he, hlt⟩
      exact hkeep e he ((not_stale_iff he.pid_ne).mpr hlt)
  rw [hswept, hru e]
  unfold reportIn
  cases hfind : s.procs.reverse.find? (·.pid = e.pid) with
  | some p =>
      have hp0 := hname p (List.mem_reverse.mp (List.mem_of_find?_eq_some hfind))
      simp only [Option.map_some, Option.some_or, Option.some.injEq]
      exact ⟨fun ⟨⟨he, _⟩, hlt⟩ => ⟨he.symm, hlt⟩, fun ⟨he, hlt⟩ => ⟨⟨he.symm, hp0⟩, hlt⟩⟩
  | none =>
      simp only [Option.map_none, Option.none_or, hr.holds e, and_assoc]
      refine and_congr_right fun hl => ⟨And.right, fun hlt => ⟨fun z hz => ?_, hlt⟩⟩
      obtain ⟨-, y, hy, hey⟩ := lastReport_eq_some hl
      obtain ⟨h', rfl⟩ := List.getLast?_eq_some_iff.mp hz
      obtain ⟨hclock', -, hlater⟩ := List.pairwise_append.mp hclock
      have hyz : y.atUs ≤ z.atUs := by
        rcases List.mem_append.mp hy with hy' | hy'
        · exact (List.pairwise_append.mp hclock').2.2 y hy' z (by simp)
        · rw [List.mem_singleton.mp hy']
          exact UInt64.le_refl _
      exact fresh_of_fresh (hey ▸ hyz) (hlater z (by simp) s (by simp)) hlt

/-! ## few processes keep room -/

theorem seenRecordAll_count {atUs : UInt64} {ps : List Proc}
    (h : seenRecordAll atUs t ps = some t') (hw : Probed t) :
    seenCount t' ≤ seenCount t + ps.length := by
  rw [← card_seenPids (seenRecordAll_spec h hw).1, ← card_seenPids hw, seenRecordAll_pids h hw]
  have hlist : (ps.map Proc.pid).toFinset.card ≤ ps.length := by
    simpa using (ps.map Proc.pid).toFinset_card_le
  have herase := Finset.card_erase_le (s := (ps.map Proc.pid).toFinset) (a := 0)
  exact (Finset.card_union_le _ _).trans (by omega)

theorem seenRemember_spec {s : Snapshot} (h : seenRemember t s = some t') (hw : Probed t) :
    Probed t' ∧ seenCount t' ≤ seenCount t + s.procs.length := by
  rw [seenRemember_eq] at h
  obtain ⟨u, hu, hv⟩ := Option.bind_eq_some_iff.mp h
  obtain ⟨hw', -, -, hcount⟩ := seenForget_spec hv le_rfl (seenRecordAll_spec hu hw).1
  exact ⟨hw', hcount.trans (seenRecordAll_count hu hw)⟩

theorem remembered_spec {h : List Snapshot} (ht : remembered h = some t) :
    Probed t ∧ seenCount t ≤ (h.map (·.procs.length)).sum := by
  induction h using List.reverseRecOn generalizing t with
  | nil =>
      obtain rfl : seenEmpty = t := Option.some.inj ht
      exact ⟨probed_empty, by simp [← card_seenPids probed_empty]⟩
  | append_singleton h s ih =>
      rw [remembered_snoc] at ht
      obtain ⟨u, hu, hs⟩ := Option.bind_eq_some_iff.mp ht
      obtain ⟨hwu, hcu⟩ := ih hu
      obtain ⟨hw, hc⟩ := seenRemember_spec hs hwu
      refine ⟨hw, ?_⟩
      simp only [List.map_append, List.map_singleton, List.sum_append, List.sum_singleton]
      omega

/-- A run that lists fewer processes than the table has entries keeps room. -/
theorem keepsRoom_of_few {h : List Snapshot} (hfew : (h.map (·.procs.length)).sum < seenCap) :
    KeepsRoom h := by
  rintro pre s ⟨post, rfl⟩ t ht n t' ht'
  obtain ⟨hw, hc⟩ := remembered_spec ht
  have hc' := seenRecordAll_count ht' hw
  have hn : (s.procs.take n).length ≤ s.procs.length := by simp
  simp only [List.map_append, List.map_cons, List.map_nil, List.sum_append, List.sum_cons] at hfew
  exact hasRoom_iff.mpr (by omega)

/-- In a table of one entry nothing moves into an emptied one. -/
theorem freshFill_of_one (hw : Probed t) (hone : seenCount t ≤ 1) (hi : i < seenCap) :
    FreshFill now t i := by
  intro hs c hf
  obtain ⟨e, he⟩ := Option.ne_none_iff_exists'.mp (hf.chain c hf.pos le_rfl)
  have hj : slot seenCap i c < seenCap := slot_lt hi hf.lt
  obtain ⟨rfl, he0⟩ := cells_eq_some.mp he
  rw [← card_seenPids hw] at hone
  have hpid := Finset.card_le_one.mp hone _ (mem_seenPids.mpr ⟨_, ⟨hs.1, i, hi, rfl⟩, rfl⟩)
    _ (mem_seenPids.mpr ⟨_, ⟨he0, _, hj, rfl⟩, rfl⟩)
  have := hw.once i hi _ hj _ _ (cells_eq_some.mpr ⟨rfl, hs.1⟩) he hpid
  exact absurd this.symm (slot_ne hf.pos hf.lt)

theorem fillsFresh_of_one {h : List Snapshot} (hone : (h.map (·.procs.length)).sum ≤ 1) :
    FillsFresh h := by
  rintro pre s ⟨post, rfl⟩ t ht u hu i hi v hv
  obtain ⟨hw, hc⟩ := remembered_spec ht
  have hcu := seenRecordAll_count hu hw
  obtain ⟨hwv, -, -, hcv⟩ := seenForget_spec hv hi.le (seenRecordAll_spec hu hw).1
  simp only [List.map_append, List.map_cons, List.map_nil, List.sum_append, List.sum_cons] at hone
  exact freshFill_of_one hwv (by omega) hi

/-! ## the run as a whole -/

/-- Where the sample times never go back, no sample lists pid 0, the table keeps
an empty entry and what moves into an emptied one is not stale, the history is
exact after every sample. -/
theorem history_exact (h : List Snapshot) (hclock : Clocked h) (hname : Named h)
    (hroom : KeepsRoom h) (hfill : FillsFresh h) : ∀ g, g <+: h → Exact g := by
  intro g
  induction g using List.reverseRecOn with
  | nil =>
      exact fun _ => ⟨seenEmpty, rfl, probed_empty, fun e => by
        simp [not_recorded_empty, lastReport]⟩
  | append_singleton g s ih =>
      intro hg
      obtain ⟨t, ht, hr⟩ := ih ((List.prefix_append g [s]).trans hg)
      obtain ⟨t', ht', hr'⟩ := hr.step (hclock.sublist hg.sublist)
        (hname s (hg.subset (by simp))) (hroom g s hg t ht) (hfill g s hg t ht)
      exact ⟨t', by rw [remembered_snoc, ht, Option.bind_some, ht'], hr'⟩

/-- A sample that lists processes and nothing else. -/
def bareSample (atUs : UInt64) (procs : List Proc) (h : procs.length ≤ snProcCap) : Snapshot where
  atUs := atUs
  cpus := []
  traffic := ⟨0, 0, 0, 0, 0, 0⟩
  disks := []
  nets := []
  procs := procs
  vpu := none
  ncpu := by simp
  ndisks := no_devs
  nnets := no_devs
  nlisted := h

/-- A sample two minutes later that lists none. -/
def noneListed : Snapshot := bareSample 120000000 [] (by decide)

/-- A process is listed, and forgotten two minutes later. -/
theorem history_exact_forgotten :
    Exact [bareSample 0 [⟨112044, 5⟩] (by decide), noneListed] :=
  history_exact [bareSample 0 [⟨112044, 5⟩] (by decide), noneListed]
    (by simp [Clocked, noneListed, bareSample]) (by simp [Named, noneListed, bareSample])
    (keepsRoom_of_few (by decide)) (fillsFresh_of_one (by decide)) _ List.prefix_rfl

/-- Two processes whose walks start at the same slot. -/
def twinsListed : Snapshot := bareSample 0 [⟨112044, 5⟩, ⟨162593, 7⟩] (by decide)

def firstTwin : Seen := ⟨112044, 5, 0⟩
def secondTwin : Seen := ⟨162593, 7, 0⟩

/-- The table with both. -/
def twins : SeenTable := Function.update (Function.update seenEmpty 0 firstTwin) 1 secondTwin

/-- A walk that starts at slot 0 and meets an empty entry there. -/
theorem lands_first {u : Nat → Option Seen} {pid : UInt32} (h0 : seenHash pid = 0)
    (hu : u 0 = none) : Lands seenShape u pid 0 where
  lt := by decide
  ends e he := by rw [hu] at he; cases he
  walk d hd := by
    change d < dist seenCap (seenHash pid) 0 at hd
    rw [h0] at hd
    simp at hd

theorem twins_cases (i : Nat) : twins i = firstTwin ∨ twins i = secondTwin ∨ (twins i).pid = 0 := by
  unfold twins Function.update
  grind [seenEmpty]

theorem remembered_twins : remembered [twinsListed] = some twins := by
  have h1 : seenFind seenEmpty (Proc.mk 112044 5).pid = some 0 :=
    seenFind_eq_some.mpr (lands_first (by decide) rfl)
  have h2 : seenFind (Function.update seenEmpty 0 firstTwin) (Proc.mk 162593 7).pid = some 1 := by
    refine seenFind_eq_some.mpr ⟨by decide, fun e he => ?_, fun d hd => ?_⟩
    · exact absurd (cells_eq_some.mp he).1 (by rintro rfl; exact (cells_eq_some.mp he).2 rfl)
    · obtain rfl : d = 0 := Nat.lt_one_iff.mp hd
      exact ⟨firstTwin, rfl, by decide⟩
  have hall : seenRecordAll twinsListed.atUs seenEmpty twinsListed.procs = some twins := by
    change seenRecordAll 0 seenEmpty [Proc.mk 112044 5, Proc.mk 162593 7] = _
    rw [seenRecordAll_cons, seenRecord_of_find h1, Option.bind_some, seenRecordAll_cons]
    exact congrArg (Option.bind · _) (seenRecord_of_find h2)
  have hq : ∀ i, ¬ Stale 0 (twins i) := by
    intro i
    rcases twins_cases i with h | h | h
    · rw [h]; decide
    · rw [h]; decide
    · exact not_stale_of_pid h
  have hforget := seenForget_quiet (n := seenCap) (t := twins) rfl (Nat.zero_le _)
    fun i _ _ => hq i
  have hrem : seenRemember seenEmpty twinsListed = some twins := by
    rw [seenRemember_eq, hall, Option.bind_some]
    exact hforget
  rw [remembered, List.foldlM_cons, hrem]
  rfl

/-- What the visit of the first twin leaves: the second one in its entry. -/
theorem seenForgetAt_twins {v : SeenTable} (h : seenForgetAt 120000000 twins 0 = some v) :
    cells v = Function.update (fun _ => none) 0 (some secondTwin) := by
  have hcells : cells twins =
      Function.update (Function.update (fun _ => none) 0 (some firstTwin)) 1 (some secondTwin) := by
    rw [twins, cells_update, cells_update, cells_empty]
    rfl
  have hout : Function.update (Function.update (cells twins) 0 none) 1 none = fun _ => none := by
    rw [hcells]
    funext i
    simp only [Function.update_apply]
    grind
  rcases seenForgetAt_cases h (by decide) with ⟨hs, -⟩ | ⟨-, -, hr⟩
  · exact absurd (by decide) hs
  · have h1 : Function.update (cells twins) 0 none 1 = some secondTwin := by rw [hcells]; rfl
    change Refill seenShape (Function.update (cells twins) 0 none) 1 (cells v) at hr
    rcases hr.cases_step with ⟨h0, -⟩ | ⟨e, p, he, hp, hr⟩
    · rw [h1] at h0; cases h0
    · obtain rfl : secondTwin = e := Option.some.inj (h1.symm.trans he)
      rw [hout] at hp hr
      obtain rfl := hp.unique (lands_first (by decide) rfl)
      change Refill seenShape (Function.update (fun _ => none) 0 (some secondTwin)) 2
        (cells v) at hr
      rcases hr.cases_step with ⟨-, hv⟩ | ⟨e, p, he, -, -⟩
      · exact hv
      · cases he

/-- The run of the two samples. -/
def staleTwins : List Snapshot := [twinsListed, noneListed]

/-- The first twin is forgotten, the second moves to its entry and stays. -/
theorem moved_stale_stays : Clocked staleTwins ∧ Named staleTwins ∧ KeepsRoom staleTwins ∧
    ¬ Exact staleTwins := by
  refine ⟨?_, ?_, keepsRoom_of_few (by decide), ?_⟩
  · simp [Clocked, staleTwins, twinsListed, noneListed, bareSample]
  · simp [Named, staleTwins, twinsListed, noneListed, bareSample]
  · rintro ⟨t, ht, hr⟩
    obtain ⟨v, hv⟩ := seenForgetAt_ends 120000000 twins (i := 0) (by decide)
    have hcells := seenForgetAt_twins hv
    have hnone : ∀ i, 1 ≤ i → (v i).pid = 0 := by
      intro i hi
      rw [← cells_eq_none, hcells, Function.update_of_ne (by omega)]
    have hall : seenRecordAll noneListed.atUs twins noneListed.procs = some twins := rfl
    have hforget : seenForget noneListed.atUs twins seenCap = some v :=
      seenForget_quiet (m := 1) hv (by decide) fun i hi _ => not_stale_of_pid (hnone i hi)
    have hrun : remembered staleTwins = some v := by
      have hsnoc : staleTwins = [twinsListed] ++ [noneListed] := rfl
      rw [hsnoc, remembered_snoc, remembered_twins, Option.bind_some, seenRemember_eq, hall,
        Option.bind_some, hforget]
    obtain rfl : v = t := Option.some.inj (hrun.symm.trans ht)
    have hrec : Recorded v secondTwin :=
      recorded_iff.mpr ⟨0, by decide, by rw [hcells]; rfl⟩
    have hfresh := ((hr.holds secondTwin).mp hrec).2 noneListed (by simp [staleTwins])
    exact absurd hfresh (by decide)

end Phi.Top
