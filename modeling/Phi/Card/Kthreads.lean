import Mathlib.Data.UInt
import Phi.Card.Processes

/-!
# Phi.Card.Kthreads

The kernel threads over a history of samples (`st_procs` of `stat.S`).

A history is the list of the samples taken so far, the newest first.  Which
processes are kernel threads, and what their ticks were when they were last
read, is said of the history alone; `memo_right` and `reply_right` say that the
tables and the replies agree with it.
-/

namespace Phi.Card

open Circular (read read_congr length_read)

variable (pageKb : UInt64)

/-- What the sample is told of an entry: its pid, and the process. -/
def DirEntry.pid (e : DirEntry) : Option UInt32 := parseU32 e.name
def DirEntry.proc (e : DirEntry) : Option PidStat := parseStat pageKb e.stat

/-! ## histories -/

/-- The sample after `past` reads every process. -/
def refreshes (past : List ProcsInput) : Bool := past.length % 4 = 0

/-- A kernel thread of the last sample of a history: one that is listed and
whose text says so.  A process whose text cannot be read is absent; one that the
sample does not read is what it was before. -/
def isKthread : List ProcsInput → UInt32 → Bool
  | [], _ => false
  | x :: past, pid =>
      match x.dir with
      | none => isKthread past pid
      | some entries =>
          entries.any fun e => e.pid = some pid &&
            match e.proc pageKb with
            | some p => p.kthread
            | none => !refreshes past && isKthread past pid

/-- The sample after `past` reads the process: it refreshes, or the process is
not known as a kernel thread. -/
def reads (past : List ProcsInput) (pid : UInt32) : Bool :=
  refreshes past || !isKthread pageKb past pid

/-- The entry of a process. -/
def ProcsInput.entry (x : ProcsInput) (pid : UInt32) : Option DirEntry :=
  x.dir.bind fun entries => entries.find? fun e => e.pid = some pid

/-- The ticks of a process when it was last read. -/
def lastRead : List ProcsInput → UInt32 → UInt64
  | [], _ => 0
  | x :: past, pid =>
      match (x.entry pid).bind (DirEntry.proc pageKb) with
      | none => lastRead past pid
      | some p => if reads pageKb past pid then p.ticks else lastRead past pid

section entries

variable (past : List ProcsInput) (e : DirEntry)

/-- The entry counts as a process. -/
def DirEntry.present : Bool :=
  match e.pid with
  | none => false
  | some pid => (e.proc pageKb).isSome || !reads pageKb past pid

/-- It is a kernel thread. -/
def DirEntry.kthread : Bool :=
  match e.pid with
  | none => false
  | some pid =>
      match e.proc pageKb with
      | some p => p.kthread
      | none => !reads pageKb past pid

/-- It is a kernel thread that has run since it was last read, or was unknown. -/
def moved (pid : UInt32) (p : PidStat) : Bool :=
  !isKthread pageKb past pid || lastRead pageKb past pid ≠ p.ticks

/-- What is to be listed of it. -/
def DirEntry.due : Option Listed :=
  match e.pid, e.proc pageKb with
  | some pid, some p =>
      if reads pageKb past pid then
        if p.kthread then if moved pageKb past pid p then some ⟨pid, p⟩ else none
        else some ⟨pid, withRss p e.status⟩
      else none
  | _, _ => none

end entries

/-- The list and the frame have room for a process behind those listed. -/
def hasRoom (x : ProcsInput) (ps : List Listed) (p : Listed) : Bool :=
  ps.length < maxProcs && room (x.wp + 2 + (ps.map Listed.size).sum) p.size

/-- Those listed, of those to be listed: each one for which there is room. -/
def enlist (x : ProcsInput) (ps : List Listed) : List Listed :=
  ps.foldl (fun out p => if hasRoom x out p then out ++ [p] else out) []

/-- A sample as the kernel can give it: distinct pids, no more kernel threads
than the table holds, and between two refreshes no pid that changes hands. -/
structure Fair (past : List ProcsInput) (entries : List DirEntry) : Prop where
  distinct : (entries.filterMap DirEntry.pid).Nodup
  fits : entries.countP (DirEntry.kthread pageKb past) ≤ kmMax
  steady : ∀ e ∈ entries, ∀ pid, e.pid = some pid → reads pageKb past pid = false →
    ∀ p, e.proc pageKb = some p → p.kthread = true

def FairHistory : List ProcsInput → Prop
  | [] => True
  | x :: past => (∀ entries, x.dir = some entries → Fair pageKb past entries) ∧ FairHistory past

/-! ## what is to hold -/

def Km.Before (a b : Km) : Prop := a.pid < b.pid

def KmTables.known (t : KmTables) : List Km := read t.old 0 t.oldN

/-- The table after a history. -/
structure MemoRight (past : List ProcsInput) (m : ProcsMemo) : Prop where
  samples : m.samples = UInt32.ofNat past.length
  sorted : m.tables.known.Pairwise Km.Before
  mem : ∀ km, km ∈ m.tables.known ↔
    isKthread pageKb past km.pid = true ∧ km.ticks = lastRead pageKb past km.pid

/-- The reply to the sample `x`, which lists `entries`. -/
structure ReplyRight (past : List ProcsInput) (x : ProcsInput) (entries : List DirEntry)
    (r : ProcsReply) : Prop where
  nprocs : r.nprocs = entries.countP (DirEntry.present pageKb past)
  nkthreads : r.nkthreads = entries.countP (DirEntry.kthread pageKb past)
  listed : r.listed = enlist x (entries.filterMap (DirEntry.due pageKb past))
  kthread : ∀ pre e post pid, entries = pre ++ e :: post → e.pid = some pid →
    e.kthread pageKb past = true →
    (pid ∈ r.listed.map Listed.pid ↔ reads pageKb past pid = true ∧
      ∃ p, e.proc pageKb = some p ∧ moved pageKb past pid p = true ∧
        hasRoom x (enlist x (pre.filterMap (DirEntry.due pageKb past))) ⟨pid, p⟩ = true)

/-! ## one entry -/

section entry

variable {pageKb : UInt64} {past : List ProcsInput} {m : ProcsMemo}

/-- The refresh counter. -/
theorem MemoRight.refresh (h : MemoRight pageKb past m) :
    decide ((m.samples + 1) % kthreadEvery = 1) = refreshes past := by
  have hmod : ((m.samples + 1) % kthreadEvery).toNat = (past.length + 1) % 4 := by
    rw [h.samples, UInt32.toNat_mod, UInt32.toNat_add, UInt32.toNat_ofNat']
    show (past.length % 2 ^ 32 + 1) % 2 ^ 32 % 4 = _
    omega
  refine decide_eq_decide.2 (UInt32.toNat_inj.symm.trans ?_)
  rw [hmod]
  show _ = 1 ↔ _
  omega

/-- The search in the previous table. -/
theorem MemoRight.find (h : MemoRight pageKb past m) (pid : UInt32) :
    m.tables.find pid =
      if isKthread pageKb past pid then some ⟨pid, lastRead pageKb past pid⟩ else none := by
  have hspec := Keyed.find_spec Km.key (h.sorted.imp fun h => h) pid.toNat
  have hfind : ∀ km, m.tables.find pid = some km ↔ (isKthread pageKb past km.pid = true ∧
      km.ticks = lastRead pageKb past km.pid) ∧ km.pid = pid := fun km => by
    rw [← h.mem km, ← UInt32.toNat_inj]
    exact hspec km
  cases hf : m.tables.find pid with
  | none =>
      split
      · next hk =>
          have hsome := (hfind ⟨pid, lastRead pageKb past pid⟩).2 ⟨⟨hk, rfl⟩, rfl⟩
          rw [hf] at hsome
          cases hsome
      · rfl
  | some km =>
      obtain ⟨⟨hk, ht⟩, rfl⟩ := (hfind km).1 hf
      rw [if_pos hk, ← ht]

/-- The entry of a table that a kernel thread gets. -/
def DirEntry.km (pageKb : UInt64) (past : List ProcsInput) (e : DirEntry) : Option Km :=
  match e.pid with
  | none => none
  | some pid =>
      if e.kthread pageKb past then
        match e.proc pageKb with
        | none => some ⟨pid, lastRead pageKb past pid⟩
        | some p => some ⟨pid, if reads pageKb past pid then p.ticks else lastRead pageKb past pid⟩
      else none

theorem length_kms (entries : List DirEntry) :
    (entries.filterMap (DirEntry.km pageKb past)).length =
      entries.countP (DirEntry.kthread pageKb past) := by
  induction entries with
  | nil => rfl
  | cons e es ih =>
      rw [List.filterMap_cons, List.countP_cons]
      cases hpid : e.pid with
      | none => simp [DirEntry.km, DirEntry.kthread, hpid, ih]
      | some pid =>
          cases hk : e.kthread pageKb past with
          | false => simp [DirEntry.km, hpid, hk, ih]
          | true => cases hp : e.proc pageKb <;> simp [DirEntry.km, hpid, hk, hp, ih]

/-- What the loop has counted and recorded behind the entries `pre`. -/
structure Counted (pageKb : UInt64) (past : List ProcsInput) (m : ProcsMemo)
    (pre : List DirEntry) (s : ProcsState) : Prop where
  find : ∀ pid, s.tables.find pid = m.tables.find pid
  cells : read s.tables.new 0 s.tables.newN = pre.filterMap (DirEntry.km pageKb past)
  sorted : s.tables.unsorted = false →
    (pre.filterMap (DirEntry.km pageKb past)).Pairwise Km.Before
  nprocs : s.nprocs = pre.countP (DirEntry.present pageKb past)
  nkthreads : s.nkthreads = pre.countP (DirEntry.kthread pageKb past)

/-- What it has listed. -/
structure Shown (pageKb : UInt64) (past : List ProcsInput) (x : ProcsInput)
    (pre : List DirEntry) (s : ProcsState) : Prop where
  listed : s.listed = enlist x (pre.filterMap (DirEntry.due pageKb past))
  wp : s.wp = x.wp + 2 + (s.listed.map Listed.size).sum

theorem newN_eq {t : KmTables} {kms : List Km} (h : read t.new 0 t.newN = kms) :
    t.newN = kms.length := by
  rw [← h, length_read]

/-- `km_add` appends, and notices an entry out of order. -/
theorem add_reads {t : KmTables} {kms : List Km} (pid : UInt32) (ticks : UInt64)
    (hcells : read t.new 0 t.newN = kms)
    (hsorted : t.unsorted = false → kms.Pairwise Km.Before)
    (hroom : kms.length < kmMax) :
    read (t.add pid ticks).new 0 (t.add pid ticks).newN = kms ++ [⟨pid, ticks⟩] ∧
      ((t.add pid ticks).unsorted = false →
        (kms ++ [(⟨pid, ticks⟩ : Km)]).Pairwise Km.Before) := by
  have hn := newN_eq hcells
  rw [KmTables.add, if_neg (by omega)]
  dsimp only
  constructor
  · have hkeep : read (fun i => if i = t.newN then ⟨pid, ticks⟩ else t.new i) 0 t.newN = kms := by
      rw [← hcells]
      exact read_congr fun i hi => if_neg (by omega)
    rw [Keyed.read_succ, hkeep, if_pos rfl]
  · intro hun
    simp only [Bool.or_eq_false_iff, Bool.and_eq_false_iff, decide_eq_false_iff_not, ne_eq,
      not_not, Bool.not_eq_false', decide_eq_true_eq] at hun
    obtain ⟨hold, hlast⟩ := hun
    have hpairs := hsorted hold
    refine List.pairwise_append.2 ⟨hpairs, List.pairwise_singleton _ _, fun a ha b hb => ?_⟩
    obtain rfl := List.mem_singleton.1 hb
    cases hk : t.newN with
    | zero =>
        rw [hn] at hk
        rw [List.length_eq_zero_iff.1 hk] at ha
        cases ha
    | succ k =>
        rw [hk] at hlast hcells
        have hlt : (t.new k).pid < pid := hlast.resolve_left (Nat.succ_ne_zero k)
        rw [Keyed.read_succ] at hcells
        rw [← hcells] at ha hpairs
        rcases List.mem_append.1 ha with ha | ha
        · have hle := (List.pairwise_append.1 hpairs).2.2 a ha _ (List.mem_singleton_self _)
          exact UInt32.lt_trans hle hlt
        · obtain rfl := List.mem_singleton.1 ha
          exact hlt

theorem enlist_append (x : ProcsInput) (ps : List Listed) (p : Listed) :
    enlist x (ps ++ [p]) =
      if hasRoom x (enlist x ps) p then enlist x ps ++ [p] else enlist x ps := by
  rw [enlist, List.foldl_append]
  rfl

variable {x : ProcsInput} {pre : List DirEntry} {e : DirEntry} {s s' : ProcsState} {pid : UInt32}

/-- Listing touches nothing of what is counted. -/
theorem Counted.list (h : Counted pageKb past m pre s) (p : Listed) :
    Counted pageKb past m pre (s.list p) := by
  unfold ProcsState.list
  split_ifs
  · exact h
  · exact ⟨h.find, h.cells, h.sorted, h.nprocs, h.nkthreads⟩
  · exact h

/-- An entry that is no kernel thread. -/
theorem Counted.pass (h : Counted pageKb past m pre s) (hk : e.kthread pageKb past = false)
    (htab : s'.tables = s.tables) (hkn : s'.nkthreads = s.nkthreads)
    (hn : s'.nprocs = s.nprocs + if e.present pageKb past then 1 else 0) :
    Counted pageKb past m (pre ++ [e]) s' := by
  have hkm : e.km pageKb past = none := by
    unfold DirEntry.km
    split
    · rfl
    · rw [hk]
      rfl
  have hkms : (pre ++ [e]).filterMap (DirEntry.km pageKb past) =
      pre.filterMap (DirEntry.km pageKb past) := by
    simp [List.filterMap_append, hkm]
  constructor
  · rw [htab]
    exact h.find
  · rw [htab, hkms]
    exact h.cells
  · rw [htab, hkms]
    exact h.sorted
  · rw [hn, h.nprocs, List.countP_append, List.countP_singleton]
  · rw [hkn, h.nkthreads, List.countP_append, List.countP_singleton, hk]
    rfl

/-- A kernel thread. -/
theorem Counted.record (h : Counted pageKb past m pre s) {ticks : UInt64}
    (hk : e.kthread pageKb past = true) (hp : e.present pageKb past = true)
    (hkm : e.km pageKb past = some ⟨pid, ticks⟩)
    (hroom : pre.countP (DirEntry.kthread pageKb past) < kmMax) :
    Counted pageKb past m (pre ++ [e]) (s.kthread pid ticks) := by
  have hkms : (pre ++ [e]).filterMap (DirEntry.km pageKb past) =
      pre.filterMap (DirEntry.km pageKb past) ++ [⟨pid, ticks⟩] := by
    simp [List.filterMap_append, hkm]
  have hlen : (pre.filterMap (DirEntry.km pageKb past)).length < kmMax := by
    rw [length_kms]
    exact hroom
  have hadd := add_reads pid ticks h.cells h.sorted hlen
  constructor
  · intro q
    rw [← h.find q]
    show (s.tables.add pid ticks).find q = _
    unfold KmTables.add
    split
    · rfl
    · rfl
  · rw [hkms]
    exact hadd.1
  · rw [hkms]
    exact hadd.2
  · show s.nprocs + 1 = _
    rw [h.nprocs, List.countP_append, List.countP_singleton, if_pos hp]
  · show s.nkthreads + 1 = _
    rw [h.nkthreads, List.countP_append, List.countP_singleton, if_pos hk]

/-- An entry that is not to be listed. -/
theorem Shown.pass (h : Shown pageKb past x pre s) (hd : e.due pageKb past = none)
    (hl : s'.listed = s.listed) (hw : s'.wp = s.wp) : Shown pageKb past x (pre ++ [e]) s' := by
  constructor
  · simp [hl, h.listed, List.filterMap_append, hd]
  · rw [hl, hw]
    exact h.wp

/-- An entry that is. -/
theorem Shown.list (h : Shown pageKb past x pre s) {p : Listed}
    (hd : e.due pageKb past = some p) (hl : s'.listed = s.listed) (hw : s'.wp = s.wp) :
    Shown pageKb past x (pre ++ [e]) (s'.list p) := by
  have hdues : (pre ++ [e]).filterMap (DirEntry.due pageKb past) =
      pre.filterMap (DirEntry.due pageKb past) ++ [p] := by
    simp [List.filterMap_append, hd]
  have hroom : hasRoom x (enlist x (pre.filterMap (DirEntry.due pageKb past))) p =
      (decide (s'.listed.length < maxProcs) && room s'.wp p.size) := by
    rw [hasRoom, ← h.listed, ← h.wp, hl, hw]
  unfold ProcsState.list
  split_ifs with hmax hr
  · have hno : ¬ s'.listed.length < maxProcs := by omega
    constructor
    · rw [hdues, enlist_append, hroom, if_neg (by simp [hno]), hl, h.listed]
    · rw [hl, hw]
      exact h.wp
  · have hyes : s'.listed.length < maxProcs := by omega
    constructor
    · rw [hdues, enlist_append, hroom, ← h.listed, ← hl]
      simp [hyes, hr]
    · show s'.wp + p.size = x.wp + 2 + ((s'.listed ++ [p]).map Listed.size).sum
      rw [hw, h.wp, hl]
      simp [UInt64.add_assoc]
  · constructor
    · rw [hdues, enlist_append, hroom, if_neg (by simp [hr]), hl, h.listed]
    · rw [hl, hw]
      exact h.wp

/-- A process that the sample reads. -/
theorem Counted.read (hm : MemoRight pageKb past m) (h : Counted pageKb past m pre s)
    (hs : Shown pageKb past x pre s) (hpid : e.pid = some pid)
    (hr : reads pageKb past pid = true)
    (hroom : e.kthread pageKb past = true → pre.countP (DirEntry.kthread pageKb past) < kmMax) :
    Counted pageKb past m (pre ++ [e]) (s.read pageKb pid e) ∧
      Shown pageKb past x (pre ++ [e]) (s.read pageKb pid e) := by
  unfold ProcsState.read
  cases hp : e.proc pageKb with
  | none =>
      have hparse : parseStat pageKb e.stat = none := hp
      have hk : e.kthread pageKb past = false := by simp [DirEntry.kthread, hpid, hp, hr]
      have hpres : e.present pageKb past = false := by simp [DirEntry.present, hpid, hp, hr]
      have hdue : e.due pageKb past = none := by simp [DirEntry.due, hpid, hp]
      rw [hparse]
      exact ⟨h.pass hk rfl rfl (by rw [hpres]; rfl), hs.pass hdue rfl rfl⟩
  | some p =>
      have hparse : parseStat pageKb e.stat = some p := hp
      have hpres : e.present pageKb past = true := by simp [DirEntry.present, hpid, hp]
      rw [hparse]
      dsimp only
      split
      · next hkt =>
          have hk : e.kthread pageKb past = true := by simp [DirEntry.kthread, hpid, hp, hkt]
          have hkm : e.km pageKb past = some ⟨pid, p.ticks⟩ := by
            simp [DirEntry.km, hpid, hk, hp, hr]
          have hrec := h.record hk hpres hkm (hroom hk)
          have hdue : e.due pageKb past =
              if moved pageKb past pid p then some ⟨pid, p⟩ else none := by
            simp [DirEntry.due, hpid, hp, hr, hkt]
          rw [h.find, hm.find]
          cases hknown : isKthread pageKb past pid with
          | false =>
              have hmoved : moved pageKb past pid p = true := by simp [moved, hknown]
              rw [hmoved] at hdue
              exact ⟨hrec.list _, hs.list hdue rfl rfl⟩
          | true =>
              rw [if_pos rfl]
              dsimp only
              split
              · next hsame =>
                  have hmoved : moved pageKb past pid p = false := by simp [moved, hknown, hsame]
                  rw [hmoved] at hdue
                  exact ⟨hrec, hs.pass hdue rfl rfl⟩
              · next hdiff =>
                  have hmoved : moved pageKb past pid p = true := by simp [moved, hdiff]
                  rw [hmoved] at hdue
                  exact ⟨hrec.list _, hs.list hdue rfl rfl⟩
      · next hkt =>
          have hk : e.kthread pageKb past = false := by
            simpa [DirEntry.kthread, hpid, hp] using hkt
          have hdue : e.due pageKb past = some ⟨pid, withRss p e.status⟩ := by
            simp [DirEntry.due, hpid, hp, hr, hkt]
          have hcount : Counted pageKb past m (pre ++ [e]) { s with nprocs := s.nprocs + 1 } :=
            h.pass hk rfl rfl (by rw [hpres]; rfl)
          exact ⟨hcount.list _, hs.list hdue rfl rfl⟩

/-- One entry. -/
theorem entry_step (hm : MemoRight pageKb past m) (h : Counted pageKb past m pre s)
    (hs : Shown pageKb past x pre s)
    (hsteady : ∀ pid, e.pid = some pid → reads pageKb past pid = false →
      ∀ p, e.proc pageKb = some p → p.kthread = true)
    (hroom : e.kthread pageKb past = true → pre.countP (DirEntry.kthread pageKb past) < kmMax) :
    Counted pageKb past m (pre ++ [e]) (s.entry pageKb (refreshes past) e) ∧
      Shown pageKb past x (pre ++ [e]) (s.entry pageKb (refreshes past) e) := by
  unfold ProcsState.entry
  cases hpid : e.pid with
  | none =>
      have hname : parseU32 e.name = none := hpid
      have hk : e.kthread pageKb past = false := by simp [DirEntry.kthread, hpid]
      have hpres : e.present pageKb past = false := by simp [DirEntry.present, hpid]
      have hdue : e.due pageKb past = none := by simp [DirEntry.due, hpid]
      rw [hname]
      exact ⟨h.pass hk rfl rfl (by rw [hpres]; rfl), hs.pass hdue rfl rfl⟩
  | some pid =>
      have hname : parseU32 e.name = some pid := hpid
      rw [hname]
      dsimp only
      split
      · next hfresh => exact h.read hm hs hpid (by simp [reads, hfresh]) hroom
      · next hfresh =>
          rw [h.find, hm.find]
          cases hknown : isKthread pageKb past pid with
          | false => exact h.read hm hs hpid (by simp [reads, hknown]) hroom
          | true =>
              have hr : reads pageKb past pid = false := by simpa [reads, hknown] using hfresh
              have hk : e.kthread pageKb past = true := by
                cases hp : e.proc pageKb with
                | none => simp [DirEntry.kthread, hpid, hp, hr]
                | some p => simp [DirEntry.kthread, hpid, hp, hsteady pid hpid hr p hp]
              have hpres : e.present pageKb past = true := by simp [DirEntry.present, hpid, hr]
              have hkm : e.km pageKb past = some ⟨pid, lastRead pageKb past pid⟩ := by
                cases hp : e.proc pageKb <;> simp [DirEntry.km, hpid, hk, hp, hr]
              have hdue : e.due pageKb past = none := by
                cases hp : e.proc pageKb <;> simp [DirEntry.due, hpid, hp, hr]
              exact ⟨h.record hk hpres hkm (hroom hk), hs.pass hdue rfl rfl⟩

/-- All entries. -/
theorem entries_run (hm : MemoRight pageKb past m) (pre entries : List DirEntry)
    (h : Counted pageKb past m pre s) (hs : Shown pageKb past x pre s)
    (hsteady : ∀ e ∈ entries, ∀ pid, e.pid = some pid → reads pageKb past pid = false →
      ∀ p, e.proc pageKb = some p → p.kthread = true)
    (hfits : (pre ++ entries).countP (DirEntry.kthread pageKb past) ≤ kmMax) :
    Counted pageKb past m (pre ++ entries)
        (entries.foldl (ProcsState.entry pageKb (refreshes past)) s) ∧
      Shown pageKb past x (pre ++ entries)
        (entries.foldl (ProcsState.entry pageKb (refreshes past)) s) := by
  induction entries generalizing pre s with
  | nil =>
      rw [List.append_nil]
      exact ⟨h, hs⟩
  | cons e es ih =>
      have hroom : e.kthread pageKb past = true →
          pre.countP (DirEntry.kthread pageKb past) < kmMax := fun hk => by
        rw [List.countP_append, List.countP_cons, if_pos hk] at hfits
        omega
      obtain ⟨h', hs'⟩ := entry_step hm h hs (hsteady e List.mem_cons_self) hroom
      have hcons : pre ++ e :: es = pre ++ [e] ++ es := by simp
      rw [hcons] at hfits ⊢
      exact ih _ h' hs' (fun e' he' => hsteady e' (List.mem_cons_of_mem e he')) hfits

end entry

/-! ## one sample -/

section sample

variable {pageKb : UInt64} {past : List ProcsInput} {m : ProcsMemo} {x : ProcsInput}
  {entries : List DirEntry}

/-- Of distinct pids an entry is the only one with its own. -/
theorem eq_of_pid (h : (entries.filterMap DirEntry.pid).Nodup) {e e' : DirEntry} {pid : UInt32}
    (he : e ∈ entries) (he' : e' ∈ entries) (hp : e.pid = some pid) (hp' : e'.pid = some pid) :
    e = e' := by
  induction entries with
  | nil => cases he
  | cons f fs ih =>
      have hmem : ∀ g ∈ fs, g.pid = some pid → pid ∈ fs.filterMap DirEntry.pid :=
        fun g hg hgp => List.mem_filterMap.2 ⟨g, hg, hgp⟩
      have htail : (fs.filterMap DirEntry.pid).Nodup := by
        rw [List.filterMap_cons] at h
        split at h
        · exact h
        · exact (List.nodup_cons.1 h).2
      have hfresh : f.pid = some pid → pid ∉ fs.filterMap DirEntry.pid := fun hf => by
        rw [List.filterMap_cons, hf] at h
        exact (List.nodup_cons.1 h).1
      rcases List.mem_cons.1 he with rfl | hin
      · rcases List.mem_cons.1 he' with rfl | hin'
        · rfl
        · exact absurd (hmem e' hin' hp') (hfresh hp)
      · rcases List.mem_cons.1 he' with rfl | hin'
        · exact absurd (hmem e hin hp) (hfresh hp')
        · exact ih htail hin hin'

theorem entry_of_mem (hdir : x.dir = some entries)
    (hd : (entries.filterMap DirEntry.pid).Nodup) {e : DirEntry} {pid : UInt32}
    (he : e ∈ entries) (hp : e.pid = some pid) : x.entry pid = some e := by
  have hfind : x.entry pid = entries.find? fun e => e.pid = some pid := by
    rw [ProcsInput.entry, hdir]
    rfl
  cases hf : x.entry pid with
  | none =>
      rw [hfind] at hf
      exact absurd (List.find?_eq_none.1 hf e he) (by simp [hp])
  | some e' =>
      rw [hfind] at hf
      have hp' : e'.pid = some pid := by simpa using List.find?_some hf
      rw [eq_of_pid hd (List.mem_of_find?_eq_some hf) he hp' hp]

/-- The kernel threads of a sample are entries of it. -/
theorem isKthread_cons (hdir : x.dir = some entries) (pid : UInt32) :
    isKthread pageKb (x :: past) pid = true ↔
      ∃ e ∈ entries, e.pid = some pid ∧ e.kthread pageKb past = true := by
  rw [isKthread, hdir]
  simp only [List.any_eq_true, Bool.and_eq_true, decide_eq_true_eq]
  refine exists_congr fun e => and_congr_right fun _ => and_congr_right fun hp => ?_
  rw [DirEntry.kthread, hp]
  cases e.proc pageKb with
  | none => simp [reads]
  | some p => rfl

theorem lastRead_cons (pageKb : UInt64) (past : List ProcsInput) (hdir : x.dir = some entries)
    (hd : (entries.filterMap DirEntry.pid).Nodup) {e : DirEntry} {pid : UInt32}
    (he : e ∈ entries) (hp : e.pid = some pid) :
    lastRead pageKb (x :: past) pid =
      match e.proc pageKb with
      | none => lastRead pageKb past pid
      | some p => if reads pageKb past pid then p.ticks else lastRead pageKb past pid := by
  rw [lastRead, entry_of_mem hdir hd he hp]
  rfl

/-- What is recorded of a sample. -/
theorem mem_kms (hdir : x.dir = some entries) (hd : (entries.filterMap DirEntry.pid).Nodup)
    (km : Km) :
    km ∈ entries.filterMap (DirEntry.km pageKb past) ↔
      isKthread pageKb (x :: past) km.pid = true ∧
        km.ticks = lastRead pageKb (x :: past) km.pid := by
  rw [List.mem_filterMap, isKthread_cons hdir]
  constructor
  · rintro ⟨e, he, hkm⟩
    cases hp : e.pid with
    | none => simp [DirEntry.km, hp] at hkm
    | some pid =>
        cases hk : e.kthread pageKb past with
        | false => simp [DirEntry.km, hp, hk] at hkm
        | true =>
            have hlast := lastRead_cons pageKb past hdir hd he hp
            cases hproc : e.proc pageKb <;> simp only [DirEntry.km, hp, hk, hproc, if_true,
                Option.some.injEq] at hkm hlast <;> obtain rfl := hkm
            · exact ⟨⟨e, he, hp, hk⟩, hlast.symm⟩
            · exact ⟨⟨e, he, hp, hk⟩, hlast.symm⟩
  · rintro ⟨⟨e, he, hp, hk⟩, ht⟩
    refine ⟨e, he, ?_⟩
    rw [lastRead_cons pageKb past hdir hd he hp] at ht
    cases hproc : e.proc pageKb <;> simp only [hproc] at ht <;>
      simp [DirEntry.km, hp, hk, hproc, ← ht]

/-- Nothing is recorded twice. -/
theorem pids_kms (pageKb : UInt64) (past : List ProcsInput) (entries : List DirEntry) :
    ((entries.filterMap (DirEntry.km pageKb past)).map Km.pid).Sublist
      (entries.filterMap DirEntry.pid) := by
  induction entries with
  | nil => exact .refl _
  | cons e es ih =>
      rw [List.filterMap_cons, List.filterMap_cons]
      cases hp : e.pid with
      | none => simpa [DirEntry.km, hp] using ih
      | some pid =>
          cases hk : e.kthread pageKb past with
          | false =>
              simp only [DirEntry.km, hp, hk]
              exact ih.cons pid
          | true =>
              cases hproc : e.proc pageKb <;> simp only [DirEntry.km, hp, hk, hproc, if_true,
                List.map_cons] <;> exact ih.cons_cons pid

theorem before_irrefl {kms : List Km} (hnodup : (kms.map Km.pid).Nodup)
    (hasc : Keyed.Ascending Km.key kms) : kms.Pairwise Km.Before := by
  have hne : kms.Pairwise fun a b => a.pid ≠ b.pid := List.pairwise_map.1 hnodup
  refine (hasc.and hne).imp fun {a b} h => ?_
  have hkey : a.pid.toNat ≤ b.pid.toNat := h.1
  exact UInt32.lt_of_le_of_ne (UInt32.le_iff_toNat_le.2 hkey) h.2

/-- The loop's result over all the entries. -/
theorem entries_built (hm : MemoRight pageKb past m) (hf : Fair pageKb past entries) :
    let tables := { m.tables with newN := 0, unsorted := false }
    let s := entries.foldl (ProcsState.entry pageKb (refreshes past))
      ⟨tables, 0, 0, [], x.wp + 2⟩
    Counted pageKb past m entries s ∧ Shown pageKb past x entries s :=
  entries_run hm [] entries ⟨fun _ => rfl, rfl, fun _ => .nil, rfl, rfl⟩ ⟨rfl, by simp⟩
    hf.steady hf.fits

/-- The table that the next sample searches. -/
theorem Counted.known {s : ProcsState} (h : Counted pageKb past m entries s)
    (hd : (entries.filterMap DirEntry.pid).Nodup) :
    let known := (if s.tables.unsorted then s.tables.sort else s.tables).swap.known
    known.Perm (entries.filterMap (DirEntry.km pageKb past)) ∧ known.Pairwise Km.Before := by
  have hnodup := hd.sublist (pids_kms pageKb past entries)
  cases hun : s.tables.unsorted with
  | false =>
      have hknown : s.tables.swap.known = entries.filterMap (DirEntry.km pageKb past) := h.cells
      dsimp only
      rw [if_neg Bool.false_ne_true, hknown]
      exact ⟨.refl _, h.sorted hun⟩
  | true =>
      obtain ⟨hperm, hasc⟩ := Keyed.insertionSort_spec Km.key s.tables.newN s.tables.new
      rw [h.cells] at hperm
      exact ⟨hperm, before_irrefl ((hperm.map Km.pid).nodup_iff.2 hnodup) hasc⟩

/-- One sample keeps the table right. -/
theorem memo_step (hm : MemoRight pageKb past m)
    (hf : ∀ entries, x.dir = some entries → Fair pageKb past entries) :
    MemoRight pageKb (x :: past) (stProcs pageKb m x).1 := by
  have hsamples : m.samples + 1 = UInt32.ofNat (past.length + 1) := by
    rw [hm.samples]
    simp
  unfold stProcs
  cases hdir : x.dir with
  | none =>
      refine ⟨hsamples, hm.sorted, fun km => ?_⟩
      have hk : isKthread pageKb (x :: past) km.pid = isKthread pageKb past km.pid := by
        rw [isKthread, hdir]
      have hl : lastRead pageKb (x :: past) km.pid = lastRead pageKb past km.pid := by
        rw [lastRead, ProcsInput.entry, hdir]
        rfl
      rw [hk, hl]
      exact hm.mem km
  | some entries =>
      have hfair := hf entries hdir
      have hloop := (entries_built (x := x) hm hfair).1
      rw [← hm.refresh] at hloop
      obtain ⟨hperm, hpairs⟩ := hloop.known hfair.distinct
      refine ⟨hsamples, hpairs, fun km => ?_⟩
      exact hperm.mem_iff.trans (mem_kms hdir hfair.distinct km)

/-! ## what is listed -/

/-- Those listed behind `out`. -/
def enlistFrom (x : ProcsInput) (out ps : List Listed) : List Listed :=
  ps.foldl (fun out p => if hasRoom x out p then out ++ [p] else out) out

theorem enlistFrom_keeps (x : ProcsInput) (out ps : List Listed) : out <+: enlistFrom x out ps := by
  induction ps generalizing out with
  | nil => exact List.prefix_rfl
  | cons p ps ih =>
      rw [enlistFrom, List.foldl_cons]
      split
      · exact (List.prefix_append out [p]).trans (ih _)
      · exact ih _

theorem mem_of_enlistFrom {x : ProcsInput} (out : List Listed) {ps : List Listed} {q : Listed}
    (h : q ∈ enlistFrom x out ps) : q ∈ out ∨ q ∈ ps := by
  induction ps generalizing out with
  | nil => exact .inl h
  | cons p ps ih =>
      rw [enlistFrom, List.foldl_cons] at h
      rcases ih _ h with hq | hq
      · split at hq
        · rcases List.mem_append.1 hq with hq | hq
          · exact .inl hq
          · exact .inr (List.mem_cons.2 (.inl (List.mem_singleton.1 hq)))
        · exact .inl hq
      · exact .inr (List.mem_cons_of_mem p hq)

/-- One of several with different pids is listed exactly if there is room at its
turn. -/
theorem mem_enlist {x : ProcsInput} {ps qs : List Listed} {p : Listed}
    (hps : ∀ q ∈ ps, q.pid ≠ p.pid) (hqs : ∀ q ∈ qs, q.pid ≠ p.pid) :
    p.pid ∈ (enlist x (ps ++ p :: qs)).map Listed.pid ↔ hasRoom x (enlist x ps) p = true := by
  have hsplit : enlist x (ps ++ p :: qs) = enlistFrom x (enlist x (ps ++ [p])) qs := by
    rw [← List.singleton_append, ← List.append_assoc, enlist, List.foldl_append]
    rfl
  rw [hsplit, enlist_append]
  constructor
  · intro h
    by_contra hno
    rw [if_neg hno] at h
    obtain ⟨q, hq, hpid⟩ := List.mem_map.1 h
    rcases mem_of_enlistFrom _ hq with hq | hq
    · rcases mem_of_enlistFrom [] hq with hq | hq
      · cases hq
      · exact hps q hq hpid
    · exact hqs q hq hpid
  · intro hroom
    rw [if_pos hroom]
    exact List.mem_map_of_mem ((enlistFrom_keeps x _ qs).subset (by simp))

theorem not_mem_enlist {x : ProcsInput} {ps : List Listed} {pid : UInt32}
    (hps : ∀ q ∈ ps, q.pid ≠ pid) : pid ∉ (enlist x ps).map Listed.pid := by
  intro h
  obtain ⟨q, hq, hpid⟩ := List.mem_map.1 h
  rcases mem_of_enlistFrom [] hq with hq | hq
  · cases hq
  · exact hps q hq hpid

/-- What is to be listed of an entry carries its pid. -/
theorem pid_of_due {e : DirEntry} {q : Listed} (h : e.due pageKb past = some q) :
    e.pid = some q.pid := by
  unfold DirEntry.due at h
  split at h
  · next pid p hpid _ =>
      split_ifs at h <;> obtain rfl := Option.some.inj h <;> exact hpid
  · cases h

/-- A kernel thread is to be listed when it is read and has run. -/
theorem due_kthread {e : DirEntry} {pid : UInt32} (hp : e.pid = some pid)
    (hk : e.kthread pageKb past = true) (q : Listed) :
    e.due pageKb past = some q ↔ reads pageKb past pid = true ∧
      ∃ p, e.proc pageKb = some p ∧ moved pageKb past pid p = true ∧ q = ⟨pid, p⟩ := by
  cases hproc : e.proc pageKb with
  | none => simp [DirEntry.due, hp, hproc]
  | some p =>
      have hkt : p.kthread = true := by simpa [DirEntry.kthread, hp, hproc] using hk
      have hdue : e.due pageKb past = if reads pageKb past pid then
          if moved pageKb past pid p then some ⟨pid, p⟩ else none else none := by
        simp [DirEntry.due, hp, hproc, hkt]
      rw [hdue]
      constructor
      · intro h
        split_ifs at h with hr hmoved
        exact ⟨hr, p, rfl, hmoved, (Option.some.inj h).symm⟩
      · rintro ⟨hr, p', hp', hmoved, rfl⟩
        obtain rfl := Option.some.inj hp'
        rw [if_pos hr, if_pos hmoved]

/-- The reply. -/
theorem reply_step (hm : MemoRight pageKb past m) (hdir : x.dir = some entries)
    (hf : Fair pageKb past entries) :
    ReplyRight pageKb past x entries (stProcs pageKb m x).2 := by
  have hloop := entries_built (x := x) hm hf
  rw [← hm.refresh] at hloop
  obtain ⟨hcount, hshown⟩ := hloop
  have hreply : (stProcs pageKb m x).2.listed =
      enlist x (entries.filterMap (DirEntry.due pageKb past)) := by
    unfold stProcs
    rw [hdir]
    exact hshown.listed
  constructor
  · unfold stProcs
    rw [hdir]
    exact hcount.nprocs
  · unfold stProcs
    rw [hdir]
    exact hcount.nkthreads
  · exact hreply
  · rintro pre e post pid rfl hpid hk
    have hothers : ∀ es : List DirEntry, (∀ f ∈ es, f.pid ≠ some pid) →
        ∀ q ∈ es.filterMap (DirEntry.due pageKb past), q.pid ≠ pid := by
      rintro es hes q hq rfl
      obtain ⟨f, hfmem, hfdue⟩ := List.mem_filterMap.1 hq
      exact hes f hfmem (pid_of_due hfdue)
    have hd := hf.distinct
    rw [List.filterMap_append, List.filterMap_cons, hpid] at hd
    have hd' := List.nodup_append.1 hd
    have hpre : ∀ f ∈ pre, f.pid ≠ some pid := fun f hfm hfp =>
      hd'.2.2 pid (List.mem_filterMap.2 ⟨f, hfm, hfp⟩) pid List.mem_cons_self rfl
    have hpost : ∀ f ∈ post, f.pid ≠ some pid := fun f hfm hfp =>
      (List.nodup_cons.1 hd'.2.1).1 (List.mem_filterMap.2 ⟨f, hfm, hfp⟩)
    rw [hreply, List.filterMap_append, List.filterMap_cons]
    cases hdue : e.due pageKb past with
    | none =>
        have hno : pid ∉ (enlist x (pre.filterMap (DirEntry.due pageKb past) ++
            post.filterMap (DirEntry.due pageKb past))).map Listed.pid :=
          not_mem_enlist fun q hq => (List.mem_append.1 hq).elim (hothers pre hpre q)
            (hothers post hpost q)
        refine ⟨fun h => absurd h hno, ?_⟩
        rintro ⟨hr, p, hproc, hmoved, -⟩
        have hsome := (due_kthread hpid hk ⟨pid, p⟩).2 ⟨hr, p, hproc, hmoved, rfl⟩
        rw [hdue] at hsome
        cases hsome
    | some q =>
        obtain ⟨hr, p, hproc, hmoved, rfl⟩ := (due_kthread hpid hk q).1 hdue
        refine (mem_enlist (hothers pre hpre) (hothers post hpost)).trans
          ⟨fun hroom => ⟨hr, p, hproc, hmoved, hroom⟩, ?_⟩
        rintro ⟨-, p', hproc', -, hroom⟩
        rw [hproc] at hproc'
        obtain rfl := Option.some.inj hproc'
        exact hroom

end sample

/-! ## every history -/

/-- What is kept after a history. -/
def memoAfter (pageKb : UInt64) (m : ProcsMemo) : List ProcsInput → ProcsMemo
  | [] => m
  | x :: past => (stProcs pageKb (memoAfter pageKb m past) x).1

theorem memo_right (pageKb : UInt64) (a b : Nat → Km) {past : List ProcsInput}
    (h : FairHistory pageKb past) :
    MemoRight pageKb past (memoAfter pageKb (.initial a b) past) := by
  induction past with
  | nil =>
      refine ⟨rfl, .nil, fun km => ?_⟩
      have hnone : (memoAfter pageKb (.initial a b) []).tables.known = [] := rfl
      rw [hnone]
      simp [isKthread]
  | cons x past ih => exact memo_step (ih h.2) h.1

/-- After every history the table is right, and so is every reply on the way. -/
theorem kthreads_remembered (pageKb : UInt64) (a b : Nat → Km) (past : List ProcsInput)
    (h : FairHistory pageKb past) :
    MemoRight pageKb past (memoAfter pageKb (.initial a b) past) ∧
      ∀ x before entries, x :: before <:+ past → x.dir = some entries →
        ReplyRight pageKb before x entries
          (stProcs pageKb (memoAfter pageKb (.initial a b) before) x).2 := by
  refine ⟨memo_right pageKb a b h, fun x before entries hsuffix hdir => ?_⟩
  have hfair : FairHistory pageKb (x :: before) := by
    obtain ⟨later, rfl⟩ := hsuffix
    induction later with
    | nil => exact h
    | cons y later ih => exact ih h.2
  exact reply_step (memo_right pageKb a b hfair.2) hdir (hfair.1 entries hdir)

/-- The kernel's own thread, in a sample that reads it and in one that does not. -/
def kthreaddLine : StatLine 4 where
  pid := 2
  comm := [107, 116, 41]
  state := 83
  ppid := 0
  pgrp := 0
  session := 0
  ttyNr := 0
  tpgid := -1
  flags := 0x208040
  minflt := 0
  cminflt := 0
  majflt := 0
  cmajflt := 0
  utime := 0
  stime := 7
  cutime := 0
  cstime := 0
  priority := 20
  nice := 0
  numThreads := 1
  itrealvalue := 0
  starttime := 0
  vsize := 0
  rss := 0
  rest := []
  letter := by decide
  time := by decide
  pages := by decide
  size := by decide

def kthreadd (wp : UInt64) : ProcsInput := ⟨some [⟨[50], kthreaddLine.text, []⟩], wp⟩

theorem fair_kthreadd : FairHistory 4 [kthreadd 200, kthreadd 100] := by
  have hproc : ∀ p, DirEntry.proc 4 ⟨[50], kthreaddLine.text, []⟩ = some p → p.kthread = true := by
    intro p hp
    have hkt : ((DirEntry.proc 4 ⟨[50], kthreaddLine.text, []⟩).map PidStat.kthread) =
        some true := by decide +kernel
    rw [hp] at hkt
    exact Option.some.inj hkt
  have hfair : ∀ past wp entries, (kthreadd wp).dir = some entries → Fair 4 past entries := by
    rintro past wp entries h
    obtain rfl := Option.some.inj h
    refine ⟨by decide, (List.countP_le_length).trans (by decide), fun e he pid _ _ => ?_⟩
    obtain rfl := List.mem_singleton.1 he
    exact hproc
  exact ⟨hfair _ _, hfair _ _, trivial⟩

theorem kthreads_remembered_two :
    MemoRight 4 [kthreadd 200, kthreadd 100]
      (memoAfter 4 (.initial (fun _ => ⟨0, 0⟩) fun _ => ⟨0, 0⟩)
        [kthreadd 200, kthreadd 100]) :=
  (kthreads_remembered 4 _ _ _ fair_kthreadd).1

end Phi.Card
