import Mathlib.Data.UInt
import Phi.Top.Rates
import Phi.Top.Seen

/-!
# Phi.Top.Derive

From two consecutive samples to the numbers on the screen (`derive` of
`model.S`).

`deriveNumbers` is what is computed from the samples alone: the interval, each
CPU's load and their mean, the transfer rates.  `derive` adds each process's
share, for which it looks the process up in the history, and the worker's
rates.  The grouping of CPUs into cores is left out.

No division of `derive` stops the program.  The loads and the rates mean what
they say exactly where the counters are `Steady`: the differences are taken in
words that wrap, and only the worker's counters are checked for having gone
back (`derived_meaningful_iff`).
-/

namespace Phi.Top

open Rpc

/-! ## loads -/

/-- Busy and idle ticks, or what was added to them. -/
structure Ticks where
  busy : UInt32
  idle : UInt32
deriving DecidableEq

/-- What CPU number `i` counted since the sample before; all it counted if
that one does not have it. -/
def ticksSince (prev : List CpuStat) (c : CpuStat) (i : Nat) : Ticks :=
  match prev[i]? with
  | some p => ⟨c.busy - p.busy, c.idle - p.idle⟩
  | none => ⟨c.busy, c.idle⟩

def cpuTicks (prev cur : Snapshot) : List Ticks :=
  cur.cpus.zipIdx.map fun (c, i) => ticksSince prev.cpus c i

/-- A load in units of 1/10000: busy / (busy + idle). -/
def load (d : Ticks) : Except Halt UInt64 :=
  let total := d.busy + d.idle
  if total = 0 then .ok 0 else divq 0 (d.busy.toUInt64 * 10000) total.toUInt64

structure Loads where
  cpuLoad : List UInt32
  mean : UInt64
deriving DecidableEq

/-- The loads as they are stored, in 32 bits, and the mean of the quotients. -/
def deriveLoads (prev cur : Snapshot) : Except Halt Loads := do
  let quotients ← (cpuTicks prev cur).mapM load
  let ncpu := UInt64.ofNat cur.cpus.length
  let mean ← divq 0 quotients.sum (if ncpu = 0 then 1 else ncpu)
  return ⟨quotients.map UInt64.toUInt32, mean⟩

/-! ## transfers -/

/-- What is derived from the two samples alone. -/
structure Numbers where
  intervalUs : UInt64
  loads : Loads
  dmaTo : UInt64
  dmaFrom : UInt64
  aperTo : UInt64
  aperFrom : UInt64
  disks : List Rate
  nets : List Rate
deriving DecidableEq

def deriveNumbers (prev cur : Snapshot) : Except Halt Numbers := do
  let iv := interval prev cur
  let loads ← deriveLoads prev cur
  let dmaTo ← perSecond iv (cur.traffic.dmaToCard - prev.traffic.dmaToCard)
  let dmaFrom ← perSecond iv (cur.traffic.dmaFromCard - prev.traffic.dmaFromCard)
  let aperTo ← perSecond iv (cur.traffic.apertureToCard - prev.traffic.apertureToCard)
  let aperFrom ← perSecond iv (cur.traffic.apertureFromCard - prev.traffic.apertureFromCard)
  let disks ← rateDevs iv cur.disks prev.disks
  let nets ← rateDevs iv cur.nets prev.nets
  return ⟨iv, loads, dmaTo, dmaFrom, aperTo, aperFrom, disks, nets⟩

/-! ## shares and the worker -/

def minSpan : UInt64 := 1000
def maxShare : UInt64 := 0xffffffff

/-- The share of a listed process, in tenths of a percent of one thread: its
ticks since it was last reported, over that span. -/
def deriveShare (seen : SeenTable) (atUs : UInt64) (p : Proc) : Except Halt UInt32 :=
  match seenFind seen p.pid with
  | none => .error .endless
  | some i => do
      let e := seen i
      if e.pid = 0 ∨ p.ticks < e.ticks ∨ atUs ≤ e.atUs then return 0
      let span := if atUs - e.atUs < minSpan then minSpan else atUs - e.atUs
      let q ← divq 0 ((p.ticks - e.ticks) * 10000000) span
      return (if q ≤ maxShare then q else maxShare).toUInt32

/-- The worker's rates. -/
structure VpuRates where
  reqTenths : UInt64
  busyTenths : UInt64
  totalNs : UInt64
  pullNs : UInt64
  computeNs : UInt64
  pushNs : UInt64
  requests : UInt64
  errors : UInt64
  kernel : UInt32
  threads : UInt32
deriving DecidableEq

/-- `derive_vpu`: nothing when either sample lacks the line or a counter went
back. -/
def deriveVpu (iv : UInt64) : Option VpuStats → Option VpuStats → Except Halt (Option VpuRates)
  | some p, some c => do
      if c.requests < p.requests then return none
      let n := c.requests - p.requests
      let req ← divq 0 (n * 10000000) iv
      if c.busyNs < p.busyNs then return none
      let busy ← divq 0 (c.busyNs - p.busyNs) iv
      if n = 0 then
        return some ⟨req, busy, 0, 0, 0, 0, c.requests, c.errors, c.lastKernel, c.lastThreads⟩
      let total ← divq 0 (c.busyNs - p.busyNs) n
      if c.computeNs < p.computeNs then return none
      let compute ← divq 0 (c.computeNs - p.computeNs) n
      if c.pullNs < p.pullNs then return none
      let pull ← divq 0 (c.pullNs - p.pullNs) n
      if c.pushNs < p.pushNs then return none
      let push ← divq 0 (c.pushNs - p.pushNs) n
      return some ⟨req, busy, total, pull, compute, push, c.requests, c.errors, c.lastKernel,
        c.lastThreads⟩
  | _, _ => .ok none

/-- The derived record. -/
structure Derived where
  numbers : Numbers
  procCpu : List UInt32
  vpu : Option VpuRates
deriving DecidableEq

def derive (seen : SeenTable) (prev cur : Snapshot) : Except Halt Derived := do
  let numbers ← deriveNumbers prev cur
  let procCpu ← cur.procs.mapM (deriveShare seen cur.atUs)
  let vpu ← deriveVpu numbers.intervalUs prev.vpu cur.vpu
  return ⟨numbers, procCpu, vpu⟩

/-! ## no division stops the program -/

/-- The quotient that is a CPU's load before it is stored. -/
def quotient (d : Ticks) : UInt64 :=
  if d.busy + d.idle = 0 then 0 else d.busy.toUInt64 * 10000 / (d.busy + d.idle).toUInt64

theorem load_eq (d : Ticks) : load d = .ok (quotient d) := by
  simp only [load, quotient]
  split
  · rfl
  · next h => exact divq_zero _ fun h0 => h (UInt32.toUInt64_inj.mp h0)

/-- The divisor of the mean. -/
def meanOver (cur : Snapshot) : UInt64 :=
  if UInt64.ofNat cur.cpus.length = 0 then 1 else UInt64.ofNat cur.cpus.length

theorem meanOver_ne_zero (cur : Snapshot) : meanOver cur ≠ 0 := by
  unfold meanOver
  split
  · decide
  · next h => exact h

theorem deriveLoads_eq (prev cur : Snapshot) : deriveLoads prev cur =
    .ok ⟨((cpuTicks prev cur).map quotient).map UInt64.toUInt32,
      ((cpuTicks prev cur).map quotient).sum / meanOver cur⟩ := by
  rw [deriveLoads, mapM_ok load_eq]
  have := divq_zero ((cpuTicks prev cur).map quotient).sum (meanOver_ne_zero cur)
  unfold meanOver at this ⊢
  simp only [bind, Except.bind, this]
  rfl

/-- The numbers as they are: nothing stops the routine. -/
theorem deriveNumbers_eq (prev cur : Snapshot) : ∃ l, deriveLoads prev cur = .ok l ∧
    deriveNumbers prev cur = .ok {
      intervalUs := interval prev cur
      loads := l
      dmaTo := (cur.traffic.dmaToCard - prev.traffic.dmaToCard) * 1000000 / interval prev cur
      dmaFrom := (cur.traffic.dmaFromCard - prev.traffic.dmaFromCard) * 1000000 / interval prev cur
      aperTo := (cur.traffic.apertureToCard - prev.traffic.apertureToCard) * 1000000 /
        interval prev cur
      aperFrom := (cur.traffic.apertureFromCard - prev.traffic.apertureFromCard) * 1000000 /
        interval prev cur
      disks := cur.disks.map (rated (interval prev cur) prev.disks)
      nets := cur.nets.map (rated (interval prev cur) prev.nets) } := by
  have hiv := interval_ne_zero prev cur
  refine ⟨_, deriveLoads_eq prev cur, ?_⟩
  simp only [deriveNumbers, deriveLoads_eq, perSecond_eq hiv, rateDevs_eq hiv]
  rfl

/-- A share whose process is found is computed. -/
theorem returns_share {seen : SeenTable} {p : Proc} {i : Nat} (h : seenFind seen p.pid = some i)
    (atUs : UInt64) : Returns (deriveShare seen atUs p) := by
  have hspan : (if atUs - (seen i).atUs < minSpan then minSpan else atUs - (seen i).atUs) ≠ 0 := by
    split
    · decide
    · next h =>
        intro h0
        exact h (h0 ▸ by decide)
  simp only [deriveShare, h]
  split
  · exact returns_pure _
  · exact (returns_divq _ hspan).bind fun _ => returns_pure _

theorem returns_vpu {iv : UInt64} (hiv : iv ≠ 0) (p c : Option VpuStats) :
    Returns (deriveVpu iv p c) := by
  unfold deriveVpu
  split
  · refine .ite (returns_pure _) fun _ => (returns_divq _ hiv).bind fun _ => ?_
    refine .ite (returns_pure _) fun _ => (returns_divq _ hiv).bind fun _ => ?_
    -- from here on what divides is the number of requests, and it is not 0
    refine .ite (returns_pure _) fun hn => (returns_divq _ hn).bind fun _ => ?_
    refine .ite (returns_pure _) fun _ => (returns_divq _ hn).bind fun _ => ?_
    refine .ite (returns_pure _) fun _ => (returns_divq _ hn).bind fun _ => ?_
    exact .ite (returns_pure _) fun _ => (returns_divq _ hn).bind fun _ => returns_pure _
  · exact returns_pure _

theorem noDivide_share (seen : SeenTable) (atUs : UInt64) (p : Proc) :
    NoDivide (deriveShare seen atUs p) := by
  cases h : seenFind seen p.pid with
  | none => rw [deriveShare, h]; nofun
  | some i => exact (returns_share h atUs).noDivide

theorem noDivide_derive (seen : SeenTable) (prev cur : Snapshot) :
    NoDivide (derive seen prev cur) := by
  obtain ⟨l, -, hn⟩ := deriveNumbers_eq prev cur
  rw [derive, hn]
  exact (noDivide_mapM (noDivide_share seen cur.atUs) cur.procs).bind fun _ =>
    ((returns_vpu (interval_ne_zero prev cur) _ _).bind fun _ => returns_pure _).noDivide

/-- With an empty entry in the history every lookup ends, and so does the routine. -/
theorem returns_derive {seen : SeenTable} {cur : Snapshot} (prev : Snapshot)
    (hroom : cur.procs ≠ [] → HasRoom seen) : Returns (derive seen prev cur) := by
  obtain ⟨l, -, hn⟩ := deriveNumbers_eq prev cur
  rw [derive, hn]
  have hshare : ∀ p ∈ cur.procs, Returns (deriveShare seen cur.atUs p) := by
    intro p hp
    obtain ⟨i, hi, -⟩ := (hroom (List.ne_nil_of_mem hp)).seenFind p.pid
    exact returns_share hi cur.atUs
  exact (returns_mapM hshare).bind fun _ =>
    (returns_vpu (interval_ne_zero prev cur) _ _).bind fun _ => returns_pure _

/-! ## loads in 0..10000 -/

/-- A CPU whose load is sound: its differences do not add up past a word, or
to nothing in a word, or its idle time went back by less than one part in ten
thousand of what is then taken for the total. -/
def LoadSound (d : Ticks) : Prop :=
  d.busy.toNat + d.idle.toNat < 2 ^ 32 ∨ d.busy + d.idle = 0 ∨
    10000 * (2 ^ 32 - d.idle.toNat) < (d.busy + d.idle).toNat

instance (d : Ticks) : Decidable (LoadSound d) := by
  unfold LoadSound; infer_instance

theorem toNat_quotient (d : Ticks) : (quotient d).toNat =
    if d.busy + d.idle = 0 then 0 else d.busy.toNat * 10000 / (d.busy + d.idle).toNat := by
  unfold quotient
  split
  · rfl
  · have hlt := d.busy.toNat_lt
    rw [UInt64.toNat_div, UInt64.toNat_mul, UInt32.toNat_toUInt64, UInt32.toNat_toUInt64]
    rw [Nat.mod_eq_of_lt (by change _ * 10000 < _; omega)]
    rfl

theorem quotient_le_iff (d : Ticks) : (quotient d).toNat ≤ 10000 ↔ LoadSound d := by
  rw [toNat_quotient]
  unfold LoadSound
  by_cases h0 : d.busy + d.idle = 0
  · simp [h0]
  · have hpos : 0 < (d.busy + d.idle).toNat := by
      refine Nat.pos_of_ne_zero fun h => h0 (UInt32.toNat_inj.mp h)
    have hb := d.busy.toNat_lt
    have hi := d.idle.toNat_lt
    have hadd : (d.busy + d.idle).toNat = (d.busy.toNat + d.idle.toNat) % 2 ^ 32 :=
      UInt32.toNat_add _ _
    rw [if_neg h0, ← Nat.lt_succ_iff, Nat.div_lt_iff_lt_mul hpos]
    simp only [h0, false_or]
    omega

/-- No quotient needs more than a few bits beyond its 32. -/
theorem toNat_quotient_lt (d : Ticks) : (quotient d).toNat < 2 ^ 46 := by
  rw [toNat_quotient]
  split
  · decide
  · have := d.busy.toNat_lt
    have := Nat.div_le_self (d.busy.toNat * 10000) (d.busy + d.idle).toNat
    omega

/-- A sum of few small words does not wrap. -/
theorem toNat_sum {l : List UInt64} (h : ∀ x ∈ l, x.toNat < 2 ^ 46) (hl : l.length ≤ snCpuCap) :
    l.sum.toNat = (l.map UInt64.toNat).sum ∧ (l.map UInt64.toNat).sum ≤ l.length * 2 ^ 46 := by
  induction l with
  | nil => exact ⟨rfl, by simp⟩
  | cons x l ih =>
      have hlen : l.length + 1 ≤ 4096 := hl
      obtain ⟨h1, h2⟩ := ih (fun y hy => h y (List.mem_cons_of_mem x hy))
        (Nat.le_of_succ_le hlen)
      have hx := h x List.mem_cons_self
      simp only [List.sum_cons, List.map_cons, List.length_cons]
      rw [UInt64.toNat_add, h1, Nat.mod_eq_of_lt (by omega)]
      exact ⟨rfl, by omega⟩

theorem le_sum_of_mem {l : List Nat} {x : Nat} (h : x ∈ l) : x ≤ l.sum := by
  induction l with
  | nil => cases h
  | cons y l ih =>
      rw [List.sum_cons]
      rcases List.mem_cons.mp h with rfl | h
      · omega
      · exact (ih h).trans (by omega)

theorem sum_le_of_le {l : List Nat} {m : Nat} (h : ∀ x ∈ l, x ≤ m) : l.sum ≤ l.length * m := by
  induction l with
  | nil => simp
  | cons y l ih =>
      have h1 := h y List.mem_cons_self
      have h2 := ih fun x hx => h x (List.mem_cons_of_mem y hx)
      rw [List.sum_cons, List.length_cons, Nat.succ_mul]
      omega

theorem toNat_meanOver (cur : Snapshot) :
    (meanOver cur).toNat = max cur.cpus.length 1 := by
  have hn := cur.ncpu
  have hcap : snCpuCap = 4096 := rfl
  have hlen : (UInt64.ofNat cur.cpus.length).toNat = cur.cpus.length :=
    UInt64.toNat_ofNat_of_lt' (by change _ < 2 ^ 64; omega)
  unfold meanOver
  split
  · next h =>
      have := congrArg UInt64.toNat h
      rw [hlen] at this
      change (1 : UInt64).toNat = _
      rw [this]
      rfl
  · next h =>
      have : cur.cpus.length ≠ 0 := fun h0 => h (by rw [h0]; rfl)
      rw [hlen]
      omega

theorem length_cpuTicks (prev cur : Snapshot) : (cpuTicks prev cur).length = cur.cpus.length := by
  simp [cpuTicks]

/-- The loads and their mean are in range exactly where every CPU is sound: a
quotient too large for its 32 bits shows in the mean. -/
theorem loads_iff {prev cur : Snapshot} {l : Loads} (hl : deriveLoads prev cur = .ok l) :
    ((∀ x ∈ l.cpuLoad, x.toNat ≤ 10000) ∧ l.mean.toNat ≤ 10000) ↔
      ∀ d ∈ cpuTicks prev cur, LoadSound d := by
  obtain rfl := Except.ok.inj ((deriveLoads_eq prev cur).symm.trans hl)
  have hcap : snCpuCap = 4096 := rfl
  have hn := cur.ncpu
  have hlen : ((cpuTicks prev cur).map quotient).length = cur.cpus.length := by
    rw [List.length_map, length_cpuTicks]
  have hsum := (toNat_sum (l := (cpuTicks prev cur).map quotient)
    (by simpa using fun d _ => toNat_quotient_lt d) (by omega)).1
  have hmean : (((cpuTicks prev cur).map quotient).sum / meanOver cur).toNat =
      (((cpuTicks prev cur).map quotient).map UInt64.toNat).sum / max cur.cpus.length 1 := by
    rw [UInt64.toNat_div, hsum, toNat_meanOver]
  simp only [List.mem_map, forall_exists_index, and_imp, forall_apply_eq_imp_iff₂, hmean]
  constructor
  · rintro ⟨hload, hle⟩ d hd
    have hq : (quotient d).toNat ≤ (((cpuTicks prev cur).map quotient).map UInt64.toNat).sum :=
      le_sum_of_mem (List.mem_map_of_mem (List.mem_map_of_mem hd))
    have hlt := (Nat.div_lt_iff_lt_mul (by omega)).mp (Nat.lt_succ_of_le hle)
    have h32 : (quotient d).toNat < 2 ^ 32 := by omega
    have := hload d hd
    rw [UInt64.toNat_toUInt32, Nat.mod_eq_of_lt h32] at this
    exact (quotient_le_iff d).mp this
  · intro hs
    have hq := fun d hd => (quotient_le_iff d).mpr (hs d hd)
    refine ⟨fun d hd => ?_, ?_⟩
    · rw [UInt64.toNat_toUInt32]
      exact (Nat.mod_le _ _).trans (hq d hd)
    · have hle : (((cpuTicks prev cur).map quotient).map UInt64.toNat).sum ≤
          cur.cpus.length * 10000 := by
        have := sum_le_of_le (l := ((cpuTicks prev cur).map quotient).map UInt64.toNat)
          (m := 10000) (by simpa using hq)
        rwa [List.length_map, hlen] at this
      exact Nat.div_le_of_le_mul (hle.trans (Nat.mul_le_mul_right _ (Nat.le_max_left _ _)))

/-! ## what the numbers mean -/

/-- A device's two rates, against its counterpart of the sample before. -/
def RateMeant (iv : UInt64) (before : List Dev) (d : Dev) (r : Rate) : Prop :=
  Meaningful iv (counterpart before d).read d.read r.a ∧
    Meaningful iv (counterpart before d).written d.written r.b

/-- The loads and their mean are in 0..10000, and every transfer rate is its
counter's. -/
structure Meant (prev cur : Snapshot) (n : Numbers) : Prop where
  loads : (∀ x ∈ n.loads.cpuLoad, x.toNat ≤ 10000) ∧ n.loads.mean.toNat ≤ 10000
  dmaTo : Meaningful n.intervalUs prev.traffic.dmaToCard cur.traffic.dmaToCard n.dmaTo
  dmaFrom : Meaningful n.intervalUs prev.traffic.dmaFromCard cur.traffic.dmaFromCard n.dmaFrom
  aperTo : Meaningful n.intervalUs prev.traffic.apertureToCard cur.traffic.apertureToCard n.aperTo
  aperFrom : Meaningful n.intervalUs prev.traffic.apertureFromCard cur.traffic.apertureFromCard
    n.aperFrom
  disks : List.Forall₂ (RateMeant n.intervalUs prev.disks) cur.disks n.disks
  nets : List.Forall₂ (RateMeant n.intervalUs prev.nets) cur.nets n.nets

/-- Both counters of a device went on from its counterpart's. -/
def DevCounted (before : List Dev) (d : Dev) : Prop :=
  Counted (counterpart before d).read d.read ∧ Counted (counterpart before d).written d.written

/-- No counter went back (an idle time may, by little), and no transfer
counter went on by more than a word holds when it is scaled. -/
structure Steady (prev cur : Snapshot) : Prop where
  loads : ∀ d ∈ cpuTicks prev cur, LoadSound d
  dmaTo : Counted prev.traffic.dmaToCard cur.traffic.dmaToCard
  dmaFrom : Counted prev.traffic.dmaFromCard cur.traffic.dmaFromCard
  aperTo : Counted prev.traffic.apertureToCard cur.traffic.apertureToCard
  aperFrom : Counted prev.traffic.apertureFromCard cur.traffic.apertureFromCard
  disks : ∀ d ∈ cur.disks, DevCounted prev.disks d
  nets : ∀ d ∈ cur.nets, DevCounted prev.nets d

/-- The routine is stopped by no division, and the numbers it derives mean
what they say. -/
def DerivedMeaningful (prev cur : Snapshot) : Prop :=
  (∀ seen, NoDivide (derive seen prev cur)) ∧
    ∃ n, deriveNumbers prev cur = .ok n ∧ Meant prev cur n

theorem rated_meant_iff {iv : UInt64} (hiv : iv ≠ 0) (before : List Dev) (ds : List Dev) :
    List.Forall₂ (RateMeant iv before) ds (ds.map (rated iv before)) ↔
      ∀ d ∈ ds, DevCounted before d := by
  have hone : ∀ d, RateMeant iv before d (rated iv before d) ↔ DevCounted before d := fun d =>
    and_congr (meaningful_iff hiv) (meaningful_iff hiv)
  induction ds with
  | nil => simp
  | cons d ds ih => simp [List.forall₂_cons, hone, ih]

/-- The derived numbers mean what they say exactly where the counters are
steady. -/
theorem derived_meaningful_iff (prev cur : Snapshot) :
    DerivedMeaningful prev cur ↔ Steady prev cur := by
  obtain ⟨l, hl, hn⟩ := deriveNumbers_eq prev cur
  have hiv := interval_ne_zero prev cur
  constructor
  · rintro ⟨-, n, hn', hm⟩
    obtain rfl := Except.ok.inj (hn.symm.trans hn')
    exact {
      loads := (loads_iff hl).mp hm.loads
      dmaTo := (meaningful_iff hiv).mp hm.dmaTo
      dmaFrom := (meaningful_iff hiv).mp hm.dmaFrom
      aperTo := (meaningful_iff hiv).mp hm.aperTo
      aperFrom := (meaningful_iff hiv).mp hm.aperFrom
      disks := (rated_meant_iff hiv _ _).mp hm.disks
      nets := (rated_meant_iff hiv _ _).mp hm.nets }
  · intro hs
    refine ⟨fun seen => noDivide_derive seen prev cur, _, hn, ?_⟩
    exact {
      loads := (loads_iff hl).mpr hs.loads
      dmaTo := (meaningful_iff hiv).mpr hs.dmaTo
      dmaFrom := (meaningful_iff hiv).mpr hs.dmaFrom
      aperTo := (meaningful_iff hiv).mpr hs.aperTo
      aperFrom := (meaningful_iff hiv).mpr hs.aperFrom
      disks := (rated_meant_iff hiv _ _).mpr hs.disks
      nets := (rated_meant_iff hiv _ _).mpr hs.nets }

/-- A sample with one CPU. -/
def oneCpu (atUs : UInt64) (busy idle : UInt32) : Snapshot where
  atUs := atUs
  cpus := [⟨0, busy, idle⟩]
  traffic := ⟨0, 0, 0, 0, 0, 0⟩
  disks := []
  nets := []
  procs := []
  vpu := none
  ncpu := by simp [snCpuCap]
  ndisks := no_devs
  nnets := no_devs
  nlisted := by simp

/-- The kernel took nine ticks of idle time back while ten busy ones went by:
the load is 100000. -/
theorem idle_back_load : deriveLoads (oneCpu 0 100 1000) (oneCpu 1000000 110 991) =
      .ok ⟨[100000], 100000⟩ ∧
    ¬ DerivedMeaningful (oneCpu 0 100 1000) (oneCpu 1000000 110 991) := by
  have hl : deriveLoads (oneCpu 0 100 1000) (oneCpu 1000000 110 991) =
      .ok ⟨[100000], 100000⟩ := by rfl
  refine ⟨hl, ?_⟩
  rintro ⟨-, n, hn, hm⟩
  obtain ⟨l, hl', hn'⟩ := deriveNumbers_eq (oneCpu 0 100 1000) (oneCpu 1000000 110 991)
  obtain rfl := Except.ok.inj (hn'.symm.trans hn)
  obtain rfl := Except.ok.inj (hl'.symm.trans hl)
  exact absurd hm.loads.2 (by decide)

end Phi.Top
