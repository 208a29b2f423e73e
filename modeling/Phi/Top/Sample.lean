import Phi.Top.Decoded

/-!
# Phi.Top.Sample

A StatReply is read whole as `phi-rpc` reads it.

The steps of the walk fill areas of their own, so what one has decoded the
later ones leave; no load is behind the body's end and no store outside its
area, and no two areas share a byte.
-/

namespace Phi.Top

open Rpc Walk Serve

/-! ## the parts of a sample -/

/-- The steps of the walk, and the areas that each fills. -/
def Area.part : Area → Nat
  | .uptime => 0
  | .ncpuSent | .ncpu | .cpu _ => 1
  | .mem | .load | .running | .tasks => 2
  | .ntemps | .temp _ | .peak | .vcore | .mhz => 3
  | .ndisks | .disk _ => 4
  | .nnets | .net _ => 5
  | .nlisted | .proc _ | .nprocs | .nkthreads => 6

/-- What is read from the areas of one part. -/
def OfPart (k : Nat) (P : Snap → Prop) : Prop :=
  ∀ s t : Snap, (∀ a : Area, a.part = k → t.cells a = s.cells a) → P s → P t

/-- A later step leaves the part alone. -/
theorem OfPart.keep {k j : Nat} {P : Snap → Prop} (hP : OfPart k P) {s t : Snap}
    (h : Only (fun a => a.part = j) s t) (hne : k ≠ j) (hs : P s) : P t :=
  hP s t (fun a ha => h.same a fun hj => hne (ha.symm.trans hj)) hs

theorem Listed.ofPart {β : Type} {table : Nat → Area} {count : Area} {cap k : Nat}
    {At : Snap → Nat → β → Prop} (htable : Table table count At) (hpart : ∀ i, (table i).part = k)
    (hcount : count.part = k) (bs : List β) : OfPart k (Listed table count cap At bs) := by
  intro s t hcells h
  refine ⟨fun i b hb hi => htable.congr (h.entries i b hb hi) (hcells _ (hpart i)), ?_⟩
  rw [Snap.u64_congr (hcells _ hcount)]
  exact h.count

/-- The processors: the number sent, and the table. -/
def CpusRead (cs : List CpuStat) (t : Snap) : Prop :=
  t.u64 .ncpuSent 0 = UInt64.ofNat cs.length ∧ Listed .cpu .ncpu snCpuCap CpuAt cs t

theorem cpusRead_ofPart (cs : List CpuStat) : OfPart 1 (CpusRead cs) := by
  intro s t hcells h
  refine ⟨?_, Listed.ofPart cpu_table (fun _ => rfl) rfl cs s t hcells h.2⟩
  rw [Snap.u64_congr (hcells _ rfl)]
  exact h.1

theorem follows_decodeCpus (s : Snap) :
    Follows 0 0 s decodeCpus (Read.list Read.cpu) fun cs _ t =>
      CpusRead cs t ∧ Only (fun a => a.part = 1) s t := by
  unfold decodeCpus Read.list
  refine follows_peekU16.bind fun v n t ⟨hn, ht⟩ => Follows.move_before ?_
  have hlt : n < 2 ^ 64 := by
    rw [hn]
    exact Nat.lt_trans v.toNat_lt (by decide)
  rw [← hn, ht]
  refine Follows.before (follows_put ()) fun _ u ⟨_, hu⟩ => ?_
  have hfirst : Only (fun a => a.part = 1) s u := by
    have hone : Only (· = .ncpuSent) s u := by
      rw [hu]
      have hvalid : Area.ncpuSent.Valid := trivial
      exact (only_refl _ s).store hvalid 0 (by simp [Area.size])
    exact hone.mono fun a ha => ha ▸ rfl
  refine (follows_listed cpu_table follows_decodeCpu hlt u).mono
    fun cs _ w ⟨hlen, hlist, honly⟩ => ?_
  have hrest : Only (fun a => a.part = 1) u w := honly.mono fun a ha => by
    obtain ⟨i, rfl⟩ | rfl := ha <;> rfl
  refine ⟨⟨?_, hlist⟩, hfirst.trans hrest⟩
  have hsame : w.cells .ncpuSent = u.cells .ncpuSent := honly.same _ fun h => by
    obtain ⟨i, h⟩ | h := h <;> exact nomatch h
  rw [Snap.u64_congr hsame, hu, hlen]
  exact u64_put s .ncpuSent hlt

/-- Memory, load and tasks. -/
structure MemRead (m : MemStat) (l : UInt16 × UInt16 × UInt16) (running tasks : UInt32) (t : Snap) :
    Prop where
  totalKb : t.u64 .mem 0 = m.totalKb
  availKb : t.u64 .mem 8 = m.availKb
  buffersKb : t.u64 .mem 16 = m.buffersKb
  cachedKb : t.u64 .mem 24 = m.cachedKb
  swapTotalKb : t.u64 .mem 32 = m.swapTotalKb
  swapFreeKb : t.u64 .mem 40 = m.swapFreeKb
  load : (t.u16 .load 0, t.u16 .load 2, t.u16 .load 4) = l
  running : t.u32 .running 0 = running
  tasks : t.u32 .tasks 0 = tasks

theorem memRead_ofPart (m : MemStat) (l : UInt16 × UInt16 × UInt16) (running tasks : UInt32) :
    OfPart 2 (MemRead m l running tasks) := fun s t hcells h => by
  have hmem := fun o => Snap.u64_congr (hcells .mem rfl) o
  have hload := fun o => Snap.u16_congr (hcells .load rfl) o
  constructor
  · exact (hmem 0).trans h.totalKb
  · exact (hmem 8).trans h.availKb
  · exact (hmem 16).trans h.buffersKb
  · exact (hmem 24).trans h.cachedKb
  · exact (hmem 32).trans h.swapTotalKb
  · exact (hmem 40).trans h.swapFreeKb
  · rw [hload, hload, hload]
    exact h.load
  · exact (Snap.u32_congr (hcells .running rfl) 0).trans h.running
  · exact (Snap.u32_congr (hcells .tasks rfl) 0).trans h.tasks

/-- The fields of `phi-rpc` that `decodeMem` reads. -/
def readMem : Reader (MemStat × (UInt16 × UInt16 × UInt16) × UInt32 × UInt32) := do
  let m ← Read.mem
  let l ← Read.load
  let running ← Read.u32
  let tasks ← Read.u32
  pure (m, l, running, tasks)

theorem readMem_eq : readMem = (do
    let totalKb ← Read.u64
    let availKb ← Read.u64
    let buffersKb ← Read.u64
    let cachedKb ← Read.u64
    let swapTotalKb ← Read.u64
    let swapFreeKb ← Read.u64
    let one ← Read.u16
    let five ← Read.u16
    let fifteen ← Read.u16
    let running ← Read.u32
    let tasks ← Read.u32
    pure ({ totalKb, availKb, buffersKb, cachedKb, swapTotalKb, swapFreeKb },
      (one, five, fifteen), running, tasks)) := by
  unfold readMem Read.mem Read.load
  simp only [bind_assoc, pure_bind]

theorem follows_decodeMem (s : Snap) :
    Follows 0 0 s decodeMem readMem fun x _ t =>
      MemRead x.1 x.2.1 x.2.2.1 x.2.2.2 t ∧ Only (fun a => a.part = 2) s t := by
  rw [readMem_eq]
  unfold decodeMem
  refine (follows_copy _).bind fun totalKb _ t₁ ⟨b₁, h₁, hv₁, ht₁⟩ => ?_
  refine (follows_copy _).bind fun availKb _ t₂ ⟨b₂, h₂, hv₂, ht₂⟩ => ?_
  refine (follows_copy _).bind fun buffersKb _ t₃ ⟨b₃, h₃, hv₃, ht₃⟩ => ?_
  refine (follows_copy _).bind fun cachedKb _ t₄ ⟨b₄, h₄, hv₄, ht₄⟩ => ?_
  refine (follows_copy _).bind fun swapTotalKb _ t₅ ⟨b₅, h₅, hv₅, ht₅⟩ => ?_
  refine (follows_copy _).bind fun swapFreeKb _ t₆ ⟨b₆, h₆, hv₆, ht₆⟩ => Follows.move_before ?_
  refine (follows_copy _).bind fun one _ t₇ ⟨b₇, h₇, hv₇, ht₇⟩ => ?_
  refine (follows_copy _).bind fun five _ t₈ ⟨b₈, h₈, hv₈, ht₈⟩ => ?_
  refine (follows_copy _).bind fun fifteen _ t₉ ⟨b₉, h₉, hv₉, ht₉⟩ => ?_
  refine (follows_copy _).bind fun running _ t₁₀ ⟨b₁₀, h₁₀, hv₁₀, ht₁₀⟩ => ?_
  refine Follows.moved (n := 14) ((follows_copy _).map fun tasks _ t ⟨b, h, hv, ht⟩ => ?_)
  have hload : t.cells .load = t₉.cells .load := by
    rw [ht, Snap.store_cells_of_ne _ (by decide), ht₁₀, Snap.store_cells_of_ne _ (by decide)]
  have hmem : t.cells .mem = t₆.cells .mem := by
    rw [ht, Snap.store_cells_of_ne _ (by decide), ht₁₀, Snap.store_cells_of_ne _ (by decide), ht₉,
      Snap.store_cells_of_ne _ (by decide), ht₈, Snap.store_cells_of_ne _ (by decide), ht₇,
      Snap.store_cells_of_ne _ (by decide)]
  refine ⟨⟨?_, ?_, ?_, ?_, ?_, ?_, ?_, ?_, ?_⟩, ?_⟩
  · rw [Snap.u64_congr hmem, Snap.u64]
    simp (disch := omega) only [ht₆, ht₅, ht₄, ht₃, ht₂, ht₁, Snap.load_store_apart]
    rw [Snap.load_store_eq h₁, hv₁]
  · rw [Snap.u64_congr hmem, Snap.u64]
    simp (disch := omega) only [ht₆, ht₅, ht₄, ht₃, ht₂, Snap.load_store_apart]
    rw [Snap.load_store_eq h₂, hv₂]
  · rw [Snap.u64_congr hmem, Snap.u64]
    simp (disch := omega) only [ht₆, ht₅, ht₄, ht₃, Snap.load_store_apart]
    rw [Snap.load_store_eq h₃, hv₃]
  · rw [Snap.u64_congr hmem, Snap.u64]
    simp (disch := omega) only [ht₆, ht₅, ht₄, Snap.load_store_apart]
    rw [Snap.load_store_eq h₄, hv₄]
  · rw [Snap.u64_congr hmem, Snap.u64]
    simp (disch := omega) only [ht₆, ht₅, Snap.load_store_apart]
    rw [Snap.load_store_eq h₅, hv₅]
  · rw [Snap.u64_congr hmem, Snap.u64, ht₆, Snap.load_store_eq h₆, hv₆]
  · rw [Snap.u16_congr hload, Snap.u16_congr hload, Snap.u16_congr hload]
    refine Prod.ext ?_ (Prod.ext ?_ ?_)
    · show t₉.u16 .load _ = _
      rw [Snap.u16]
      simp (disch := omega) only [ht₉, ht₈, ht₇, Snap.load_store_apart]
      rw [Snap.load_store_eq h₇, hv₇]
    · show t₉.u16 .load _ = _
      rw [Snap.u16]
      simp (disch := omega) only [ht₉, ht₈, Snap.load_store_apart]
      rw [Snap.load_store_eq h₈, hv₈]
    · show t₉.u16 .load 4 = _
      rw [Snap.u16, ht₉, Snap.load_store_eq h₉, hv₉]
  · have hrunning : t.cells .running = t₁₀.cells .running := by
      rw [ht, Snap.store_cells_of_ne _ (by decide)]
    rw [Snap.u32_congr hrunning, Snap.u32, ht₁₀, Snap.load_store_eq h₁₀, hv₁₀]
  · rw [Snap.u32, ht, Snap.load_store_eq h, hv]
  · have hone : ∀ {r : Snap} (a : Area) (o : Nat) {bs : List UInt8},
        Only (fun a => a.part = 2) s r → a.part = 2 → a.Valid → o + bs.length ≤ a.size →
          Only (fun a => a.part = 2) s (r.store a o bs) :=
      fun a o _ hs ha hvalid hfits => hs.storeIn a ha hvalid o hfits
    have hsizes : Area.mem.size = 48 ∧ Area.load.size = 6 ∧ Area.running.size = 4 ∧
      Area.tasks.size = 4 := ⟨rfl, rfl, rfl, rfl⟩
    have hsix : Only (fun a => a.part = 2) s t₆ := by
      rw [ht₆, ht₅, ht₄, ht₃, ht₂, ht₁]
      exact hone _ 40 (hone _ 32 (hone _ 24 (hone _ 16 (hone _ 8 (hone _ 0 (only_refl _ s) rfl
        trivial (by omega)) rfl trivial (by omega)) rfl trivial (by omega)) rfl trivial
        (by omega)) rfl trivial
        (by omega)) rfl trivial (by omega)
    have hrest : Only (fun a => a.part = 2) s t := by
      rw [ht, ht₁₀, ht₉, ht₈, ht₇]
      exact hone _ 0 (hone _ 0 (hone _ 4 (hone _ 2 (hone _ 0 hsix rfl trivial (by omega)) rfl
        trivial
        (by omega)) rfl trivial (by omega)) rfl trivial (by omega)) rfl trivial (by omega)
    exact hrest

/-- Temperatures, their peak, voltage and clock. -/
structure TempsRead (temps : List Int16) (peak : Int16) (vcore mhz : UInt32) (t : Snap) : Prop where
  temps : Listed .temp .ntemps snTempCap TempAt temps t
  peak : (t.u64 .peak 0).toInt64 = peak.toInt64
  vcore : t.u64 .vcore 0 = vcore.toUInt64
  mhz : t.u64 .mhz 0 = mhz.toUInt64

theorem tempsRead_ofPart (temps : List Int16) (peak : Int16) (vcore mhz : UInt32) :
    OfPart 3 (TempsRead temps peak vcore mhz) := fun s t hcells h => by
  constructor
  · exact Listed.ofPart temp_table (fun _ => rfl) rfl temps s t hcells h.temps
  · rw [Snap.u64_congr (hcells .peak rfl)]
    exact h.peak
  · rw [Snap.u64_congr (hcells .vcore rfl)]
    exact h.vcore
  · rw [Snap.u64_congr (hcells .mhz rfl)]
    exact h.mhz

/-- The fields of `phi-rpc` that `decodeTemps` reads. -/
def readTemps : Reader (List Int16 × Int16 × UInt32 × UInt32) := do
  let temps ← Read.list Read.i16
  let peak ← Read.i16
  let vcore ← Read.u32
  let mhz ← Read.u32
  pure (temps, peak, vcore, mhz)

theorem follows_decodeTemps (s : Snap) :
    Follows 0 0 s decodeTemps readTemps fun x _ t =>
      TempsRead x.1 x.2.1 x.2.2.1 x.2.2.2 t ∧ Only (fun a => a.part = 3) s t := by
  unfold decodeTemps readTemps Read.list
  rw [bind_assoc]
  refine follows_peekU16.bind fun v n t₀ ⟨hn, ht₀⟩ => Follows.move_before ?_
  have hlt : n < 2 ^ 64 := by
    rw [hn]
    exact Nat.lt_trans v.toNat_lt (by decide)
  rw [← hn, ht₀]
  refine (follows_listed temp_table follows_decodeTemp hlt s).bind
    fun temps _ t₁ ⟨hlen, hlist, honly⟩ => ?_
  have hpeak : Follows 0 2 t₁ (peek 0 2) Read.i16 fun x a t =>
      a.length = 2 ∧ x = (UInt16.ofNat (ofLe a)).toInt16 ∧ t = t₁ := by
    rw [i16_eq]
    exact follows_word _
  refine hpeak.bind fun peak b t₂ ⟨hb, hpeak, ht₂⟩ => ?_
  refine Follows.before (follows_put ()) fun _ t₃ ⟨_, ht₃⟩ => ?_
  refine (follows_word _).bind fun vcore c t₄ ⟨hc, hvcore, ht₄⟩ => ?_
  refine Follows.before (follows_put ()) fun _ t₅ ⟨_, ht₅⟩ => ?_
  refine (follows_word _).bind fun mhz e t₆ ⟨he, hmhz, ht₆⟩ => ?_
  refine Follows.moved (n := 10) ((follows_put _).mono fun x _ t ⟨hx, ht⟩ => ?_)
  subst hx
  have hone : ∀ {r : Snap} (a : Area) {bs : List UInt8}, Only (fun a => a.part = 3) s r →
      a.part = 3 → a.Valid → a.size = 8 → bs.length = 8 →
        Only (fun a => a.part = 3) s (r.store a 0 bs) :=
    fun a _ hs ha hvalid hsize hbs => hs.storeIn a ha hvalid 0 (by omega)
  have hfirst : Only (fun a => a.part = 3) s t₁ := honly.mono fun a ha => by
    obtain ⟨i, rfl⟩ | rfl := ha <;> rfl
  have hthird : Only (fun a => a.part = 3) s t₃ := by
    rw [ht₃, ht₂]
    exact hone .peak hfirst rfl trivial rfl (length_leBytes ..)
  have hfifth : Only (fun a => a.part = 3) s t₅ := by
    rw [ht₅, ht₄]
    exact hone .vcore hthird rfl trivial rfl (length_leBytes ..)
  have hlast : Only (fun a => a.part = 3) s t := by
    rw [ht, ht₆]
    exact hone .mhz hfifth rfl trivial rfl (length_leBytes ..)
  have hcells : ∀ a, a ≠ .peak → a ≠ .vcore → a ≠ .mhz → t.cells a = t₁.cells a :=
    fun a hp hv hm => by
      rw [ht, Snap.store_cells_of_ne _ hm, ht₆, ht₅, Snap.store_cells_of_ne _ hv, ht₄, ht₃,
        Snap.store_cells_of_ne _ hp, ht₂]
  have hword : ∀ {bs : List UInt8}, bs.length = 4 →
      ofLe bs < 2 ^ 64 ∧ UInt64.ofNat (ofLe bs) = (UInt32.ofNat (ofLe bs)).toUInt64 :=
    fun {bs} hbs => by
    have hsmall : ofLe bs < 2 ^ 32 := Nat.lt_of_lt_of_eq (ofLe_lt bs) (congrArg (256 ^ ·) hbs)
    refine ⟨Nat.lt_trans hsmall (by decide), UInt64.toNat_inj.mp ?_⟩
    rw [UInt64.toNat_ofNat_of_lt' (Nat.lt_trans hsmall (by decide)), UInt32.toNat_toUInt64,
      UInt32.toNat_ofNat_of_lt' hsmall]
  refine ⟨⟨⟨fun i v hv hi => ?_, ?_⟩, ?_, ?_, ?_⟩, hlast⟩
  · exact temp_table.congr (hlist.entries i v hv hi) (hcells (.temp i) nofun nofun nofun)
  · rw [Snap.u64_congr (hcells .ntemps nofun nofun nofun)]
    exact hlist.count
  · have hsame : t.cells .peak = t₃.cells .peak := by
      rw [ht, Snap.store_cells_of_ne _ (by decide), ht₆, ht₅,
        Snap.store_cells_of_ne _ (by decide), ht₄]
    rw [Snap.u64_congr hsame, ht₃]
    unfold signExtend
    rw [u64_put _ _ (UInt64.toNat_lt _), ← hpeak, UInt64.ofNat_toNat]
    exact Int64.toInt64_toUInt64 _
  · have hsame : t.cells .vcore = t₅.cells .vcore := by
      rw [ht, Snap.store_cells_of_ne _ (by decide), ht₆]
    rw [Snap.u64_congr hsame, ht₅, u64_put _ _ (hword hc).1, hvcore, (hword hc).2]
  · rw [ht, u64_put _ _ (hword he).1, hmhz, (hword he).2]

theorem follows_decodeDevTable {table : Nat → Area} {count : Area} {k : Nat}
    (htable : Table table count (DevAt table)) (hvalid : ∀ i < snDevCap, (table i).Valid)
    (hsize : ∀ i, (table i).size = 80) (hpart : ∀ i, (table i).part = k) (hcount : count.part = k)
    (s : Snap) :
    Follows 0 0 s (decodeDevTable table count) Read.devs fun ds _ t =>
      Listed table count snDevCap (DevAt table) ds t ∧ Only (fun a => a.part = k) s t := by
  unfold decodeDevTable Read.devs Read.list
  refine follows_peekU16.bind fun v n t ⟨hn, ht⟩ => Follows.move_before ?_
  have hlt : n < 2 ^ 64 := by
    rw [hn]
    exact Nat.lt_trans v.toNat_lt (by decide)
  rw [← hn, ht]
  refine (follows_listed htable (follows_decodeDevEntry hvalid hsize) hlt s).mono
    fun ds _ u ⟨_, hlist, honly⟩ => ⟨hlist, honly.mono fun a ha => ?_⟩
  obtain ⟨i, rfl⟩ | rfl := ha
  · exact hpart i
  · exact hcount

/-- The processes listed, and the two totals. -/
structure ProcsRead (procs : List ProcStat) (nprocs nkthreads : UInt32) (t : Snap) : Prop where
  procs : Listed .proc .nlisted snProcCap ProcAt procs t
  nprocs : t.u32 .nprocs 0 = nprocs
  nkthreads : t.u32 .nkthreads 0 = nkthreads

/-- The fields of `phi-rpc` that `decodeProcs` reads. -/
def readProcs : Reader (List ProcStat × UInt32 × UInt32) := do
  let procs ← Read.list Read.proc
  let nprocs ← Read.u32
  let nkthreads ← Read.u32
  pure (procs, nprocs, nkthreads)

theorem follows_decodeProcs (s : Snap) :
    Follows 0 8 s decodeProcs readProcs fun x _ t =>
      ProcsRead x.1 x.2.1 x.2.2 t ∧ Only (fun a => a.part = 6) s t := by
  unfold decodeProcs readProcs Read.list
  rw [bind_assoc]
  refine follows_peekU16.bind fun v n t₀ ⟨hn, ht₀⟩ => Follows.move_before ?_
  have hlt : n < 2 ^ 64 := by
    rw [hn]
    exact Nat.lt_trans v.toNat_lt (by decide)
  rw [← hn, ht₀]
  refine (follows_listed proc_table follows_decodeProcEntry hlt s).bind
    fun procs _ t₁ ⟨_, hlist, honly⟩ => ?_
  refine (follows_copy _).bind fun nprocs _ t₂ ⟨b, hb, hnprocs, ht₂⟩ => ?_
  refine (follows_copy _).map fun nkthreads _ t ⟨c, hc, hnkthreads, ht⟩ => ?_
  have hcells : ∀ a, a ≠ .nprocs → a ≠ .nkthreads → t.cells a = t₁.cells a := fun a hp hk => by
    rw [ht, Snap.store_cells_of_ne _ hk, ht₂, Snap.store_cells_of_ne _ hp]
  have hsizes : Area.nprocs.size = 4 ∧ Area.nkthreads.size = 4 := ⟨rfl, rfl⟩
  have hfirst : Only (fun a => a.part = 6) s t₁ := honly.mono fun a ha => by
    obtain ⟨i, rfl⟩ | rfl := ha <;> rfl
  refine ⟨⟨⟨fun i p hp hi => ?_, ?_⟩, ?_, ?_⟩, ?_⟩
  · exact proc_table.congr (hlist.entries i p hp hi) (hcells (.proc i) nofun nofun)
  · rw [Snap.u64_congr (hcells .nlisted nofun nofun)]
    exact hlist.count
  · have hsame : t.cells .nprocs = t₂.cells .nprocs := by
      rw [ht, Snap.store_cells_of_ne _ (by decide)]
    rw [Snap.u32_congr hsame, Snap.u32, ht₂, Snap.load_store_eq hb, hnprocs]
  · rw [Snap.u32, ht, Snap.load_store_eq hc, hnkthreads]
  · rw [ht, ht₂]
    exact (hfirst.storeIn .nprocs rfl trivial 0 (by omega)).storeIn .nkthreads rfl trivial 0
      (by omega)

/-! ## the whole sample -/

/-- What `phi-rpc` decodes stands in the snapshot: every field, of each list as
much as the table has room for, of each name as much as its field has. -/
structure ReadAs (st : Stat) (t : Snap) : Prop where
  uptime : t.u64 .uptime 0 = st.uptimeMs
  cpus : CpusRead st.cpus t
  mem : MemRead st.mem st.load st.running st.tasks t
  temps : TempsRead st.temps st.tempPeak st.vcoreMv st.coreMhz t
  disks : Listed .disk .ndisks snDevCap (DevAt .disk) st.disks t
  nets : Listed .net .nnets snDevCap (DevAt .net) st.nets t
  procs : ProcsRead st.procs st.nprocs st.nkthreads t

section regrouped

variable {β : Type}

theorem readMem_bind (k : MemStat × (UInt16 × UInt16 × UInt16) × UInt32 × UInt32 → Reader β) :
    readMem >>= k = (do
      let m ← Read.mem
      let l ← Read.load
      let running ← Read.u32
      let tasks ← Read.u32
      k (m, l, running, tasks)) := by
  unfold readMem
  simp only [bind_assoc, pure_bind]

theorem readTemps_bind (k : List Int16 × Int16 × UInt32 × UInt32 → Reader β) :
    readTemps >>= k = (do
      let temps ← Read.list Read.i16
      let peak ← Read.i16
      let vcore ← Read.u32
      let mhz ← Read.u32
      k (temps, peak, vcore, mhz)) := by
  unfold readTemps
  simp only [bind_assoc, pure_bind]

theorem readProcs_bind (k : List ProcStat × UInt32 × UInt32 → Reader β) :
    readProcs >>= k = (do
      let procs ← Read.list Read.proc
      let nprocs ← Read.u32
      let nkthreads ← Read.u32
      k (procs, nprocs, nkthreads)) := by
  unfold readProcs
  simp only [bind_assoc, pure_bind]

end regrouped

theorem stat_eq : Read.stat = (do
    let uptimeMs ← Read.u64
    let cpus ← Read.list Read.cpu
    let m ← readMem
    let h ← readTemps
    let disks ← Read.devs
    let nets ← Read.devs
    let p ← readProcs
    pure { uptimeMs, cpus, mem := m.1, load := m.2.1, running := m.2.2.1, tasks := m.2.2.2,
           temps := h.1, tempPeak := h.2.1, vcoreMv := h.2.2.1, coreMhz := h.2.2.2, disks, nets,
           procs := p.1, nprocs := p.2.1, nkthreads := p.2.2 }) := by
  unfold Read.stat
  refine bind_congr fun uptimeMs => bind_congr fun cpus => ?_
  rw [readMem_bind]
  refine bind_congr fun m => bind_congr fun l => ?_
  refine bind_congr fun running => bind_congr fun tasks => ?_
  rw [readTemps_bind]
  refine bind_congr fun temps => bind_congr fun peak => ?_
  refine bind_congr fun vcore => bind_congr fun mhz => ?_
  refine bind_congr fun disks => bind_congr fun nets => ?_
  rw [readProcs_bind]

theorem follows_snapshotWalk (s : Snap) :
    Follows 0 8 s snapshotWalk Read.stat fun st _ t => ReadAs st t ∧ Only (fun _ => True) s t := by
  rw [stat_eq]
  unfold snapshotWalk
  have hcopy : Follows 0 8 s (copy 0 8 .uptime 0) Read.u64 fun v _ t =>
      ∃ b : List UInt8, b.length = 8 ∧ v = UInt64.ofNat (ofLe b) ∧ t = s.store .uptime 0 b :=
    follows_copy _
  refine hcopy.bind fun uptimeMs _ t₁ ⟨b, hb, huptime, ht₁⟩ => Follows.move_before ?_
  refine (follows_decodeCpus t₁).bind fun cpus _ t₂ ⟨hcpus, h₂⟩ => ?_
  refine (follows_decodeMem t₂).bind fun m _ t₃ ⟨hmem, h₃⟩ => ?_
  refine (follows_decodeTemps t₃).bind fun h _ t₄ ⟨htemps, h₄⟩ => ?_
  refine (follows_decodeDevTable (k := 4) disk_table (fun _ hi => hi) (fun _ => rfl) (fun _ => rfl)
    rfl t₄).bind fun disks _ t₅ ⟨hdisks, h₅⟩ => ?_
  refine (follows_decodeDevTable (k := 5) net_table (fun _ hi => hi) (fun _ => rfl) (fun _ => rfl)
    rfl t₅).bind fun nets _ t₆ ⟨hnets, h₆⟩ => ?_
  refine (follows_decodeProcs t₆).map fun p _ t ⟨hprocs, h₇⟩ => ?_
  have hstart : t₁.u64 .uptime 0 = uptimeMs := by
    rw [Snap.u64, ht₁, Snap.load_store_eq hb, huptime]
  have hfirst : Only (fun a => a.part = 0) s t₁ := by
    rw [ht₁]
    have hrefl : Only (fun a => a.part = 0) s s := only_refl _ s
    exact hrefl.storeIn .uptime rfl trivial 0 (by rw [hb]; decide)
  have hup : OfPart 0 fun t => t.u64 .uptime 0 = uptimeMs := fun _ _ hcells hs =>
    (Snap.u64_congr (hcells .uptime rfl) 0).trans hs
  have hcpuPart := cpusRead_ofPart cpus
  have hmemPart := memRead_ofPart m.1 m.2.1 m.2.2.1 m.2.2.2
  have htempPart := tempsRead_ofPart h.1 h.2.1 h.2.2.1 h.2.2.2
  have hdiskPart : OfPart 4 (Listed .disk .ndisks snDevCap (DevAt .disk) disks) :=
    Listed.ofPart disk_table (fun _ => rfl) rfl disks
  have hnetPart : OfPart 5 (Listed .net .nnets snDevCap (DevAt .net) nets) :=
    Listed.ofPart net_table (fun _ => rfl) rfl nets
  constructor
  · exact {
      uptime := hup.keep h₇ (by decide) <| hup.keep h₆ (by decide) <| hup.keep h₅ (by decide) <|
        hup.keep h₄ (by decide) <| hup.keep h₃ (by decide) <| hup.keep h₂ (by decide) hstart
      cpus := hcpuPart.keep h₇ (by decide) <| hcpuPart.keep h₆ (by decide) <|
        hcpuPart.keep h₅ (by decide) <| hcpuPart.keep h₄ (by decide) <|
        hcpuPart.keep h₃ (by decide) hcpus
      mem := hmemPart.keep h₇ (by decide) <| hmemPart.keep h₆ (by decide) <|
        hmemPart.keep h₅ (by decide) <| hmemPart.keep h₄ (by decide) hmem
      temps := htempPart.keep h₇ (by decide) <| htempPart.keep h₆ (by decide) <|
        htempPart.keep h₅ (by decide) htemps
      disks := hdiskPart.keep h₇ (by decide) <| hdiskPart.keep h₆ (by decide) hdisks
      nets := hnetPart.keep h₇ (by decide) hnets
      procs := hprocs }
  · have hall : ∀ {k : Nat} {u v : Snap}, Only (fun a => a.part = k) u v →
        Only (fun _ => True) u v := fun h => h.mono fun _ _ => trivial
    exact (hall hfirst).trans <| (hall h₂).trans <| (hall h₃).trans <| (hall h₄).trans <|
      (hall h₅).trans <| (hall h₆).trans (hall h₇)

/-! ## the snapshot's layout -/

/-- `SN_VPU`: what lies behind the tables. -/
def snVpu : Nat := Area.base (.proc snProcCap)

theorem Area.inside {a : Area} (h : a.Valid) : a.base + a.size ≤ snVpu := by
  cases a <;> simp only [Valid, base, size, snVpu, snTempCap, snCpuCap, snDevCap, snProcCap]
    at h ⊢ <;> omega

/-- No two areas share a byte. -/
theorem Area.apart {a b : Area} (ha : a.Valid) (hb : b.Valid) (hne : a ≠ b) :
    a.base + a.size ≤ b.base ∨ b.base + b.size ≤ a.base := by
  cases a <;> cases b <;>
    simp only [Valid, base, size, snTempCap, snCpuCap, snDevCap, snProcCap, ne_eq, reduceCtorEq,
      not_false_eq_true, not_true_eq_false, Area.temp.injEq, Area.cpu.injEq, Area.disk.injEq,
      Area.net.injEq, Area.proc.injEq] at ha hb hne ⊢ <;> omega

/-- What the daemon's validator passes is what `phi-rpc` reads. -/
theorem read_of_validate {body : List UInt8}
    (h : validate (Tag.toByte .statReply) body = 0) :
    ∃ st left, Read.stat body = some (st, left) ∧
      decodeBody (Tag.toByte .statReply) body = .ok (.statReply st) := by
  obtain ⟨y, hy⟩ := fields_of_validate h
  have hfields : Read.fields .statReply body
      = (Read.stat body).bind fun x => some (.statReply x.1, x.2) := rfl
  rw [hfields] at hy
  obtain ⟨x, hx, -⟩ := Option.bind_eq_some_iff.mp hy
  refine ⟨x.1, x.2, hx, ?_⟩
  unfold decodeBody
  rw [Tag.ofByte_toByte]
  dsimp only
  rw [hfields, hx]
  rfl

/-- **phitop reads a sample as `phi-rpc` does.** -/
theorem snapshot_decode_right {body : List UInt8}
    (h : validate (Tag.toByte .statReply) body = 0) (m : Nat → UInt8) (p : Nat)
    (hm : Circular.read m p body.length = body) (s : Snap) :
    ∃ st c t, decodeBody (Tag.toByte .statReply) body = .ok (.statReply st) ∧
      snapshotWalk m ⟨p, p⟩ s = ((), c, t) ∧ ReadAs st t ∧ c.high ≤ p + body.length ∧
      ∃ more, t.wrote = s.wrote ++ more ∧
        ∀ w ∈ more, w.1.Valid ∧ w.2.1 + w.2.2 ≤ w.1.size ∧ w.1.base + w.1.size ≤ snVpu ∧
          ∀ b : Area, b.Valid → b ≠ w.1 →
            w.1.base + w.1.size ≤ b.base ∨ b.base + b.size ≤ w.1.base := by
  obtain ⟨st, left, hread, hdecode⟩ := read_of_validate h
  obtain ⟨⟨⟩, c, t, hwalk, ⟨has, honly⟩, -, -, hhigh⟩ :=
    follows_snapshotWalk s m ⟨p, p⟩ body left st hread hm (Nat.le_add_right p body.length)
  obtain ⟨more, hmore, hin⟩ := honly.wrote
  refine ⟨st, c, t, hdecode, hwalk, has, hhigh, more, hmore, fun w hw => ?_⟩
  obtain ⟨-, hvalid, hfits⟩ := hin w hw
  exact ⟨hvalid, hfits, Area.inside hvalid, fun b hb hne => Area.apart hvalid hb hne.symm⟩

/-- A sample with one temperature and one disk. -/
def diskSample : List UInt8 :=
  List.replicate 8 5 ++ [0, 0] ++ List.replicate 62 7 ++ [1, 0, 45, 0] ++ List.replicate 10 1 ++
    [1, 0, 3, 0, 109, 109, 99] ++ List.replicate 16 9 ++ [0, 0] ++ [0, 0] ++ List.replicate 8 2

theorem snapshot_decode_right_disk :
    ∃ st c t, decodeBody (Tag.toByte .statReply) diskSample = .ok (.statReply st) ∧
      snapshotWalk (fun i => diskSample.getD i 0) ⟨0, 0⟩ ⟨fun _ _ => 0, []⟩ = ((), c, t) ∧
      ReadAs st t ∧ c.high ≤ 0 + diskSample.length := by
  obtain ⟨st, c, t, hdecode, hwalk, has, hhigh, -⟩ :=
    snapshot_decode_right
      (show validate (Tag.toByte .statReply) diskSample = 0 by decide +kernel)
      (fun i => diskSample.getD i 0) 0 (by decide +kernel) _
  exact ⟨st, c, t, hdecode, hwalk, has, hhigh⟩

end Phi.Top
