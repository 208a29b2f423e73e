import Phi.Top.Cores
import Phi.Top.Derive
import Phi.Top.Frame
import Phi.Top.Pieces
import Phi.Top.Procs
import Phi.Top.Reply

/-!
# Phi.Top.Lines

The lines of the one-card frame (`render` of `view.S`).

A line is put together without a look at the room left in `line_buf`.  Three
kinds of lines carry text from outside: the first one the error, the devices'
line their names, a process's row its state and its name.
-/

namespace Phi.Top

open Rpc Terminal Utf8

def labelWidth : Nat := 7

/-- What a frame is drawn from: the sample, what was derived from it, and the
switches. -/
structure View extends ProcView where
  color : Bool
  error : Option (List UInt8)
  uptimeMs : UInt64
  load : UInt16 × UInt16 × UInt16
  running : UInt32
  nprocs : UInt32
  nkthreads : UInt32
  ncpuSent : UInt64
  mem : MemStat
  temps : List Int16
  tempPeak : Int16
  vcoreMv : UInt32
  coreMhz : UInt32
  numbers : Numbers
  table : CoreTable
  vpu : Option VpuRates
  errorShort : ∀ e ∈ error, e.length ≤ 400
  ndisks : numbers.disks.length ≤ snDevCap
  nnets : numbers.nets.length ≤ snDevCap
  names : ∀ r ∈ numbers.disks ++ numbers.nets, r.name.length < devNameCap
  ncores : table.ncores ≤ coreCap
  maxThreads : table.maxThreads ≤ coreThreads

/-- The devices of a derived sample are those it was derived from. -/
theorem devices_derived {prev cur : Snapshot} {n : Numbers} (h : deriveNumbers prev cur = .ok n) :
    n.disks.length ≤ snDevCap ∧ n.nets.length ≤ snDevCap ∧
      ∀ r ∈ n.disks ++ n.nets, r.name.length < devNameCap := by
  obtain ⟨l, -, hn⟩ := deriveNumbers_eq prev cur
  rw [hn] at h
  cases h
  refine ⟨by simpa using cur.ndisks, by simpa using cur.nnets, fun r hr => ?_⟩
  rcases List.mem_append.1 hr with hr | hr
  · obtain ⟨d, -, rfl⟩ := List.mem_map.1 hr
    exact d.fits
  · obtain ⟨d, -, rfl⟩ := List.mem_map.1 hr
    exact d.fits

namespace View

/-- The view of a sample that was polled and derived. -/
def ofSample (s : Stat) (t : Traffic) (atUs : UInt64) (line : Option VpuStats) (prev : Snapshot)
    (numbers : Numbers) (h : deriveNumbers prev (snapshotDecode atUs s t line) = .ok numbers)
    (shares : List UInt32) (vpu : Option VpuRates) (old : Nat → Core) (error : Option (List UInt8))
    (color showKthreads sortMem : Bool) : View where
  procs := s.procs.take snProcCap
  procCpu := fun i => (shares[i]?).getD 0
  showKthreads := showKthreads
  sortMem := sortMem
  nlisted := List.length_take_le _ _
  color := color
  error := error.map (·.take 400)
  uptimeMs := s.uptimeMs
  load := s.load
  running := s.running
  nprocs := s.nprocs
  nkthreads := s.nkthreads
  ncpuSent := UInt64.ofNat s.cpus.length
  mem := s.mem
  temps := s.temps.take snTempCap
  tempPeak := s.tempPeak
  vcoreMv := s.vcoreMv
  coreMhz := s.coreMhz
  numbers := numbers
  table := deriveCores (snapshotDecode atUs s t line) old
  vpu := vpu
  errorShort := by
    intro e he
    obtain ⟨e', -, rfl⟩ := Option.map_eq_some_iff.1 he
    exact List.length_take_le _ _
  ndisks := (devices_derived h).1
  nnets := (devices_derived h).2.1
  names := (devices_derived h).2.2
  ncores := (deriveCores_le _ old).1
  maxThreads := (deriveCores_le _ old).2

variable (v : View)

/-! ## the sample -/

/-- `status_interval2`. -/
def status : List UInt8 :=
  match v.error with
  | some e => (if v.color then wFg 196 else []) ++ wCstr e
  | none => wFixedR v.numbers.intervalUs 1000000 2 ++ bytes " s"

/-- Line 1. -/
def headLine : List UInt8 :=
  [bytes "phitop  Phi 3120A  up ", wHms v.uptimeMs, bytes "  load ", wLoad v.load.1, [32],
    wLoad v.load.2.1, [32], wLoad v.load.2.2, bytes "  ", wDec v.running.toUInt64,
    bytes " running of ", wDec v.nprocs.toUInt64, bytes " procs  ", wDec v.ncpuSent,
    bytes " threads ", wTenths ((v.numbers.loads.mean + 5) / 10), bytes "% busy  "].flatten ++
    v.status

/-- A die temperature, below zero where the sample has none. -/
def dieTemp (i : Nat) : Int16 := (v.temps[i]?).getD (-1)

def highest : Int16 :=
  ((List.range 9).map v.dieTemp).foldl (fun top t => if t ≤ top then top else t) (-1)

/-- `board_names`. -/
def boardNames : List String := ["inlet", "vccp", "gddr", "gddr vr", "vddg", "tmu"]

/-- The board sensors that read above zero; `any` is `r13d`. -/
def boardTemps (any : Bool) : List (String × Int16) → List UInt8
  | [] => if any then [] else bytes "board sensors: n/a (SMC)"
  | (name, t) :: rest =>
      if 0 < t then
        (if any then bytes "  " else []) ++ bytes name ++ [32] ++ wDec t.toInt64.toUInt64 ++
          boardTemps true rest
      else boardTemps any rest

/-- `temps_line`. -/
def tempsLine : List UInt8 :=
  bytes "die   " ++ ((List.range 9).flatMap fun i =>
      (if i = 0 then [] else [32]) ++ wTemp (v.dieTemp i)) ++
    [bytes " C   now ", wTemp v.highest, bytes " C  peak ", wTemp v.tempPeak, bytes " C   core ",
      wDec v.coreMhz.toUInt64, bytes " MHz ", wDec v.vcoreMv.toUInt64, bytes " mV   "].flatten ++
    boardTemps false (boardNames.zip (v.temps.drop 9))

/-- `a` less `b`, at least 0. -/
def less (a b : UInt64) : UInt64 := if a < b then 0 else a - b

/-- Line 3; `none` where a bar divides by zero. -/
def memLine : Option (List UInt8) := do
  let used := less v.mem.totalKb v.mem.availKb
  let swapped := less v.mem.swapTotalKb v.mem.swapFreeKb
  let bar ← wBar used v.mem.totalKb 20
  let swapBar ← wBar swapped v.mem.swapTotalKb 10
  return [bytes "mem   ", bar, [32], wMib used, bytes " / ", wMib v.mem.totalKb,
    bytes "  (cache ", wMib (v.mem.buffersKb + v.mem.cachedKb), bytes ")   swap on host RAM ",
    swapBar, [32], wMib swapped, bytes " / ", wMib v.mem.swapTotalKb].flatten

/-- Line 4. -/
def pcieLine : List UInt8 :=
  [bytes "pcie  to card ", wRate (v.numbers.dmaTo + v.numbers.aperTo), bytes " (dma ",
    wRate v.numbers.dmaTo, bytes ", aperture ", wRate v.numbers.aperTo, bytes ")   from card ",
    wRate (v.numbers.dmaFrom + v.numbers.aperFrom), bytes " (dma ", wRate v.numbers.dmaFrom,
    bytes ", aperture ", wRate v.numbers.aperFrom, [41]].flatten

/-- Line 5. -/
def vpuLine : List UInt8 :=
  match v.vpu with
  | none => [bytes "vpu   ", bytes
      "no worker stats line in the card's window (no worker, or one from before the line)"].flatten
  | some u => [bytes "vpu   ", wTenths u.reqTenths, bytes " requests/s, busy ",
      wTenths u.busyTenths, bytes "%   a request: pull ", wVpuMs u.pullNs, bytes ", compute ",
      wVpuMs u.computeNs, bytes ", push ", wVpuMs u.pushNs, bytes ", total ", wVpuMs u.totalNs,
      bytes " ms   last ", wVpuKind u.kernel.toUInt64, bytes " on ", wDec u.threads.toUInt64,
      bytes " threads   ", wDec u.requests, bytes " requests, ", wDec u.errors,
      bytes " errors since the worker started"].flatten

/-- `rates_line`, one device. -/
def rateText (a b : String) (r : Rate) : List UInt8 :=
  32 :: (wCstr r.name ++ 32 :: (bytes a ++ [32] ++ wRate r.a ++ [32] ++ bytes b ++ [32] ++
    wRate r.b ++ bytes "  "))

/-- `rates_line`. -/
def ratesLine (label : String) (rates : List Rate) (a b : String) : List UInt8 :=
  wLeft (bytes label) 5 ++ 32 :: rates.flatMap (rateText a b)

/-- Line 6. -/
def devicesLine : List UInt8 :=
  ratesLine "card" v.numbers.disks "read" "write" ++ ratesLine "" v.numbers.nets "rx" "tx"

/-! ## the grid -/

/-- `v_cw`: cells are two wide where the ruler fits. -/
def cellWidth (cols : Nat) : Nat := if 2 * v.table.ncores + labelWidth ≤ cols then 2 else 1

/-- The digits of a number, put into the ruler from `pos` on while they fit. -/
def place (ruler : List UInt8) (pos : Nat) : List UInt8 → List UInt8
  | [] => ruler
  | d :: ds => if ruler.length ≤ pos then ruler else place (ruler.set pos d) (pos + 1) ds

/-- The loop over every fifth (tenth) core from `c` on, at most `k` of them. -/
def marks (n cw step : Nat) : Nat → Nat → List UInt8 → List UInt8
  | 0, _, ruler => ruler
  | k + 1, c, ruler =>
      if n ≤ c then ruler
      else marks n cw step k (c + step) (place ruler (c * cw) (wDec (UInt64.ofNat c)))

def ruler (cw : Nat) : List UInt8 :=
  let n := v.table.ncores
  marks n cw (if cw = 2 then 5 else 10) n 0 (wPad (n * cw) 32)

def rulerLine (cw : Nat) : List UInt8 := wLeft (bytes "core") labelWidth ++ v.ruler cw

/-- `cell`, and the cells behind it; `last` is `v_last_color`. -/
def cells (cw : Nat) (last : UInt64) : List UInt64 → List UInt8
  | [] => []
  | l :: ls =>
      (if v.color ∧ colorOf l ≠ last then wFg (colorOf l) else []) ++ wLevel l ++
        (if cw = 2 then [32] else []) ++ cells cw (if v.color then colorOf l else last) ls

/-- The load of a CPU. -/
def cpuLoad (cpu : UInt16) : UInt64 := ((v.numbers.loads.cpuLoad[cpu.toNat]?).getD 0).toUInt64

/-- The load of a core's thread. -/
def threadLoad (t : Nat) (c : Core) : UInt64 :=
  if c.n.toNat ≤ t then 0 else v.cpuLoad (c.cpu t)

/-- `core_load`. -/
def coreLoad (c : Core) : UInt64 :=
  if c.n = 0 then 0
  else ((List.range c.n.toNat).map fun t => v.cpuLoad (c.cpu t)).sum / c.n.toUInt64

def cores : List Core := (List.range v.table.ncores).map v.table.cores

def threadLine (cw t : Nat) : List UInt8 :=
  wLeft (116 :: wDec (UInt64.ofNat t)) labelWidth ++ v.cells cw 0 (v.cores.map (v.threadLoad t))

def meanLine (cw : Nat) : List UInt8 :=
  wLeft (bytes "mean") labelWidth ++ v.cells cw 0 (v.cores.map v.coreLoad)

/-- `grid`: the ruler, a row for each hardware thread, the means. -/
def gridLines (cw : Nat) : List (List UInt8) :=
  v.rulerLine cw :: (List.range v.table.maxThreads).map (v.threadLine cw) ++ [v.meanLine cw]

/-! ## the processes -/

/-- A process's name as it was kept. -/
def comm (p : ProcStat) : List UInt8 := (bytes p.comm).take (prCommCap - 1)

/-- `proc_row`. -/
def procText (p : ProcStat) (cpu : UInt32) : List UInt8 :=
  [if p.kthread ∧ v.color then wFg 245 else [], tmpRight (wDec p.pid.toUInt64) 7, [32]].flatten ++
    ([p.state] ++ 32 :: ([tmpRight (wTenths cpu.toUInt64) 7, [32], tmpRight (wMib p.rssKb) 9, [32],
        tmpRight (wDec p.threads.toUInt64) 4, bytes "  ", if p.kthread then [91] else []].flatten ++
      (comm p ++ if p.kthread then [93] else [])))

def procRow (i : Nat) : List UInt8 :=
  match v.procs[i]? with
  | some p => v.procText p (v.procCpu i)
  | none => []

/-- `proc_header`. -/
def procHeader (full : Bool) : List UInt8 :=
  bytes "    PID S    CPU%       RSS  THR  COMMAND" ++
    if full then
      [bytes "   (", wDec v.nkthreads.toUInt64, bytes " kernel threads, ",
        bytes (if v.showKthreads then "the" else "none"), bytes " active shown)"].flatten
    else []

/-- The footer. -/
def footLine : List UInt8 :=
  [bytes "q quit   c/m sort by cpu/mem (", bytes (if v.sortMem then "mem" else "cpu"),
    bytes ")   k kernel threads (",
    bytes (if v.showKthreads then "shown when active" else "hidden"),
    bytes ")   +/- interval"].flatten

/-! ## what they show -/

/-- The texts from outside on the first line. -/
def errorTexts : List (List UInt8) := (v.error.map wCstr).toList

def deviceTexts : List (List UInt8) :=
  (v.numbers.disks ++ v.numbers.nets).map fun r => wCstr r.name

def procTexts (p : ProcStat) : List (List UInt8) := [[p.state], comm p]

theorem shows_status : Shows 411 v.errorTexts v.status := by
  unfold status errorTexts
  cases herror : v.error with
  | none =>
      have hunit : Shows 2 [] (bytes " s") := shows_of_quiet (by decide) (by decide)
      exact (Shows.append (shows_wFixed _ _ (by decide)) hunit).mono (by decide)
  | some e =>
      have hshort : (wCstr e).length ≤ 400 :=
        Nat.le_trans (length_wCstr_le e) (v.errorShort e herror)
      refine Shows.append (m := 11) (n := 400) ?_ (shows_text hshort)
      split
      · exact shows_wFg (by decide)
      · exact shows_of_quiet (Nat.zero_le _) quiet_nil

theorem shows_headLine : Shows lineCap v.errorTexts v.headLine := by
  unfold headLine
  refine (Shows.append (m := 4608) (shows_flatten (by simp) ?_) v.shows_status).mono (by decide)
  simp
  decide

/-- A line of pieces. -/
theorem shows_pieces {ps : List (List UInt8)} (hlen : ps.length ≤ 64) (h : ∀ p ∈ ps, Brief p) :
    Shows lineCap [] ps.flatten :=
  shows_flatten (Nat.mul_le_mul_right 256 hlen) h

theorem shows_boardTemps (any : Bool) {ts : List (String × Int16)}
    (hts : ∀ t ∈ ts, Brief (bytes t.1)) : Shows (ts.length * 279 + 24) [] (boardTemps any ts) := by
  induction ts generalizing any with
  | nil => cases any <;> exact shows_of_quiet (by decide) (by decide)
  | cons t ts ih =>
      obtain ⟨ht, hrest⟩ := List.forall_mem_cons.1 hts
      rw [boardTemps, List.length_cons, Nat.succ_mul]
      split
      · have hsep : Shows 2 [] (if any then bytes "  " else []) := by
          cases any <;> exact shows_of_quiet (by decide) (by decide)
        have hname : Shows (2 + 256 + 1 + 20) []
            ((if any then bytes "  " else []) ++ bytes t.1 ++ [32] ++ wDec t.2.toInt64.toUInt64) :=
          .append (.append (.append hsep ht) (shows_byte (by decide))) (shows_wDec _)
        exact (hname.append (ih true hrest)).mono (by omega)
      · exact (ih any hrest).mono (by omega)

theorem shows_tempsLine : Shows lineCap [] v.tempsLine := by
  have hnames : ∀ name ∈ boardNames, Brief (bytes name) := by decide
  have hdie : ∀ i ∈ List.range 9,
      Shows 257 [] ((if i = 0 then [] else [32]) ++ wTemp (v.dieTemp i)) := by
    intro i _
    refine .append (m := 1) ?_ (brief_wTemp _)
    split
    · exact shows_of_quiet (Nat.zero_le _) quiet_nil
    · exact shows_byte (by decide)
  have hboard : ∀ t ∈ boardNames.zip (v.temps.drop 9), Brief (bytes t.1) :=
    fun t ht => hnames t.1 (List.of_mem_zip ht).1
  have hlen : (boardNames.zip (v.temps.drop 9)).length ≤ 6 := by
    rw [List.length_zip]
    exact Nat.min_le_left _ _
  have hdies := shows_flatMap hdie
  have hlabel : Shows 6 [] (bytes "die   ") := shows_of_quiet (by decide) (by decide)
  have hmid : Shows 2304 [] [bytes " C   now ", wTemp v.highest, bytes " C  peak ",
      wTemp v.tempPeak, bytes " C   core ", wDec v.coreMhz.toUInt64, bytes " MHz ",
      wDec v.vcoreMv.toUInt64, bytes " mV   "].flatten :=
    shows_flatten (by simp) (by simp; decide)
  have hline := ((hlabel.append hdies).append hmid).append (shows_boardTemps false hboard)
  refine hline.mono ?_
  simp only [List.length_range, lineCap]
  omega

theorem shows_memLine {line : List UInt8} (h : v.memLine = some line) : Shows lineCap [] line := by
  simp only [memLine, Option.bind_eq_bind, Option.bind_eq_some_iff, pure] at h
  obtain ⟨bar, hbar, swapBar, hswap, hline⟩ := h
  have hb : Brief bar := (shows_wBar hbar).mono (by decide)
  have hs : Brief swapBar := (shows_wBar hswap).mono (by decide)
  rw [← Option.some.inj hline]
  exact shows_pieces (by simp) (by simp [hb, hs]; decide)

theorem shows_pcieLine : Shows lineCap [] v.pcieLine := by
  unfold pcieLine
  exact shows_pieces (by simp) (by simp; decide)

theorem shows_vpuLine : Shows lineCap [] v.vpuLine := by
  unfold vpuLine
  split
  · exact shows_pieces (by simp) (by decide)
  · exact shows_pieces (by simp) (by simp; decide)

theorem shows_procHeader (full : Bool) : Shows lineCap [] (v.procHeader full) := by
  have hword : Brief (bytes (if v.showKthreads then "the" else "none")) := by
    cases v.showKthreads <;> decide
  have hhead : Shows 256 [] (bytes "    PID S    CPU%       RSS  THR  COMMAND") :=
    shows_of_quiet (by decide) (by decide)
  refine (hhead.append (n := 1280) ?_).mono (by decide)
  cases full with
  | false => exact shows_of_quiet (Nat.zero_le _) quiet_nil
  | true =>
      rw [if_pos rfl]
      refine shows_flatten (by simp) ?_
      simp [hword]
      decide

theorem shows_footLine : Shows lineCap [] v.footLine := by
  unfold footLine
  refine shows_pieces (by simp) ?_
  cases v.sortMem <;> cases v.showKthreads <;> decide

theorem space_isStop : isStop 32 = true ∧ (32 : UInt8) ≠ newline := by decide

theorem shows_rateText {a b : String} (ha : Shows 5 [] (bytes a)) (hb : Shows 5 [] (bytes b))
    {r : Rate} (hname : r.name.length < devNameCap) :
    Shows 168 [wCstr r.name] (rateText a b r) := by
  have hspace : Shows 1 [] [32] := shows_byte (by decide)
  have hend : Shows 2 [] (bytes "  ") := shows_of_quiet (by decide) (by decide)
  have hshort : (wCstr r.name).length ≤ 59 :=
    Nat.le_trans (length_wCstr_le _) (Nat.le_of_lt_succ hname)
  have hrates : Shows 107 [] (bytes a ++ [32] ++ wRate r.a ++ [32] ++ bytes b ++ [32] ++
      wRate r.b ++ bytes "  ") :=
    .append (.append (.append (.append (.append (.append (.append ha hspace) (shows_wRate _))
      hspace) hb) hspace) (shows_wRate _)) hend
  exact hspace.append ((shows_text hshort).append_stop (hspace.append hrates) space_isStop)

theorem shows_ratesLine (label a b : String) (hlabel : Shows 5 [] (bytes label))
    (ha : Shows 5 [] (bytes a)) (hb : Shows 5 [] (bytes b)) {rates : List Rate}
    (hlen : rates.length ≤ snDevCap) (hnames : ∀ r ∈ rates, r.name.length < devNameCap) :
    Shows 2700 (rates.map fun r => wCstr r.name) (ratesLine label rates a b) := by
  have hentries := shows_entries (fun r hr => shows_rateText ha hb (hnames r hr)) space_isStop
  have hline := (shows_wLeft hlabel 5).append ((shows_byte (b := 32) (by decide)).append hentries)
  refine hline.mono ?_
  have hcap : rates.length ≤ 16 := hlen
  omega

theorem shows_devicesLine : Shows lineCap v.deviceTexts v.devicesLine := by
  have hword {s : String} (h : (bytes s).length ≤ 5 ∧ Quiet (bytes s)) : Shows 5 [] (bytes s) :=
    shows_of_quiet h.1 h.2
  obtain ⟨hdisks, hnets⟩ := List.forall_mem_append.1 v.names
  have hd := shows_ratesLine "card" "read" "write" (hword (by decide)) (hword (by decide))
    (hword (by decide)) v.ndisks hdisks
  have hn := shows_ratesLine "" "rx" "tx" (hword (by decide)) (hword (by decide))
    (hword (by decide)) v.nnets hnets
  have hboth := hd.append_stop hn space_isStop
  rw [deviceTexts, List.map_append]
  exact hboth.mono (by decide)

/-! ### the grid -/

theorem place_spec {ruler : List UInt8} (hruler : ∀ b ∈ ruler, 32 ≤ b) (pos : Nat)
    {ds : List UInt8} (hds : ∀ d ∈ ds, 32 ≤ d) :
    (place ruler pos ds).length = ruler.length ∧ ∀ b ∈ place ruler pos ds, 32 ≤ b := by
  induction ds generalizing ruler pos with
  | nil => exact ⟨rfl, hruler⟩
  | cons d ds ih =>
      obtain ⟨hd, hrest⟩ := List.forall_mem_cons.1 hds
      rw [place]
      split
      · exact ⟨rfl, hruler⟩
      · have hset : ∀ b ∈ ruler.set pos d, 32 ≤ b := fun b hb => by
          rcases List.mem_or_eq_of_mem_set hb with hb | rfl
          · exact hruler b hb
          · exact hd
        obtain ⟨hlen, hall⟩ := ih hset (pos + 1) hrest
        exact ⟨by rw [hlen, List.length_set], hall⟩

theorem marks_spec (n cw step k c : Nat) {ruler : List UInt8} (hruler : ∀ b ∈ ruler, 32 ≤ b) :
    (marks n cw step k c ruler).length = ruler.length ∧
      ∀ b ∈ marks n cw step k c ruler, 32 ≤ b := by
  induction k generalizing c ruler with
  | zero => exact ⟨rfl, hruler⟩
  | succ k ih =>
      rw [marks]
      split
      · exact ⟨rfl, hruler⟩
      · have hdigits : ∀ d ∈ wDec (UInt64.ofNat c), 32 ≤ d := fun d hd => by
          rw [wDec_eq] at hd
          exact le_of_isDigit (Decimal.isDigit_decimal hd)
        obtain ⟨hlen, hall⟩ := place_spec hruler (c * cw) hdigits
        obtain ⟨hlen', hall'⟩ := ih (c + step) hall
        exact ⟨by rw [hlen', hlen], hall'⟩

/-- The numbers leave the ruler as long as it was, and printable. -/
theorem ruler_spec (cw : Nat) : (v.ruler cw).length = v.table.ncores * cw ∧
    ∀ b ∈ v.ruler cw, 32 ≤ b := by
  have hblank : ∀ b ∈ wPad (v.table.ncores * cw) 32, 32 ≤ b := fun b hb =>
    (List.eq_of_mem_replicate hb).symm ▸ by decide
  obtain ⟨hlen, hall⟩ := marks_spec v.table.ncores cw (if cw = 2 then 5 else 10) v.table.ncores 0
    hblank
  exact ⟨by rw [ruler, hlen, wPad, List.length_replicate], hall⟩

theorem shows_rulerLine (cw : Nat) :
    Shows (11 + v.table.ncores * cw) [] (v.rulerLine cw) := by
  have hlabel : Shows 4 [] (bytes "core") := shows_of_quiet (by decide) (by decide)
  obtain ⟨hlen, hall⟩ := v.ruler_spec cw
  exact (shows_wLeft hlabel labelWidth).append
    (shows_of_quiet (Nat.le_of_eq hlen) (quiet_of_le hall))

theorem shows_cells (cw : Nat) (last : UInt64) (ls : List UInt64) :
    Shows (ls.length * 15) [] (v.cells cw last ls) := by
  induction ls generalizing last with
  | nil => exact shows_of_quiet (Nat.zero_le _) quiet_nil
  | cons l ls ih =>
      have hfg : Shows 11 [] (if v.color ∧ colorOf l ≠ last then wFg (colorOf l) else []) := by
        split
        · exact shows_wFg (colorOf_lt l)
        · exact shows_of_quiet (Nat.zero_le _) quiet_nil
      have hgap : Shows 1 [] (if cw = 2 then [32] else []) := by
        split <;> exact shows_of_quiet (by decide) (by decide)
      rw [cells, List.length_cons, Nat.succ_mul, Nat.add_comm]
      exact .append (.append (.append hfg (shows_wLevel l)) hgap) (ih _)

theorem length_cores : v.cores.length = v.table.ncores := by
  simp [cores]

/-- The label and the cells of every core fit `line_buf`, though not by much. -/
theorem shows_row {n : Nat} (hn : n ≤ 1000) {label : List UInt8} (hlabel : Shows n [] label)
    (cw : Nat) (w : Core → UInt64) : Shows lineCap [] (label ++ v.cells cw 0 (v.cores.map w)) := by
  have hcells := v.shows_cells cw 0 (v.cores.map w)
  rw [List.length_map, v.length_cores] at hcells
  have hcap : v.table.ncores ≤ 1024 := v.ncores
  refine (hlabel.append hcells).mono ?_
  show n + v.table.ncores * 15 ≤ 16384
  omega

theorem shows_gridLines {cw : Nat} (hcw : cw ≤ 2) : ∀ l ∈ v.gridLines cw, Shows lineCap [] l := by
  have hcap : v.table.ncores ≤ 1024 := v.ncores
  have hruler : Shows lineCap [] (v.rulerLine cw) := by
    refine (v.shows_rulerLine cw).mono ?_
    have hcells := Nat.mul_le_mul hcap hcw
    show 11 + v.table.ncores * cw ≤ 16384
    omega
  have hthread (t : Nat) : Shows lineCap [] (v.threadLine cw t) := by
    have hlabel : Shows 21 [] (116 :: wDec (UInt64.ofNat t)) :=
      (shows_byte (b := 116) (by decide)).append (shows_wDec _)
    exact v.shows_row (by decide) (shows_wLeft hlabel labelWidth) cw _
  have hmean : Shows lineCap [] (v.meanLine cw) := by
    have hlabel : Shows 4 [] (bytes "mean") := shows_of_quiet (by decide) (by decide)
    exact v.shows_row (by decide) (shows_wLeft hlabel labelWidth) cw _
  intro l hl
  simp only [gridLines, List.cons_append, List.mem_cons, List.mem_append, List.mem_map,
    List.not_mem_nil, or_false] at hl
  rcases hl with rfl | ⟨t, -, rfl⟩ | rfl
  · exact hruler
  · exact hthread t
  · exact hmean

/-- Narrow cells are the wide ones without their gaps. -/
theorem cells_sublist (last : UInt64) (ls : List UInt64) :
    (v.cells 1 last ls).Sublist (v.cells 2 last ls) := by
  induction ls generalizing last with
  | nil => exact List.Sublist.refl []
  | cons l ls ih =>
      rw [cells, cells]
      exact (List.Sublist.append_left (List.nil_sublist _) _).append (ih _)

/-- The ruler has no escape sequence. -/
theorem rulerLine_spec (cw : Nat) :
    (v.rulerLine cw).length = 7 + v.table.ncores * cw ∧ esc ∉ v.rulerLine cw := by
  obtain ⟨hlen, hall⟩ := v.ruler_spec cw
  have hlabel : (wLeft (bytes "core") labelWidth).length = 7 ∧
      esc ∉ wLeft (bytes "core") labelWidth := by decide
  constructor
  · rw [rulerLine, List.length_append, hlabel.1, hlen]
  · rw [rulerLine, List.mem_append, not_or]
    exact ⟨hlabel.2, fun h => absurd (hall _ h) (by decide)⟩

/-! ### the processes -/

theorem length_comm_le (p : ProcStat) : (comm p).length ≤ 63 := List.length_take_le _ _

/-- The name, in brackets for a kernel thread. -/
theorem shows_comm (p : ProcStat) :
    Shows 64 [comm p] (comm p ++ if p.kthread then [93] else []) := by
  have hcomm : Shows 63 [comm p] (comm p) := shows_text (length_comm_le p)
  split
  · exact hcomm.append_stop (shows_byte (b := 93) (by decide)) (by decide)
  · rw [List.append_nil]
    exact hcomm.mono (by decide)

theorem shows_procText (p : ProcStat) (cpu : UInt32) :
    Shows lineCap (procTexts p) (v.procText p cpu) := by
  have hfg : Brief (if p.kthread ∧ v.color then wFg 245 else []) := by
    split <;> decide
  have hpid : Brief (tmpRight (wDec p.pid.toUInt64) 7) :=
    (shows_tmpRight (shows_wDec _) 7).mono (by decide)
  have hcpu : Brief (tmpRight (wTenths cpu.toUInt64) 7) :=
    (shows_tmpRight (shows_wFixed _ 10 (by decide)) 7).mono (by decide)
  have hrss : Brief (tmpRight (wMib p.rssKb) 9) :=
    (shows_tmpRight (shows_wMib _) 9).mono (by decide)
  have hthreads : Brief (tmpRight (wDec p.threads.toUInt64) 4) :=
    (shows_tmpRight (shows_wDec _) 4).mono (by decide)
  have hbracket : Brief (if p.kthread then [91] else []) := by
    split <;> decide
  have hfront : Shows 768 [] [if p.kthread ∧ v.color then wFg 245 else [],
      tmpRight (wDec p.pid.toUInt64) 7, [32]].flatten :=
    shows_flatten (by simp) (by simp [hfg, hpid]; decide)
  have hmid : Shows 1792 [] [tmpRight (wTenths cpu.toUInt64) 7, [32], tmpRight (wMib p.rssKb) 9,
      [32], tmpRight (wDec p.threads.toUInt64) 4, bytes "  ",
      if p.kthread then [91] else []].flatten :=
    shows_flatten (by simp) (by simp [hcpu, hrss, hthreads, hbracket]; decide)
  have hrest := (shows_byte (b := 32) (by decide)).append (hmid.append (shows_comm p))
  have hstate : Shows 1 [[p.state]] [p.state] := shows_text (Nat.le_refl 1)
  exact (hfront.append (hstate.append_stop hrest space_isStop)).mono (by decide)

/-! ### none of the three lines is empty -/

theorem counted_headLine : 0 < counted false v.headLine := by
  have hlabel : colored .plain (bytes "phitop  Phi 3120A  up ") = true ∧
      0 < counted false (bytes "phitop  Phi 3120A  up ") := by decide
  rw [headLine, List.flatten_cons, List.append_assoc]
  exact counted_pos hlabel.1 (.inl hlabel.2)

theorem counted_devicesLine : 0 < counted false v.devicesLine := by
  have hlabel : colored .plain (wLeft (bytes "card") 5) = true ∧
      0 < counted false (wLeft (bytes "card") 5) := by decide
  rw [devicesLine, ratesLine, List.append_assoc]
  exact counted_pos hlabel.1 (.inl hlabel.2)

theorem counted_procText (p : ProcStat) (cpu : UInt32) :
    0 < counted false (v.procText p cpu) := by
  have hfg : Quiet (if p.kthread ∧ v.color then wFg 245 else []) := by
    split <;> decide
  have hpid : Quiet (tmpRight (wDec p.pid.toUInt64) 7) :=
    (shows_tmpRight (shows_wDec _) 7).quiet.2 (List.forall_mem_nil _)
  have hspace : colored .plain [32] = true ∧ 0 < counted false [32] := by decide
  simp only [procText, List.flatten_cons, List.append_assoc]
  exact counted_pos hfg.2 (.inr (counted_pos hpid.2 (.inr (counted_pos hspace.1 (.inl hspace.2)))))

end View

end Phi.Top
