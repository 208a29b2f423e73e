import Mathlib.Data.List.DropRight
import Phi.Card.Clipping
import Phi.Card.Numbers
import Phi.Card.Processes
import Phi.Rpc.Validate

/-!
# Phi.Card.Sampling

A sample of the card's state (`stat_reply` of `stat.S`, `read_text`, `trim` and
`hundredths` of `text.S`), written into the frame as it is taken.

Each part reads a file or two of `/proc` and sysfs and appends its fields.  A
list is preceded by a count that is put in when the list is done; devices and
processes are listed while the list and the frame have room.
-/

namespace Phi.Card

open Rpc Utf8 Ctl

/-! ## files -/

def bigCap : Nat := 1048576
def smallCap : Nat := 65536

/-- The files under the sampler's root: what reading one gives, nothing where it
cannot be opened or read, and the names in a directory. -/
structure Files where
  file : List UInt8 → Option (List UInt8)
  names : List UInt8 → Option (List (List UInt8))

/-- `read_text`: no more than fits, and nothing of what is not UTF-8. -/
def readText (fs : Files) (path : List UInt8) (cap : Nat) : List UInt8 :=
  match fs.file path with
  | none => []
  | some bs => if utf8Ok (bs.take cap) then bs.take cap else []

/-- `read_text` of the files that are read whole. -/
def readBig (fs : Files) (path : String) : List UInt8 := readText fs (bytes path) bigCap

/-! ## scanning -/

/-- `trim`. -/
def trim (text : List UInt8) : List UInt8 := (text.dropWhile isSpace).rdropWhile isSpace

/-- The lines that `next_line` gives, one after the other. -/
def linesFrom : Nat → List UInt8 → List (List UInt8)
  | 0, _ => []
  | k + 1, text =>
      match nextLine text with
      | none => []
      | some (line, rest) => line :: linesFrom k rest

/-- All of them: a line takes a byte of the text at least. -/
def lines (text : List UInt8) : List (List UInt8) := linesFrom text.length text

/-- `tokens`: the first `most` of them. -/
def tokens : Nat → List UInt8 → List (List UInt8)
  | 0, _ => []
  | k + 1, text =>
      match nextToken text with
      | none => []
      | some (tok, rest) => tok :: tokens k rest

/-- What follows the point of `hundredths`, in hundredths. -/
def decimals (text : List UInt8) : UInt64 :=
  match text with
  | [] => 0
  | [_] => (parseU64 text).getD 0 * 10
  | [_, _] => (parseU64 text).getD 0
  | a :: b :: c :: _ => if c &&& 0xc0 = 0x80 then 0 else (parseU64 [a, b]).getD 0

/-- `hundredths`. -/
def hundredths (text : List UInt8) : UInt64 :=
  let text := trim text
  (parseU64 (text.takeWhile (· ≠ 46))).getD 0 * 100 + decimals (text.dropWhile (· ≠ 46)).tail

/-! ## what is read -/

/-- `st_uptime`. -/
def uptimeMs (fs : Files) : UInt64 :=
  match nextToken (readBig fs "/proc/uptime") with
  | none => hundredths (bytes "0") * 10
  | some (tok, _) => hundredths tok * 10

def ncpuMax : Nat := 4096

/-- Label 6: grown with zeros up to `n`, and label 7. -/
def setCpu (cpus : List (UInt32 × UInt32)) (n : Nat) (v : UInt32 × UInt32) :
    List (UInt32 × UInt32) :=
  (cpus ++ List.replicate (n + 1 - cpus.length) (0, 0)).set n v

/-- The values of a line, 0 where missing or unparsable. -/
def cpuValues (text : List UInt8) (i : Nat) : UInt64 :=
  (((tokens 8 text)[i]?).bind parseU64).getD 0

/-- A line of `/proc/stat`. -/
def cpuLine (cpus : List (UInt32 × UInt32)) (line : List UInt8) : List (UInt32 × UInt32) :=
  match nextToken line with
  | none => cpus
  | some (name, rest) =>
      if (bytes "cpu").isPrefixOf name then
        match parseU64 (name.drop 3) with
        | none => cpus
        | some n =>
            if ncpuMax ≤ n.toNat then cpus
            else
              let v := cpuValues rest
              let busy := v 0 + v 1 + v 2 + v 5 + v 6 + v 7
              setCpu cpus n.toNat (busy.toUInt32, (v 3 + v 4).toUInt32)
      else cpus

/-- `st_cpus` up to label 20. -/
def cpuLoads (fs : Files) : List (UInt32 × UInt32) :=
  (lines (readBig fs "/proc/stat")).foldl cpuLine []

/-- `read_small`. -/
def readSmall (fs : Files) (path : List UInt8) : List UInt8 := trim (readText fs path smallCap)

/-- Label 21: the core of a CPU. -/
def coreId (fs : Files) (cpu : Nat) : UInt16 :=
  (parseU16 (readSmall fs (bytes "/sys/devices/system/cpu/cpu" ++ Decimal.decimal cpu ++
    bytes "/topology/core_id"))).getD 0

/-- Label 20: read again when there are more CPUs than before. -/
def coreIds (fs : Files) (cores : List UInt16) (ncpu : Nat) : List UInt16 :=
  if ncpu ≤ cores.length then cores else (List.range ncpu).map (coreId fs)

/-- `mem_keys`. -/
def memKeys : List (List UInt8) :=
  ["MemTotal:", "MemAvailable:", "Buffers:", "Cached:", "SwapTotal:", "SwapFree:"].map bytes

/-- A line of `/proc/meminfo`. -/
def memLine (v : List UInt64) (line : List UInt8) : List UInt64 :=
  match nextToken line with
  | none => v
  | some (key, rest) =>
      match nextToken rest with
      | none => v
      | some (tok, _) =>
          match memKeys.idxOf? key with
          | none => v
          | some i => v.set i ((parseU64 tok).getD 0)

/-- `st_mem`, the fields in the order of `mem_keys`. -/
def memFields (fs : Files) : MemStat :=
  let v := (lines (readBig fs "/proc/meminfo")).foldl memLine (List.replicate 6 0)
  ⟨v.getD 0 0, v.getD 1 0, v.getD 2 0, v.getD 3 0, v.getD 4 0, v.getD 5 0⟩

/-- An average, capped at what the field holds. -/
def loadAvg (tok : Option (List UInt8)) : UInt16 :=
  match tok with
  | none => 0
  | some tok => if hundredths tok ≤ 0xffff then (hundredths tok).toUInt16 else 0xffff

/-- `"running/total"`. -/
def runningTotal (tok : Option (List UInt8)) : UInt32 × UInt32 :=
  match tok with
  | none => (0, 0)
  | some tok =>
      match tok.dropWhile (· ≠ 47) with
      | [] => (0, 0)
      | _ :: total => ((parseU32 (tok.takeWhile (· ≠ 47))).getD 0, (parseU32 total).getD 0)

/-- `st_load`. -/
def loadTokens (fs : Files) : List (List UInt8) := tokens 4 (readBig fs "/proc/loadavg")

def loads (fs : Files) : UInt16 × UInt16 × UInt16 :=
  (loadAvg (loadTokens fs)[0]?, loadAvg (loadTokens fs)[1]?, loadAvg (loadTokens fs)[2]?)

/-- `hw_scan`: the directory whose name reads `"knc"`. -/
def hwScan (fs : Files) : Option (List UInt8) :=
  match fs.names (bytes "/sys/class/hwmon") with
  | none => none
  | some names =>
      ((names.filter fun n => n ≠ bytes "." ∧ n ≠ bytes "..").map
        (bytes "/sys/class/hwmon/" ++ ·)).find? fun hw =>
          readSmall fs (hw ++ bytes "/name") = bytes "knc"

/-- `millideg`: whole degrees, truncated, and -1 when unreadable. -/
def millideg (fs : Files) (hw : List UInt8) (channel : Nat) (tail : String) : Int16 :=
  match parseI64 (readSmall fs (hw ++ bytes "/temp" ++ Decimal.decimal channel ++ bytes tail)) with
  | none => -1
  | some v => (v / 1000).toInt16

def tempChannels : Nat := 15
def dieChannels : Nat := 9

/-- Label 3 of `st_sensors`: the highest maximum. -/
def higher (r12 eax : Int16) : Int16 := if eax ≤ r12 then r12 else eax

/-- What `st_sensors` gives of the device. -/
structure Sensors where
  temps : List Int16
  tempPeak : Int16
  vcoreMv : UInt32
  coreMhz : UInt32

/-- `st_sensors`, without the device and with it. -/
def sensors (fs : Files) : Option (List UInt8) → Sensors
  | none => ⟨[], 0, 0, 0⟩
  | some hw =>
    { temps := (List.range tempChannels).map fun i => millideg fs hw (i + 1) "_input"
      tempPeak := ((List.range dieChannels).map fun i => millideg fs hw (i + 1) "_max").foldl
        higher (-32768)
      vcoreMv := (parseU32 (readSmall fs (hw ++ bytes "/in0_input"))).getD 0
      coreMhz := (parseU32 (readSmall fs (hw ++ bytes "/core_mhz"))).getD 0 }

/-- A device and its two counters. -/
structure Device where
  name : List UInt8
  first : UInt64
  second : UInt64
deriving DecidableEq

/-- A line of `/proc/diskstats`: sectors of 512 bytes. -/
def diskLine (line : List UInt8) : Option Device := do
  let toks := tokens 10 line
  let name ← toks[2]?
  guard ((bytes "phiblk").isPrefixOf name = true)
  let read ← (toks[5]?).bind parseU64
  let written ← (toks[9]?).bind parseU64
  pure ⟨name, read <<< 9, written <<< 9⟩

/-- A line of `/proc/net/dev`: the first and the ninth counter. -/
def netLine (line : List UInt8) : Option Device :=
  match line.dropWhile (· ≠ 58) with
  | [] => none
  | _ :: counters => do
      let name := trim (line.takeWhile (· ≠ 58))
      guard (name ≠ bytes "lo")
      let toks := tokens 9 counters
      let received ← (toks[0]?).bind parseU64
      let sent ← (toks[8]?).bind parseU64
      pure ⟨name, received, sent⟩

def diskDevices (fs : Files) : List Device :=
  (lines (readBig fs "/proc/diskstats")).filterMap diskLine

def netDevices (fs : Files) : List Device :=
  (lines (readBig fs "/proc/net/dev")).filterMap netLine

/-- What `st_procs` finds in `/proc`. -/
def procEntries (fs : Files) : Option (List DirEntry) :=
  (fs.names (bytes "/proc")).map fun names => names.map fun n =>
    { name := n
      stat := readText fs (bytes "/proc/" ++ n ++ bytes "/stat") smallCap
      status := readText fs (bytes "/proc/" ++ n ++ bytes "/status") smallCap }

/-! ## what is written -/

/-- The size of `tx_buf`. -/
def txCap : Nat := 2 * maxFrame

def wByte (t : Tx) (v : UInt8) : Tx := t.wBytes [v]
def wU16 (t : Tx) (v : UInt16) : Tx := t.wBytes (putU16 v)
def wU32 (t : Tx) (v : UInt32) : Tx := t.wBytes (putU32 v)
def wU64 (t : Tx) (v : UInt64) : Tx := t.wBytes (putU64 v)

/-- `w_str`. -/
def wStr (t : Tx) (bs : List UInt8) : Tx := agentStr t [bs]

/-- Where the cursor stands in the frame's body. -/
def bodyAt (t : Tx) : UInt64 := UInt64.ofNat (t.wp - 4)

/-- A list being written: the frame, and `st_listed`. -/
structure Listing where
  t : Tx
  listed : Nat

/-- `list_begin`. -/
def listBegin (t : Tx) : Listing := ⟨wU16 t 0, 0⟩

/-- `list_end`, of a list begun at `count`. -/
def listEnd (count : Nat) (l : Listing) : Tx := l.t.store count (putU16 (UInt16.ofNat l.listed))

/-- `dev_entry`. -/
def devEntry (l : Listing) (d : Device) : Listing :=
  if maxList ≤ l.listed then l
  else if room (bodyAt l.t) (18 + UInt64.ofNat d.name.length) then
    ⟨wU64 (wU64 (wStr l.t d.name) d.first) d.second, l.listed + 1⟩
  else l

/-- `st_disks` and `st_nets`. -/
def stDevices (t : Tx) (ds : List Device) : Tx := listEnd t.wp (ds.foldl devEntry (listBegin t))

/-- `st_cpus` from label 25 on. -/
def wCpu (t : Tx) (c : CpuStat) : Tx := wU32 (wU32 (wU16 t c.core) c.busy) c.idle

def stCpus (t : Tx) (cpus : List CpuStat) : Tx :=
  cpus.foldl wCpu (wU16 t (UInt16.ofNat cpus.length))

def stMem (t : Tx) (m : MemStat) : Tx :=
  wU64 (wU64 (wU64 (wU64 (wU64 (wU64 t m.totalKb) m.availKb) m.buffersKb) m.cachedKb)
    m.swapTotalKb) m.swapFreeKb

def stLoad (t : Tx) (l : UInt16 × UInt16 × UInt16) (r : UInt32 × UInt32) : Tx :=
  wU32 (wU32 (wU16 (wU16 (wU16 t l.1) l.2.1) l.2.2) r.1) r.2

def wI16 (t : Tx) (v : Int16) : Tx := wU16 t v.toUInt16

def stSensors (t : Tx) (s : Sensors) : Tx :=
  wU32 (wU32 (wI16 (s.temps.foldl wI16 (wU16 t (UInt16.ofNat s.temps.length))) s.tempPeak)
    s.vcoreMv) s.coreMhz

/-- Label 7 of `st_procs`. -/
def wProc (l : Listing) (p : Listed) : Listing :=
  let t := wByte (wByte (wU32 l.t p.pid) p.stat.state) (if p.stat.kthread then 1 else 0)
  ⟨wStr (wU32 (wU64 (wU64 t p.stat.ticks) p.stat.rssKb) p.stat.threads) p.stat.comm, l.listed + 1⟩

def wProcs (t : Tx) (r : ProcsReply) : Tx :=
  wU32 (wU32 (listEnd t.wp (r.listed.foldl wProc (listBegin t))) (UInt32.ofNat r.nprocs))
    (UInt32.ofNat r.nkthreads)

/-- What stays from sample to sample. -/
structure SampleMemo where
  cores : List UInt16
  hwPath : Option (List UInt8)
  procs : ProcsMemo

/-- The CPUs of the sample, each with its core. -/
def cpuStats (fs : Files) (cores : List UInt16) : List CpuStat :=
  (cpuLoads fs).mapIdx fun i c => ⟨cores.getD i 0, c.1, c.2⟩

/-- `stat_reply` from `f_begin` to `st_sensors`, in a buffer with anything in it. -/
def statFront (fs : Files) (m : SampleMemo) (buf : Nat → UInt8) : Tx :=
  let cores := coreIds fs m.cores (cpuLoads fs).length
  let t := (⟨buf, 0, 0⟩ : Tx).fBegin (Serve.Tag.toByte .statReply)
  let t := wU64 t (uptimeMs fs)
  let t := stCpus t (cpuStats fs cores)
  let t := stMem t (memFields fs)
  let t := stLoad t (loads fs) (runningTotal (loadTokens fs)[3]?)
  stSensors t (sensors fs (m.hwPath <|> hwScan fs))

/-- `st_disks` and `st_nets` behind it. -/
def statDevices (fs : Files) (m : SampleMemo) (buf : Nat → UInt8) : Tx :=
  stDevices (stDevices (statFront fs m buf) (diskDevices fs)) (netDevices fs)

/-- `stat_reply`, up to `f_send`: what is kept, and the frame. -/
def statReply (pageKb : UInt64) (fs : Files) (m : SampleMemo) (buf : Nat → UInt8) :
    SampleMemo × Tx :=
  let t := statDevices fs m buf
  let r := stProcs pageKb m.procs ⟨procEntries fs, bodyAt t⟩
  (⟨coreIds fs m.cores (cpuLoads fs).length, m.hwPath <|> hwScan fs, r.1⟩, (wProcs t r.2).fFinish)

/-- An error's frame, its text in pieces: from `f_begin` and `w_str_begin` to `w_str_end`
and `f_send`. -/
def errorFrame (buf : Nat → UInt8) (pieces : List (List UInt8)) : Tx :=
  (agentStr ((⟨buf, 0, 0⟩ : Tx).fBegin (Serve.Tag.toByte .error)) pieces).fFinish

/-- `send_error`. -/
def sendError (buf : Nat → UInt8) (text : List UInt8) : Tx := errorFrame buf [text]

end Phi.Card
