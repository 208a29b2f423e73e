import Phi.Rpc.Msg

/-!
# Phi.Top.Snapshot

The samples phitop keeps of one card (`model.S`).

A sample is a `StatReply` and a `TrafficReply`, decoded into a record of fixed
capacities: what a list has beyond its capacity is left out, and so is what a
device name has beyond its field.  The record carries the host's clock when
the sample arrived, and the co-processor worker's stats line where its window
is mapped.  What only the drawing of a frame reads is left out here.
-/

namespace Phi.Top

open Rpc Utf8

def snCpuCap : Nat := 4096
def snDevCap : Nat := 16
def snProcCap : Nat := 16384
def devNameCap : Nat := 60

/-- A device: its name, clipped to the field, and its two counters. -/
structure Dev where
  name : List UInt8
  read : UInt64
  written : UInt64
  fits : name.length < devNameCap

/-- A listed process: what the history and the shares read of it. -/
structure Proc where
  pid : UInt32
  ticks : UInt64
deriving DecidableEq

/-- The worker's stats line. -/
structure VpuStats where
  requests : UInt64
  errors : UInt64
  busyNs : UInt64
  computeNs : UInt64
  pullNs : UInt64
  pushNs : UInt64
  lastKernel : UInt32
  lastThreads : UInt32
deriving DecidableEq

structure Snapshot where
  atUs : UInt64
  cpus : List CpuStat
  traffic : Traffic
  disks : List Dev
  nets : List Dev
  procs : List Proc
  vpu : Option VpuStats
  ncpu : cpus.length ≤ snCpuCap
  ndisks : disks.length ≤ snDevCap
  nnets : nets.length ≤ snDevCap
  nlisted : procs.length ≤ snProcCap

/-- `decode_devs`, one entry. -/
def decodeDev (d : DevStat) : Dev where
  name := (bytes d.name).take (devNameCap - 1)
  read := d.read
  written := d.written
  fits := Nat.lt_of_le_of_lt (List.length_take_le _ _) (by decide)

def decodeDevs (ds : List DevStat) : List Dev := (ds.take snDevCap).map decodeDev

theorem no_devs : ([] : List Dev).length ≤ snDevCap := Nat.zero_le _

theorem length_decodeDevs_le (ds : List DevStat) : (decodeDevs ds).length ≤ snDevCap := by
  simpa [decodeDevs] using Nat.min_le_left _ _

def decodeProc (p : ProcStat) : Proc := ⟨p.pid, p.ticks⟩

/-- `snapshot_decode` and `traffic_decode`: the two replies of a poll, with the
clock and the stats line. -/
def snapshotDecode (atUs : UInt64) (s : Stat) (t : Traffic) (vpu : Option VpuStats) :
    Snapshot where
  atUs := atUs
  cpus := s.cpus.take snCpuCap
  traffic := t
  disks := decodeDevs s.disks
  nets := decodeDevs s.nets
  procs := (s.procs.take snProcCap).map decodeProc
  vpu := vpu
  ncpu := List.length_take_le _ _
  ndisks := length_decodeDevs_le _
  nnets := length_decodeDevs_le _
  nlisted := by simpa using Nat.min_le_left _ _

end Phi.Top
