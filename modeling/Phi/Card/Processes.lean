import Phi.Card.PidStat
import Phi.Lib.Keyed
import Phi.Rpc.Msg

/-!
# Phi.Card.Processes

The processes of a sample (`st_procs` of `stat.S`).

Every process of `/proc` is counted.  A user process is listed, and so is a
kernel thread whose ticks moved since they were last read: these are kept in
two tables, the previous sample's, which is searched, and the one being built,
which change places after each sample.  Known kernel threads are read only every
`kthreadEvery` samples.
-/

namespace Phi.Card

def kmMax : Nat := 65536
def kthreadEvery : UInt32 := 4
def maxProcs : Nat := 16384

/-- An entry of a table. -/
structure Km where
  pid : UInt32
  ticks : UInt64
deriving DecidableEq

def Km.key (e : Km) : Nat := e.pid.toNat

/-- The two tables.  What stands in them from the counts on is left over. -/
structure KmTables where
  old : Nat → Km
  oldN : Nat
  new : Nat → Km
  newN : Nat
  unsorted : Bool

namespace KmTables

/-- `km_find`. -/
def find (t : KmTables) (pid : UInt32) : Option Km := Keyed.find Km.key t.old pid.toNat 0 t.oldN

/-- `km_add`. -/
def add (t : KmTables) (pid : UInt32) (ticks : UInt64) : KmTables :=
  if kmMax ≤ t.newN then t
  else
    { t with
      new := fun i => if i = t.newN then ⟨pid, ticks⟩ else t.new i
      newN := t.newN + 1
      unsorted := t.unsorted || (t.newN ≠ 0 && !((t.new (t.newN - 1)).pid < pid)) }

/-- `km_sort`, needed only if `/proc` lists its entries out of order. -/
def sort (t : KmTables) : KmTables :=
  { t with new := Keyed.insertionSort Km.key t.newN t.new }

/-- Label 81: the tables change places. -/
def swap (t : KmTables) : KmTables := { t with old := t.new, oldN := t.newN, new := t.old }

end KmTables

/-- An entry of `/proc`: its name, and what `read_text` gives of its `stat` and
its `status`, nothing where a file cannot be read. -/
structure DirEntry where
  name : List UInt8
  stat : List UInt8
  status : List UInt8

/-- A listed process. -/
structure Listed where
  pid : UInt32
  stat : PidStat
deriving DecidableEq

/-- The bytes of its entry. -/
def Listed.size (p : Listed) : UInt64 := 28 + UInt64.ofNat p.stat.comm.length

/-- `room`, at the offset `wp` of the frame's body. -/
def room (wp need : UInt64) : Bool := !(UInt64.ofNat Rpc.maxFrame - 16 - wp < need)

/-- The loop's state. -/
structure ProcsState where
  tables : KmTables
  nprocs : Nat
  nkthreads : Nat
  listed : List Listed
  wp : UInt64

/-- Label 7: listed, while the list and the frame have room. -/
def ProcsState.list (s : ProcsState) (p : Listed) : ProcsState :=
  if maxProcs ≤ s.listed.length then s
  else if room s.wp p.size then { s with listed := s.listed ++ [p], wp := s.wp + p.size }
  else s

/-- A kernel thread counted and recorded. -/
def ProcsState.kthread (s : ProcsState) (pid : UInt32) (ticks : UInt64) : ProcsState :=
  { s with
    nprocs := s.nprocs + 1
    nkthreads := s.nkthreads + 1
    tables := s.tables.add pid ticks }

/-- A user process with the resident size that its `status` sums. -/
def withRss (p : PidStat) (status : List UInt8) : PidStat :=
  { p with rssKb := (vmRss status.length status).getD p.rssKb }

/-- A process that is read. -/
def ProcsState.read (pageKb : UInt64) (s : ProcsState) (pid : UInt32) (e : DirEntry) :
    ProcsState :=
  match parseStat pageKb e.stat with
  | none => s
  | some p =>
      if p.kthread then
        match s.tables.find pid with
        | none => (s.kthread pid p.ticks).list ⟨pid, p⟩
        | some km =>
            if km.ticks = p.ticks then s.kthread pid p.ticks
            else (s.kthread pid p.ticks).list ⟨pid, p⟩
      else ProcsState.list { s with nprocs := s.nprocs + 1 } ⟨pid, withRss p e.status⟩

/-- One entry of the directory. -/
def ProcsState.entry (pageKb : UInt64) (refresh : Bool) (s : ProcsState) (e : DirEntry) :
    ProcsState :=
  match parseU32 e.name with
  | none => s
  | some pid =>
      if refresh then s.read pageKb pid e
      else
        match s.tables.find pid with
        | some km => s.kthread pid km.ticks
        | none => s.read pageKb pid e

/-- What one sample is given: the entries, unless `/proc` cannot be opened, and
where the frame's body ends so far. -/
structure ProcsInput where
  dir : Option (List DirEntry)
  wp : UInt64

/-- What it adds to the reply. -/
structure ProcsReply where
  listed : List Listed
  nprocs : Nat
  nkthreads : Nat

/-- What stays from sample to sample. -/
structure ProcsMemo where
  samples : UInt32
  tables : KmTables

/-- `st_procs`. -/
def stProcs (pageKb : UInt64) (m : ProcsMemo) (x : ProcsInput) : ProcsMemo × ProcsReply :=
  let samples := m.samples + 1
  let refresh : Bool := samples % kthreadEvery = 1
  let tables := { m.tables with newN := 0, unsorted := false }
  match x.dir with
  | none => (⟨samples, tables⟩, ⟨[], 0, 0⟩)
  | some entries =>
      let s := entries.foldl (ProcsState.entry pageKb refresh) ⟨tables, 0, 0, [], x.wp + 2⟩
      let built := if s.tables.unsorted then s.tables.sort else s.tables
      (⟨samples, built.swap⟩, ⟨s.listed, s.nprocs, s.nkthreads⟩)

/-- Before the first sample; the tables hold whatever they hold. -/
def ProcsMemo.initial (a b : Nat → Km) : ProcsMemo := ⟨0, ⟨a, 0, b, 0, false⟩⟩

end Phi.Card
