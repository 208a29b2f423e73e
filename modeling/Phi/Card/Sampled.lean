import Phi.Card.Lines
import Phi.Rpc.Size

/-!
# Phi.Card.Sampled

What the agent sends when it is asked for a sample.

The parts of `Phi.Card.Sampling` write their fields one after the other, cut
names where they are too long and put counts in afterwards.  What stands in the
buffer then is the frame that phi-rpc would make of the sample (`sample_sent`).
-/

namespace Phi.Card

open Rpc Utf8 Ctl Serve

/-! ## bytes after bytes -/

theorem wBytes_wBytes (t : Tx) (bs cs : List UInt8) :
    (t.wBytes bs).wBytes cs = t.wBytes (bs ++ cs) := by
  have hhigh : max (max t.high (t.wp + bs.length)) (t.wp + bs.length + cs.length) =
      max t.high (t.wp + (bs ++ cs).length) := by
    rw [List.length_append]
    omega
  unfold Tx.wBytes Tx.store
  dsimp only
  rw [hhigh, List.length_append, Nat.add_assoc, Circular.write_append]

/-- Items written one by one behind something. -/
theorem foldl_wBytes_flatMap {α : Type} (put : α → List UInt8) (xs : List α) (t : Tx)
    (bs : List UInt8) :
    xs.foldl (fun t x => t.wBytes (put x)) (t.wBytes bs) = t.wBytes (bs ++ xs.flatMap put) := by
  induction xs generalizing bs with
  | nil => rw [List.flatMap_nil, List.append_nil, List.foldl_nil]
  | cons x xs ih =>
      rw [List.foldl_cons, wBytes_wBytes, ih, List.flatMap_cons, List.append_assoc]

theorem putList_eq {α : Type} (put : α → List UInt8) {xs : List α} (h : xs.length ≤ maxList) :
    putList put xs = putU16 (UInt16.ofNat xs.length) ++ xs.flatMap put := by
  unfold putList putCount
  dsimp only
  rw [Nat.min_eq_left h, List.take_length]

theorem wCpu_eq (t : Tx) (c : CpuStat) : wCpu t c = t.wBytes (putCpu c) := by
  simp only [wCpu, wU16, wU32, wBytes_wBytes, putCpu, List.append_assoc]

theorem stCpus_eq (t : Tx) {cpus : List CpuStat} (h : cpus.length ≤ maxList) :
    stCpus t cpus = t.wBytes (putList putCpu cpus) := by
  have hfun : wCpu = fun t c => t.wBytes (putCpu c) := funext fun t => funext fun c => wCpu_eq t c
  rw [stCpus, hfun, wU16, foldl_wBytes_flatMap, putList_eq _ h]

theorem stMem_eq (t : Tx) (m : MemStat) : stMem t m = t.wBytes (putMem m) := by
  simp only [stMem, wU64, wBytes_wBytes, putMem, List.append_assoc]

theorem stLoad_eq (t : Tx) (l : UInt16 × UInt16 × UInt16) (r : UInt32 × UInt32) :
    stLoad t l r = t.wBytes (putLoad l ++ (putU32 r.1 ++ putU32 r.2)) := by
  simp only [stLoad, wU16, wU32, wBytes_wBytes, putLoad, List.append_assoc]

def putSensors (s : Sensors) : List UInt8 :=
  putList putI16 s.temps ++ (putI16 s.tempPeak ++ (putU32 s.vcoreMv ++ putU32 s.coreMhz))

theorem stSensors_eq (t : Tx) {s : Sensors} (h : s.temps.length ≤ maxList) :
    stSensors t s = t.wBytes (putSensors s) := by
  have hfun : wI16 = fun t v => t.wBytes (putI16 v) := rfl
  rw [stSensors, hfun, wU16, foldl_wBytes_flatMap, ← putList_eq _ h]
  simp only [wU32, wBytes_wBytes, putSensors, List.append_assoc]

/-! ## the frame so far -/

/-- The frame so far, with no store past the largest one. -/
structure Composed (t : Tx) (bs : List UInt8) : Prop where
  built : t.Built (Tag.toByte .statReply) bs
  high : t.high ≤ 4 + maxFrame

namespace Composed

variable {t : Tx} {bs cs : List UInt8}

theorem wBytes (h : Composed t bs) (cs : List UInt8) (hn : 1 + bs.length + cs.length ≤ maxFrame) :
    Composed (t.wBytes cs) (bs ++ cs) where
  built := h.built.wBytes cs
  high := by
    have hhigh := h.high
    rw [Tx.high_wBytes, h.built.wp]
    omega

/-- A name is cut as phi-rpc cuts it. -/
theorem wStr {name : List UInt8} (h : Composed t bs) (hname : IsText name)
    (hn : 1 + bs.length + (2 + name.length) ≤ maxFrame) :
    Composed (wStr t name) (bs ++ putStr (asText name)) := by
  have hsane : ¬ Runaway name := by
    rw [← bytes_asText hname]
    exact not_runaway_bytes _
  obtain ⟨hbuilt, hhigh⟩ := h.built.wStr hsane
  have hput : putStr (asText name) = wireStr name := by
    rw [putStr_eq]
    conv => rhs; rw [← bytes_asText hname]
    rfl
  rw [hput]
  refine ⟨hbuilt, ?_⟩
  have hle := h.high
  show (t.wStr name).high ≤ _
  rw [hhigh, h.built.wp]
  omega

/-- A count is put in where it was left open. -/
theorem store {u v : UInt16} (h : Composed t (bs ++ (putU16 u ++ cs))) :
    Composed (t.store (5 + bs.length) (putU16 v)) (bs ++ (putU16 v ++ cs)) := by
  have hlen : (putU16 v).length = 2 := length_putU16 v
  have hbody := h.built.body
  have hwp := h.built.wp
  have hhigh := h.high
  simp only [List.length_append, length_putU16] at hbody hwp
  rw [Circular.read_append, Circular.read_append] at hbody
  obtain ⟨hleft, hrest⟩ := List.append_inj hbody (Circular.length_read _ _ _)
  obtain ⟨-, hright⟩ := List.append_inj hrest (by simp)
  have hmid : Circular.read (Circular.write t.mem (5 + bs.length) (putU16 v)) (5 + bs.length) 2 =
      putU16 v := by
    conv => lhs; rw [← hlen]
    exact Circular.read_write _ _ _
  have hafter : Circular.read (Circular.write t.mem (5 + bs.length) (putU16 v))
      (5 + bs.length + 2) cs.length = cs := by
    rw [Circular.read_write_of_disjoint _ (.inr (by omega)), hright]
  constructor
  · constructor
    · show Circular.write t.mem _ _ 4 = _
      rw [Circular.write_of_not_mem _ (.inl (by omega)), h.built.tag]
    · show Circular.read (Circular.write t.mem _ _) 5 _ = _
      simp only [List.length_append, length_putU16]
      rw [Circular.read_append, Circular.read_append,
        Circular.read_write_before _ (Nat.le_refl _), hleft, hmid, hafter]
    · show t.wp = _
      rw [hwp]
      simp
    · show t.wp ≤ max t.high _
      exact Nat.le_trans h.built.high (Nat.le_max_left _ _)
  · show max t.high (5 + bs.length + (putU16 v).length) ≤ _
    have hreach := h.built.high
    omega

end Composed

/-! ## room -/

/-- As long as the cursor is not past the reserve, `room` says what is left. -/
theorem room_iff {wp need : UInt64} (h : wp.toNat ≤ maxFrame - 16) :
    room wp need = true ↔ wp.toNat + need.toNat ≤ maxFrame - 16 := by
  have hlimit : (UInt64.ofNat maxFrame - 16).toNat = maxFrame - 16 := by decide
  have hle : wp ≤ UInt64.ofNat maxFrame - 16 := by
    rw [UInt64.le_iff_toNat_le, hlimit]
    exact h
  have hsub := UInt64.toNat_sub_of_le _ _ hle
  rw [hlimit] at hsub
  simp only [room, Bool.not_eq_true', decide_eq_false_iff_not, UInt64.lt_iff_toNat_lt, hsub]
  omega

theorem toNat_bodyAt {t : Tx} {tag : UInt8} {bs : List UInt8} (h : t.Built tag bs)
    (hlen : bs.length < maxFrame) : (bodyAt t).toNat = 1 + bs.length := by
  have hframe : maxFrame = 1048576 := rfl
  rw [bodyAt, h.wp, UInt64.toNat_ofNat_of_lt']
  · omega
  · show _ < 2 ^ 64
    omega

theorem length_clipped_le (s : String) : (bytes (clipped s)).length ≤ (bytes s).length := by
  rw [clipped, bytes, String.toList_ofList]
  exact (encode_isPrefix (fitting_isPrefix _ _)).length_le

theorem strSize_asText_le {name : List UInt8} (h : IsText name) :
    strSize (asText name) ≤ 2 + name.length := by
  have hle := length_clipped_le (asText name)
  rw [bytes_asText h] at hle
  unfold strSize
  omega

theorem length_flatMap_le {α : Type} (put : α → List UInt8) (size : α → Nat) (xs : List α)
    (h : ∀ x ∈ xs, (put x).length ≤ size x) :
    (xs.flatMap put).length ≤ (xs.map size).sum := by
  induction xs with
  | nil => exact Nat.le_refl _
  | cons x xs ih =>
      have hx := h x List.mem_cons_self
      have hxs := ih fun y hy => h y (List.mem_cons_of_mem x hy)
      rw [List.flatMap_cons, List.length_append, List.map_cons, List.sum_cons]
      omega

/-! ## devices -/

def Device.stat (d : Device) : DevStat := ⟨asText d.name, d.first, d.second⟩

theorem length_putDev_le {d : Device} (h : IsText d.name) : (putDev d.stat).length ≤ d.size := by
  have hle := strSize_asText_le h
  unfold putDev Device.stat Device.size
  simp only [List.length_append, length_putStr, length_putU64]
  omega

theorem devEntry_step {l : Listing} {bs : List UInt8} {d : Device} (h : Composed l.t bs)
    (hname : IsText d.name) (hmany : l.listed < maxList)
    (hroom : 1 + bs.length + d.size ≤ maxFrame - 16) :
    Composed (devEntry l d).t (bs ++ putDev d.stat) ∧
      (devEntry l d).listed = l.listed + 1 := by
  have hframe : maxFrame = 1048576 := rfl
  have hsize : d.size = 18 + d.name.length := rfl
  have hbody := toNat_bodyAt h.built (by omega)
  have hneed : (18 + UInt64.ofNat d.name.length).toNat = 18 + d.name.length := by
    rw [UInt64.toNat_add, UInt64.toNat_ofNat_of_lt' (show _ < 2 ^ 64 by omega)]
    exact Nat.mod_eq_of_lt (show 18 + _ < 2 ^ 64 by omega)
  have hyes : room (bodyAt l.t) (18 + UInt64.ofNat d.name.length) = true := by
    rw [room_iff (by omega), hbody, hneed]
    omega
  have hput := strSize_asText_le hname
  have hstr := h.wStr hname (by omega)
  have hfirst := hstr.wBytes (putU64 d.first) (by simp; omega)
  have hsecond := hfirst.wBytes (putU64 d.second) (by simp; omega)
  have hstep : devEntry l d =
      ⟨wU64 (wU64 (wStr l.t d.name) d.first) d.second, l.listed + 1⟩ := by
    rw [devEntry, if_neg (Nat.not_le.2 hmany), if_pos hyes]
  rw [hstep]
  rw [List.append_assoc, List.append_assoc] at hsecond
  exact ⟨hsecond, rfl⟩

theorem devEntry_run {l : Listing} {bs : List UInt8} {ds : List Device} (h : Composed l.t bs)
    (hnames : ∀ d ∈ ds, IsText d.name) (hmany : l.listed + ds.length ≤ maxList)
    (hroom : 1 + bs.length + (ds.map Device.size).sum ≤ maxFrame - 16) :
    Composed (ds.foldl devEntry l).t (bs ++ (ds.map Device.stat).flatMap putDev) ∧
      (ds.foldl devEntry l).listed = l.listed + ds.length := by
  induction ds generalizing l bs with
  | nil => simpa using h
  | cons d ds ih =>
      rw [List.length_cons] at hmany
      rw [List.map_cons, List.sum_cons] at hroom
      have hd := hnames d List.mem_cons_self
      have hlen := length_putDev_le hd
      obtain ⟨hstep, hlisted⟩ := devEntry_step h hd (by omega) (by omega)
      obtain ⟨hrest, hcount⟩ := ih hstep (fun x hx => hnames x (List.mem_cons_of_mem d hx))
        (by omega) (by rw [List.length_append]; omega)
      rw [List.foldl_cons, List.map_cons, List.flatMap_cons, ← List.append_assoc]
      refine ⟨hrest, ?_⟩
      rw [hcount, hlisted, List.length_cons]
      omega

theorem stDevices_listed {t : Tx} {bs : List UInt8} {ds : List Device} (h : Composed t bs)
    (hnames : ∀ d ∈ ds, IsText d.name) (hmany : ds.length ≤ maxList)
    (hroom : 1 + bs.length + (2 + (ds.map Device.size).sum) ≤ maxFrame - 16) :
    Composed (stDevices t ds) (bs ++ putDevs (ds.map Device.stat)) := by
  have hframe : maxFrame = 1048576 := rfl
  have hbegin := h.wBytes (putU16 0) (by simp; omega)
  obtain ⟨hrun, hlisted⟩ := devEntry_run (l := listBegin t) hbegin hnames
    (by simpa [listBegin] using hmany) (by simp; omega)
  rw [List.append_assoc] at hrun
  have hend := hrun.store (v := UInt16.ofNat ds.length)
  have hlist : putDevs (ds.map Device.stat) =
      putU16 (UInt16.ofNat ds.length) ++ (ds.map Device.stat).flatMap putDev := by
    rw [putDevs, putList_eq _ (by simpa using hmany), List.length_map]
  have hcount : (listBegin t).listed + ds.length = ds.length := Nat.zero_add _
  rw [hlist, stDevices, listEnd, hlisted, hcount, h.built.wp]
  exact hend

theorem length_putDevs_le {ds : List Device} (hnames : ∀ d ∈ ds, IsText d.name)
    (hmany : ds.length ≤ maxList) :
    (putDevs (ds.map Device.stat)).length ≤ 2 + (ds.map Device.size).sum := by
  have hle := length_flatMap_le (fun d : Device => putDev d.stat) Device.size ds
    fun d hd => length_putDev_le (hnames d hd)
  rw [putDevs, putList_eq _ (by simpa using hmany), List.length_append, length_putU16,
    List.flatMap_map]
  omega

/-! ## processes -/

/-- What is listed so far has room, and is what the cursor says. -/
structure Roomy (base : Nat) (s : ProcsState) : Prop where
  wp : s.wp.toNat = base + (s.listed.map fun p => 28 + p.stat.comm.length).sum
  room : s.wp.toNat ≤ maxFrame - 16
  many : s.listed.length ≤ maxProcs
  comms : ∀ p ∈ s.listed, IsText p.stat.comm ∧ p.stat.comm.length ≤ maxString

theorem getElem?_lastIndex {c : UInt8} {text : List UInt8} {n j : Nat}
    (h : lastIndex c text n = some j) : text[j]? = some c := by
  induction n with
  | zero => simp [lastIndex] at h
  | succ n ih =>
      rw [lastIndex] at h
      split at h
      · next hget =>
          rw [Option.some.injEq] at h
          rw [← h, hget]
      · exact ih h

/-- A name in a text lies between two parentheses of it. -/
theorem parseStat_comm {pageKb : UInt64} {text : List UInt8} {p : PidStat}
    (h : parseStat pageKb text = some p) (ht : IsText text) (hlen : text.length ≤ smallCap) :
    IsText p.comm ∧ p.comm.length ≤ maxString := by
  unfold parseStat at h
  cases hopen : text.findIdx? (· = 40) with
  | none => simp [hopen] at h
  | some i =>
      cases hclose : lastIndex 41 text text.length with
      | none => simp [hopen, hclose] at h
      | some j =>
          simp only [hopen, hclose] at h
          obtain ⟨hi, hget, -⟩ := List.findIdx?_eq_some_iff_getElem.1 hopen
          have hpar : text[i]? = some 40 := by
            rw [List.getElem?_eq_getElem hi]
            simpa using hget
          split at h
          · cases h
          · next hle =>
              have hcomm : p.comm = (text.take j).drop (i + 1) := by
                rw [← Option.some.inj h]
              have hinside := (ht.sides (getElem?_lastIndex hclose) (by decide)).1
              have hopened : (text.take j)[i]? = some 40 := by
                rw [List.getElem?_take_of_lt (by omega), hpar]
              have hj : j < text.length :=
                (List.getElem?_eq_some_iff.1 (getElem?_lastIndex hclose)).1
              have hcap : smallCap = 65536 := rfl
              have hmax : maxString = 65535 := rfl
              rw [hcomm]
              refine ⟨(hinside.sides hopened (by decide)).2, ?_⟩
              rw [List.length_drop, List.length_take]
              omega

theorem Roomy.list {base : Nat} {s : ProcsState} (h : Roomy base s) {p : Listed}
    (hp : IsText p.stat.comm ∧ p.stat.comm.length ≤ maxString) : Roomy base (s.list p) := by
  have hframe : maxFrame = 1048576 := rfl
  have hstring : maxString = 65535 := rfl
  have hsize : p.size.toNat = 28 + p.stat.comm.length := by
    rw [Listed.size, UInt64.toNat_add, UInt64.toNat_ofNat_of_lt' (show _ < 2 ^ 64 by omega)]
    exact Nat.mod_eq_of_lt (show 28 + _ < 2 ^ 64 by omega)
  unfold ProcsState.list
  split
  · exact h
  · next hmany =>
      split
      · next hroom =>
          rw [room_iff h.room, hsize] at hroom
          have hwp : (s.wp + p.size).toNat = s.wp.toNat + (28 + p.stat.comm.length) := by
            rw [UInt64.toNat_add, hsize]
            exact Nat.mod_eq_of_lt (show _ < 2 ^ 64 by omega)
          constructor
          · dsimp only
            rw [hwp, h.wp]
            simp [Nat.add_assoc]
          · dsimp only
            rw [hwp]
            exact hroom
          · simp only [List.length_append, List.length_singleton]
            omega
          · intro q hq
            rcases List.mem_append.1 hq with hq | hq
            · exact h.comms q hq
            · rw [List.mem_singleton.1 hq]
              exact hp
      · exact h

/-- Neither what is counted nor what is recorded matters. -/
theorem Roomy.congr {base : Nat} {s s' : ProcsState} (h : Roomy base s) (hwp : s'.wp = s.wp)
    (hlisted : s'.listed = s.listed) : Roomy base s' where
  wp := by rw [hwp, hlisted, h.wp]
  room := by rw [hwp]; exact h.room
  many := by rw [hlisted]; exact h.many
  comms := by rw [hlisted]; exact h.comms

theorem Roomy.read {base : Nat} {s : ProcsState} (h : Roomy base s) {pageKb : UInt64}
    {pid : UInt32} {e : DirEntry} (ht : IsText e.stat) (hlen : e.stat.length ≤ smallCap) :
    Roomy base (s.read pageKb pid e) := by
  unfold ProcsState.read
  cases hparse : parseStat pageKb e.stat with
  | none => exact h
  | some p =>
      have hp := parseStat_comm hparse ht hlen
      have hcount : Roomy base (s.kthread pid p.ticks) := h.congr rfl rfl
      dsimp only
      split
      · cases s.tables.find pid with
        | none => exact hcount.list hp
        | some km =>
            dsimp only
            split
            · exact hcount
            · exact hcount.list hp
      · have huser : Roomy base { s with nprocs := s.nprocs + 1 } := h.congr rfl rfl
        exact huser.list (p := ⟨pid, withRss p e.status⟩) hp

theorem Roomy.entry {base : Nat} {s : ProcsState} (h : Roomy base s) {pageKb : UInt64}
    {refresh : Bool} {e : DirEntry} (ht : IsText e.stat) (hlen : e.stat.length ≤ smallCap) :
    Roomy base (s.entry pageKb refresh e) := by
  unfold ProcsState.entry
  cases parseU32 e.name with
  | none => exact h
  | some pid =>
      dsimp only
      split
      · exact h.read ht hlen
      · cases s.tables.find pid with
        | none => exact h.read ht hlen
        | some km => exact h.congr rfl rfl

theorem Roomy.entries {base : Nat} {s : ProcsState} (h : Roomy base s) {pageKb : UInt64}
    {refresh : Bool} {es : List DirEntry}
    (hes : ∀ e ∈ es, IsText e.stat ∧ e.stat.length ≤ smallCap) :
    Roomy base (es.foldl (ProcsState.entry pageKb refresh) s) := by
  induction es generalizing s with
  | nil => exact h
  | cons e es ih =>
      obtain ⟨ht, hlen⟩ := hes e List.mem_cons_self
      exact ih (h.entry ht hlen) fun x hx => hes x (List.mem_cons_of_mem e hx)

theorem stProcs_roomy {pageKb : UInt64} {m : ProcsMemo} {x : ProcsInput} {base : Nat}
    (hbase : x.wp.toNat + 2 = base) (hroom : base ≤ maxFrame - 16)
    (hes : ∀ es, x.dir = some es → ∀ e ∈ es, IsText e.stat ∧ e.stat.length ≤ smallCap) :
    ∃ s : ProcsState, (stProcs pageKb m x).2.listed = s.listed ∧ Roomy base s := by
  have hframe : maxFrame = 1048576 := rfl
  have hwp : (x.wp + 2).toNat = base := by
    rw [UInt64.toNat_add, ← hbase]
    exact Nat.mod_eq_of_lt (show x.wp.toNat + 2 < 2 ^ 64 by omega)
  have hstart : ∀ tables, Roomy base ⟨tables, 0, 0, [], x.wp + 2⟩ := fun tables =>
    { wp := by simp [hwp]
      room := by dsimp only; omega
      many := Nat.zero_le _
      comms := by simp }
  unfold stProcs
  cases hdir : x.dir with
  | none => exact ⟨_, rfl, hstart m.tables⟩
  | some es => exact ⟨_, rfl, (hstart _).entries (hes es hdir)⟩

/-- The process as the frame carries it. -/
def Listed.proc (p : Listed) : ProcStat :=
  { pid := p.pid, state := p.stat.state, kthread := p.stat.kthread, ticks := p.stat.ticks
    rssKb := p.stat.rssKb, threads := p.stat.threads, comm := asText p.stat.comm }

theorem length_putProc_le {p : Listed} (h : IsText p.stat.comm) :
    (putProc p.proc).length ≤ 28 + p.stat.comm.length := by
  have hle := strSize_asText_le h
  unfold putProc Listed.proc
  simp only [List.length_append, length_putStr, length_putU64, length_putU32,
    List.length_singleton]
  omega

theorem wProc_step {l : Listing} {bs : List UInt8} {p : Listed} (h : Composed l.t bs)
    (hcomm : IsText p.stat.comm)
    (hroom : 1 + bs.length + (28 + p.stat.comm.length) ≤ maxFrame - 16) :
    Composed (wProc l p).t (bs ++ putProc p.proc) := by
  have hhead := h.wBytes (putU32 p.pid ++ ([p.stat.state] ++
    ([if p.stat.kthread then 1 else 0] ++ (putU64 p.stat.ticks ++ (putU64 p.stat.rssKb ++
      putU32 p.stat.threads))))) (by simp; omega)
  have hall := hhead.wStr hcomm (by simp; omega)
  have hbytes : putProc p.proc = putU32 p.pid ++ ([p.stat.state] ++
      ([if p.stat.kthread then 1 else 0] ++ (putU64 p.stat.ticks ++ (putU64 p.stat.rssKb ++
        putU32 p.stat.threads)))) ++ putStr (asText p.stat.comm) := by
    simp only [putProc, Listed.proc, List.append_assoc]
    rfl
  rw [hbytes, ← List.append_assoc]
  simp only [wProc, wByte, wU32, wU64, wBytes_wBytes, List.append_assoc] at hall ⊢
  exact hall

theorem wProc_run {l : Listing} {bs : List UInt8} {ps : List Listed} (h : Composed l.t bs)
    (hcomms : ∀ p ∈ ps, IsText p.stat.comm)
    (hroom : 1 + bs.length + (ps.map fun p => 28 + p.stat.comm.length).sum ≤ maxFrame - 16) :
    Composed (ps.foldl wProc l).t (bs ++ (ps.map Listed.proc).flatMap putProc) ∧
      (ps.foldl wProc l).listed = l.listed + ps.length := by
  induction ps generalizing l bs with
  | nil => simpa using h
  | cons p ps ih =>
      rw [List.map_cons, List.sum_cons] at hroom
      have hp := hcomms p List.mem_cons_self
      have hlen := length_putProc_le hp
      have hstep := wProc_step h hp (by omega)
      obtain ⟨hrest, hcount⟩ := ih hstep (fun x hx => hcomms x (List.mem_cons_of_mem p hx))
        (by rw [List.length_append]; omega)
      rw [List.foldl_cons, List.map_cons, List.flatMap_cons, ← List.append_assoc]
      refine ⟨hrest, ?_⟩
      rw [hcount, List.length_cons]
      show l.listed + 1 + ps.length = _
      omega

theorem wProcs_listed {t : Tx} {bs : List UInt8} {r : ProcsReply} {s : ProcsState}
    (h : Composed t bs) (hr : r.listed = s.listed) (hs : Roomy (1 + bs.length + 2) s) :
    Composed (wProcs t r) (bs ++ (putList putProc (r.listed.map Listed.proc) ++
      (putU32 (UInt32.ofNat r.nprocs) ++ putU32 (UInt32.ofNat r.nkthreads)))) := by
  have hframe : maxFrame = 1048576 := rfl
  have hmost : maxProcs = 16384 := rfl
  have hlist : maxList = 65535 := rfl
  have hroom := hs.room
  have hmany := hs.many
  rw [hs.wp] at hroom
  rw [← hr] at hroom hmany
  have hcomms : ∀ p ∈ r.listed, IsText p.stat.comm := by
    rw [hr]
    exact fun p hp => (hs.comms p hp).1
  have hbegin := h.wBytes (putU16 0) (by simp; omega)
  obtain ⟨hrun, hlisted⟩ := wProc_run (l := listBegin t) hbegin hcomms
    (by rw [List.length_append, length_putU16]; omega)
  rw [List.append_assoc] at hrun
  have hend := hrun.store (v := UInt16.ofNat r.listed.length)
  have hlen := length_flatMap_le (fun p : Listed => putProc p.proc)
    (fun p => 28 + p.stat.comm.length) r.listed fun p hp => length_putProc_le (hcomms p hp)
  have hcount : (listBegin t).listed + r.listed.length = r.listed.length := Nat.zero_add _
  have hsum : 1 + (bs ++ (putU16 (UInt16.ofNat r.listed.length) ++
      (r.listed.map Listed.proc).flatMap putProc)).length ≤ maxFrame - 16 := by
    rw [List.flatMap_map]
    simp only [List.length_append, length_putU16]
    omega
  have hlast := hend.wBytes (putU32 (UInt32.ofNat r.nprocs) ++ putU32 (UInt32.ofNat r.nkthreads))
    (by
      simp only [List.length_append, length_putU32] at hsum ⊢
      omega)
  rw [putList_eq _ (by rw [List.length_map]; omega), List.length_map]
  simp only [wProcs, listEnd, hlisted, hcount, h.built.wp, wU32, wBytes_wBytes]
  simpa only [List.append_assoc] using hlast

/-! ## the frame -/

/-- What stands in front of the lists of devices. -/
def frontBytes (s : Stat) : List UInt8 :=
  putU64 s.uptimeMs ++ (putList putCpu s.cpus ++ (putMem s.mem ++ (putLoad s.load ++
    (putU32 s.running ++ (putU32 s.tasks ++
      putSensors ⟨s.temps, s.tempPeak, s.vcoreMv, s.coreMhz⟩)))))

theorem putStat_eq (s : Stat) :
    putStat s = frontBytes s ++ putDevs s.disks ++ putDevs s.nets ++
      (putList putProc s.procs ++ (putU32 s.nprocs ++ putU32 s.nkthreads)) := by
  simp only [putStat, frontBytes, putSensors, List.append_assoc]

/-- The sample but for its processes. -/
def sampledFront (fs : Files) (m : SampleMemo) : Stat :=
  let sensed := sensors fs (m.hwPath <|> hwScan fs)
  let tasks := runningTotal (loadTokens fs)[3]?
  { uptimeMs := uptimeMs fs
    cpus := cpuStats fs (coreIds fs m.cores (cpuLoads fs).length)
    mem := memFields fs
    load := loads fs
    running := tasks.1
    tasks := tasks.2
    temps := sensed.temps
    tempPeak := sensed.tempPeak
    vcoreMv := sensed.vcoreMv
    coreMhz := sensed.coreMhz
    disks := (diskDevices fs).map Device.stat
    nets := (netDevices fs).map Device.stat
    procs := []
    nprocs := 0
    nkthreads := 0 }

/-- What `st_procs` adds to it: the list's count and the two numbers are left of what
the frame takes without processes. -/
def sampledProcs (pageKb : UInt64) (fs : Files) (m : SampleMemo) : ProcsMemo × ProcsReply :=
  stProcs pageKb m.procs ⟨procEntries fs, UInt64.ofNat (1 + ((sampledFront fs m).size - 10))⟩

/-- What the agent says of the card. -/
def sampled (pageKb : UInt64) (fs : Files) (m : SampleMemo) : Stat :=
  let r := (sampledProcs pageKb fs m).2
  { sampledFront fs m with
    procs := r.listed.map Listed.proc
    nprocs := UInt32.ofNat r.nprocs
    nkthreads := UInt32.ofNat r.nkthreads }

/-- A frame that says the message, and was put together in `tx_buf`. -/
structure Sent (t : Tx) (msg : Msg) : Prop where
  frame : t.frame = msg.encode
  accepted : msg.Accepted
  high : t.high ≤ txCap

theorem length_setCpu {cpus : List (UInt32 × UInt32)} {n : Nat} (v : UInt32 × UInt32)
    (hlen : cpus.length ≤ ncpuMax) (hn : n < ncpuMax) : (setCpu cpus n v).length ≤ ncpuMax := by
  rw [setCpu, List.length_set, List.length_append, List.length_replicate]
  omega

theorem length_cpuLine {cpus : List (UInt32 × UInt32)} (h : cpus.length ≤ ncpuMax)
    (line : List UInt8) : (cpuLine cpus line).length ≤ ncpuMax := by
  unfold cpuLine
  cases nextToken line with
  | none => exact h
  | some p =>
      dsimp only
      split
      · cases parseU64 (p.1.drop 3) with
        | none => exact h
        | some n =>
            dsimp only
            split
            · exact h
            · next hn => exact length_setCpu _ h (by omega)
      · exact h

theorem length_cpuLoads_le (fs : Files) : (cpuLoads fs).length ≤ ncpuMax := by
  have hall : ∀ (ls : List (List UInt8)) cpus, cpus.length ≤ ncpuMax →
      (ls.foldl cpuLine cpus).length ≤ ncpuMax := by
    intro ls
    induction ls with
    | nil => exact fun _ h => h
    | cons l ls ih => exact fun cpus h => ih _ (length_cpuLine h l)
  exact hall _ [] (Nat.zero_le _)

theorem length_sensors_le (fs : Files) (hw : Option (List UInt8)) :
    (sensors fs hw).temps.length ≤ tempChannels := by
  cases hw with
  | none => exact Nat.zero_le _
  | some hw => simp [sensors]

theorem length_putList_le {α : Type} (put : α → List UInt8) (k : Nat)
    (hput : ∀ x, (put x).length = k) (xs : List α) (hmany : xs.length ≤ maxList) :
    (putList put xs).length = 2 + xs.length * k := by
  have hsum : (xs.map fun x => (put x).length).sum = xs.length * k := by
    simp only [hput, List.map_const', List.sum_replicate_nat]
  rw [putList_eq put hmany, List.length_append, length_putU16, List.length_flatMap, hsum]

/-- The tables of the sample are short. -/
theorem short_tables (fs : Files) (m : SampleMemo) :
    (sampledFront fs m).cpus.length ≤ 4096 ∧ (sampledFront fs m).temps.length ≤ 15 := by
  refine ⟨?_, length_sensors_le fs _⟩
  show (cpuStats fs _).length ≤ 4096
  rw [cpuStats, List.length_mapIdx]
  exact length_cpuLoads_le fs

theorem length_frontBytes_le (fs : Files) (m : SampleMemo) :
    (frontBytes (sampledFront fs m)).length ≤ 41100 := by
  have hlist : maxList = 65535 := rfl
  obtain ⟨hcpus, htemps⟩ := short_tables fs m
  have hc := length_putList_le putCpu 10 (fun c => by simp [putCpu])
    (sampledFront fs m).cpus (by omega)
  have ht := length_putList_le putI16 2 length_putI16 (sampledFront fs m).temps (by omega)
  simp only [frontBytes, putSensors, putMem, putLoad, List.length_append, length_putU64,
    length_putU32, length_putU16, length_putI16, hc, ht]
  omega

theorem composed_fBegin (buf : Nat → UInt8) :
    Composed ((⟨buf, 0, 0⟩ : Tx).fBegin (Tag.toByte .statReply)) [] where
  built := built_fBegin _ _
  high := show max 0 (4 + 1) ≤ 4 + maxFrame by decide

/-- The parts in front of the lists. -/
theorem composed_statFront (fs : Files) (m : SampleMemo) (buf : Nat → UInt8) :
    Composed (statFront fs m buf) (frontBytes (sampledFront fs m)) := by
  have hframe : maxFrame = 1048576 := rfl
  have hlist : maxList = 65535 := rfl
  obtain ⟨hcpus, htemps⟩ := short_tables fs m
  have hlen := length_frontBytes_le fs m
  have hall := (composed_fBegin buf).wBytes (frontBytes (sampledFront fs m))
    (by rw [List.length_nil]; omega)
  rw [List.nil_append] at hall
  have hc : (cpuStats fs (coreIds fs m.cores (cpuLoads fs).length)).length ≤ maxList :=
    Nat.le_trans hcpus (by omega)
  have ht : (sensors fs (m.hwPath <|> hwScan fs)).temps.length ≤ maxList :=
    Nat.le_trans htemps (by omega)
  unfold statFront
  dsimp only
  rw [stCpus_eq _ hc, stMem_eq, stLoad_eq, stSensors_eq _ ht]
  simp only [wU64, wBytes_wBytes, List.append_assoc]
  exact hall

/-- What the list of processes has in front of it. -/
theorem length_front (s : Stat) (hprocs : s.procs = []) :
    s.size - 10 = (frontBytes s ++ putDevs s.disks ++ putDevs s.nets).length := by
  have hnil : (putList putProc []).length = 2 := rfl
  rw [← length_putStat, putStat_eq, hprocs]
  simp only [List.length_append, length_putU32, hnil]
  omega

/-- The lists of devices, which the texts bound. -/
theorem composed_statDevices (fs : Files) (m : SampleMemo) (buf : Nat → UInt8)
    (hdevices : (readBig fs "/proc/diskstats").length + (readBig fs "/proc/net/dev").length ≤
      1000000) :
    Composed (statDevices fs m buf) (frontBytes (sampledFront fs m) ++
      putDevs (sampledFront fs m).disks ++ putDevs (sampledFront fs m).nets) ∧
      (sampledFront fs m).size ≤ maxFrame - 9 := by
  have hframe : maxFrame = 1048576 := rfl
  have hlist : maxList = 65535 := rfl
  have hlen := length_frontBytes_le fs m
  have hdisks : FromText (diskDevices fs) (readBig fs "/proc/diskstats") :=
    fromText_filterMap brief_diskLine (isText_readText fs _ bigCap)
  have hnets : FromText (netDevices fs) (readBig fs "/proc/net/dev") :=
    fromText_filterMap brief_netLine (isText_readText fs _ bigCap)
  have hmanyd := hdisks.length
  have hmanyn := hnets.length
  have hsized := hdisks.size
  have hsizen := hnets.size
  have hputd := length_putDevs_le hdisks.names (by omega)
  have hputn := length_putDevs_le hnets.names (by omega)
  have hfirst := stDevices_listed (composed_statFront fs m buf) hdisks.names (by omega) (by omega)
  have hsecond := stDevices_listed hfirst hnets.names (by omega)
    (by rw [List.length_append]; omega)
  refine ⟨hsecond, ?_⟩
  have hsize := length_front (sampledFront fs m) rfl
  have hd : (sampledFront fs m).disks = (diskDevices fs).map Device.stat := rfl
  have hn : (sampledFront fs m).nets = (netDevices fs).map Device.stat := rfl
  rw [List.length_append, List.length_append, hd, hn] at hsize
  omega

theorem procEntries_text (fs : Files) :
    ∀ es, procEntries fs = some es → ∀ e ∈ es, IsText e.stat ∧ e.stat.length ≤ smallCap := by
  intro es hes e he
  obtain ⟨names, -, rfl⟩ := Option.map_eq_some_iff.1 hes
  obtain ⟨n, -, rfl⟩ := List.mem_map.1 he
  exact ⟨isText_readText _ _ _, length_readText_le _ _ _⟩

/-- The frame of a message whose fields stand behind the tag. -/
theorem sent_of_built {t : Tx} {msg : Msg} {bs : List UInt8}
    (h : t.Built msg.tag.toByte bs) (hbs : bs = msg.fields) (hsize : msg.size < maxFrame)
    (hhigh : t.high ≤ txCap) : Sent t.fFinish msg where
  frame := by
    have hlen : (UInt32.ofNat (1 + msg.fields.length)).toNat = 1 + msg.fields.length := by
      rw [msg.length_fields]
      exact UInt32.toNat_ofNat_of_lt' (show _ < 2 ^ 32 from Nat.lt_of_le_of_lt
        (show 1 + msg.size ≤ maxFrame by omega) (by decide))
    rw [h.frame, hbs, Msg.encode, putU32, hlen]
  accepted := Msg.accepted_of_size_lt hsize
  high := by
    rw [Tx.high_fFinish]
    exact Nat.max_le.2 ⟨hhigh, by decide⟩

theorem Composed.sent {t : Tx} {s : Stat} (h : Composed t (putStat s)) :
    Sent t.fFinish (.statReply s) := by
  have hhigh := h.high
  have hreach := h.built.high
  rw [h.built.wp, length_putStat] at hreach
  have hsize : (Msg.statReply s).size = s.size := rfl
  refine sent_of_built h.built rfl (by omega) ?_
  have hcap : txCap = 2 * maxFrame := rfl
  have hframe : maxFrame = 1048576 := rfl
  omega

/-- The processes start where the devices end. -/
theorem bodyAt_statDevices (fs : Files) (m : SampleMemo) (buf : Nat → UInt8)
    (hdevices : (readBig fs "/proc/diskstats").length + (readBig fs "/proc/net/dev").length ≤
      1000000) :
    bodyAt (statDevices fs m buf) = UInt64.ofNat (1 + ((sampledFront fs m).size - 10)) := by
  have hwithin := (composed_statDevices fs m buf hdevices).1
  rw [bodyAt, hwithin.built.wp, length_front (sampledFront fs m) rfl]
  congr 1
  omega

/-- What is listed of them has room behind the devices. -/
theorem sampledProcs_roomy (pageKb : UInt64) (fs : Files) (m : SampleMemo)
    (hdevices : (readBig fs "/proc/diskstats").length + (readBig fs "/proc/net/dev").length ≤
      1000000) :
    ∃ s : ProcsState, (sampledProcs pageKb fs m).2.listed = s.listed ∧
      Roomy (1 + ((sampledFront fs m).size - 10) + 2) s := by
  have hframe : maxFrame = 1048576 := rfl
  have hsize := (composed_statDevices fs m (fun _ => 0) hdevices).2
  have hwp : (UInt64.ofNat (1 + ((sampledFront fs m).size - 10))).toNat =
      1 + ((sampledFront fs m).size - 10) :=
    UInt64.toNat_ofNat_of_lt' (show _ < 2 ^ 64 by omega)
  exact stProcs_roomy (congrArg (· + 2) hwp) (by omega) (procEntries_text fs)

/-- All of the reply before its length is put in. -/
theorem composed_statReply (pageKb : UInt64) (fs : Files) (m : SampleMemo) (buf : Nat → UInt8)
    (hdevices : (readBig fs "/proc/diskstats").length + (readBig fs "/proc/net/dev").length ≤
      1000000) :
    ∃ t, (statReply pageKb fs m buf).2 = t.fFinish ∧
      Composed t (putStat (sampled pageKb fs m)) := by
  have hwithin := (composed_statDevices fs m buf hdevices).1
  obtain ⟨s, hlisted, hroomy⟩ := sampledProcs_roomy pageKb fs m hdevices
  rw [length_front (sampledFront fs m) rfl] at hroomy
  have hall := wProcs_listed hwithin hlisted hroomy
  have hstat : putStat (sampled pageKb fs m) = frontBytes (sampledFront fs m) ++
      putDevs (sampledFront fs m).disks ++ putDevs (sampledFront fs m).nets ++
      (putList putProc ((sampledProcs pageKb fs m).2.listed.map Listed.proc) ++
        (putU32 (UInt32.ofNat (sampledProcs pageKb fs m).2.nprocs) ++
          putU32 (UInt32.ofNat (sampledProcs pageKb fs m).2.nkthreads))) := putStat_eq _
  refine ⟨wProcs (statDevices fs m buf) (sampledProcs pageKb fs m).2, ?_, ?_⟩
  · unfold statReply
    dsimp only
    rw [bodyAt_statDevices fs m buf hdevices]
    rfl
  · rw [hstat]
    exact hall

/-- **A sample is sent in a frame its receiver accepts**, as long as the kernel's texts
of its disks and interfaces are together no longer than a million bytes: it says what the
files said, every device and as many processes as there is room for. -/
theorem sample_sent (pageKb : UInt64) (fs : Files) (m : SampleMemo) (buf : Nat → UInt8)
    (hdevices : (readBig fs "/proc/diskstats").length + (readBig fs "/proc/net/dev").length ≤
      1000000) :
    Sent (statReply pageKb fs m buf).2 (.statReply (sampled pageKb fs m)) := by
  obtain ⟨t, ht, hwithin⟩ := composed_statReply pageKb fs m buf hdevices
  rw [ht]
  exact hwithin.sent

/-- An interface and a process of a card that has been up for a while. -/
def twoFiles : Files where
  file path :=
    if path = bytes "/proc/uptime" then some (bytes "139.78 3.1")
    else if path = bytes "/proc/net/dev" then some (bytes "mic0: 7 1 0 0 0 0 0 0 9 1")
    else none
  names _ := none

theorem sample_sent_two :
    Sent (statReply 4 twoFiles ⟨[], none, .initial (fun _ => ⟨0, 0⟩) fun _ => ⟨0, 0⟩⟩
        fun _ => 0).2
      (.statReply (sampled 4 twoFiles
        ⟨[], none, .initial (fun _ => ⟨0, 0⟩) fun _ => ⟨0, 0⟩⟩)) :=
  sample_sent 4 twoFiles _ _ (by decide +kernel)

/-! ## errors -/

theorem foldl_wBytes_flatten (t : Tx) (bs : List UInt8) (pieces : List (List UInt8)) :
    pieces.foldl Tx.wBytes (t.wBytes bs) = t.wBytes (bs ++ pieces.flatten) := by
  induction pieces generalizing bs with
  | nil => rw [List.flatten_nil, List.append_nil, List.foldl_nil]
  | cons p pieces ih =>
      rw [List.foldl_cons, wBytes_wBytes, ih, List.flatten_cons, List.append_assoc]

/-- An error is sent too, in whatever pieces its text is written. -/
theorem error_sent (buf : Nat → UInt8) {piece : List UInt8} {pieces : List (List UInt8)}
    (htext : IsText (piece ++ pieces.flatten))
    (hlen : 7 + (piece ++ pieces.flatten).length ≤ txCap) :
    Sent (errorFrame buf (piece :: pieces)) (.error (asText (piece ++ pieces.flatten))) := by
  generalize hall : piece ++ pieces.flatten = text at *
  have hstr : agentStr ((⟨buf, 0, 0⟩ : Tx).fBegin (Tag.toByte .error)) (piece :: pieces) =
      ((⟨buf, 0, 0⟩ : Tx).fBegin (Tag.toByte .error)).wStr text := by
    rw [agentStr, List.foldl_cons, foldl_wBytes_flatten, hall]
    rfl
  have hsane : ¬ Runaway text := by
    rw [← bytes_asText htext]
    exact not_runaway_bytes _
  obtain ⟨hbuilt, hhigh⟩ := (built_fBegin ⟨buf, 0, 0⟩ (Tag.toByte .error)).wStr hsane
  have hput : [] ++ wireStr text = (Msg.error (asText text)).fields := by
    show _ = putStr (asText text)
    rw [putStr_eq, List.nil_append]
    conv => lhs; rw [← bytes_asText htext]
    rfl
  rw [errorFrame, hstr]
  refine sent_of_built hbuilt hput (Msg.size_lt (by simp [Msg.tag]) (by simp [Msg.tag])) ?_
  rw [hhigh]
  exact Nat.max_le.2 ⟨show max 0 (4 + 1) ≤ txCap by decide, hlen⟩

end Phi.Card
