import Phi.Rpc.Msg

/-!
# Phi.Rpc.RoundTrip

What is decoded of an encoded message.

Each field is read back as it was written, strings and lists as far as they
were not clipped; `Msg.normal` is the message that comes out.
-/

namespace Phi.Rpc

open Phi.Serve Utf8 Reader

/-! ## the normal form -/

/-- The longest prefix of at most `maxString` bytes. -/
def clipped (s : String) : String := String.ofList (fitting maxString s.toList)

def DevStat.normal (d : DevStat) : DevStat := { d with name := clipped d.name }

def ProcStat.normal (p : ProcStat) : ProcStat := { p with comm := clipped p.comm }

def Stat.normal (s : Stat) : Stat :=
  { s with
    cpus := s.cpus.take maxList
    temps := s.temps.take maxList
    disks := (s.disks.take maxList).map DevStat.normal
    nets := (s.nets.take maxList).map DevStat.normal
    procs := (s.procs.take maxList).map ProcStat.normal }

/-- A message with each string and list clipped, and no empty directory. -/
def Msg.normal : Msg → Msg
  | .exec argv env cwd =>
      .exec ((argv.take maxList).map clipped)
        ((env.take maxList).map fun e => (clipped e.1, clipped e.2))
        ((cwd.filter (· ≠ "")).map clipped)
  | .putOpen path mode => .putOpen (clipped path) mode
  | .get path => .get (clipped path)
  | .error text => .error (clipped text)
  | .pong version => .pong (clipped version)
  | .sensorsReply text => .sensorsReply (clipped text)
  | .statReply s => .statReply s.normal
  | m => m

/-! ## clipping -/

theorem boundaryFrom_eq {bs : List UInt8} {p n : Nat} (hle : p ≤ n)
    (hp : isCharBoundary bs p = true)
    (hbetween : ∀ i, p < i → i ≤ n → isCharBoundary bs i = false) : boundaryFrom bs n = p := by
  induction n with
  | zero =>
      have hzero : p = 0 := by omega
      rw [hzero]
      rfl
  | succ n ih =>
      by_cases heq : p = n + 1
      · rw [boundaryFrom, ← heq, if_pos hp]
      · rw [boundaryFrom, if_neg (by rw [hbetween (n + 1) (by omega) (by omega)]; decide)]
        exact ih (by omega) fun i h1 h2 => hbetween i h1 (by omega)

/-- Stepping back over continuation bytes finds the last character that fits. -/
theorem clip_eq (s : String) (max : Nat) : clip s max = encode (fitting max s.toList) := by
  unfold clip bytes
  dsimp only
  by_cases hlen : (encode s.toList).length ≤ max
  · rw [if_pos hlen, fitting_eq_self hlen]
  · rw [if_neg hlen]
    obtain ⟨c, rest, hsplit, hle, hlt⟩ := fitting_cut max s.toList (by omega)
    generalize fitting max s.toList = kept at hsplit hle hlt
    obtain ⟨a, tl, hc, hhead, htails⟩ := (encoded_utf8EncodeChar c).tails
    have hbytes : encode s.toList = encode kept ++ (a :: tl ++ encode rest) := by
      rw [hsplit, encode_append, encode_cons, hc]
    have hsize : c.utf8Size = tl.length + 1 := by
      rw [← String.length_utf8EncodeChar, hc, List.length_cons]
    rw [hbytes, boundaryFrom_eq hle, List.take_left]
    · unfold isCharBoundary
      rw [List.getElem?_append_right (Nat.le_refl _), Nat.sub_self]
      simp [hhead]
    · intro i hi hmax
      obtain ⟨k, rfl⟩ := Nat.exists_eq_add_of_lt hi
      have hk : k < tl.length := by omega
      have hget : (encode kept ++ (a :: tl ++ encode rest))[(encode kept).length + k + 1]? =
          some tl[k] := by
        rw [Nat.add_assoc, List.getElem?_append_right (Nat.le_add_right _ _),
          Nat.add_sub_cancel_left, List.cons_append, List.getElem?_cons_succ,
          List.getElem?_append_left hk, List.getElem?_eq_getElem hk]
      unfold isCharBoundary
      rw [hget]
      simp [htails _ (List.getElem_mem hk)]

theorem clip_maxString (s : String) : clip s maxString = bytes (clipped s) := by
  rw [clip_eq, clipped, bytes, String.toList_ofList]

/-! ## field by field -/

theorem reads_u8 (v : UInt8) : Reads Read.u8 [v] v := by
  have h := (reads_take (n := 1) (rfl : [v].length = 1)).map (f := fun b => UInt8.ofNat (ofLe b))
  have hv : UInt8.ofNat (ofLe [v]) = v := by
    rw [ofLe, ofLe, Nat.mul_zero, Nat.add_zero, UInt8.ofNat_toNat]
  rwa [hv] at h

theorem reads_u16 (v : UInt16) : Reads Read.u16 (putU16 v) v := by
  have h := (reads_take (length_leBytes 2 v.toNat)).map (f := fun b => UInt16.ofNat (ofLe b))
  rwa [ofLe_leBytes v.toNat_lt, UInt16.ofNat_toNat] at h

theorem reads_u32 (v : UInt32) : Reads Read.u32 (putU32 v) v := by
  have h := (reads_take (length_leBytes 4 v.toNat)).map (f := fun b => UInt32.ofNat (ofLe b))
  rwa [ofLe_leBytes v.toNat_lt, UInt32.ofNat_toNat] at h

theorem reads_u64 (v : UInt64) : Reads Read.u64 (putU64 v) v := by
  have h := (reads_take (length_leBytes 8 v.toNat)).map (f := fun b => UInt64.ofNat (ofLe b))
  rwa [ofLe_leBytes v.toNat_lt, UInt64.ofNat_toNat] at h

theorem reads_i16 (v : Int16) : Reads Read.i16 (putI16 v) v := by
  have h := (reads_u16 v.toUInt16).map (f := UInt16.toInt16)
  rwa [Int16.toInt16_toUInt16] at h

/-- A count the encoder wrote. -/
theorem toNat_ofNat_of_le {n : Nat} (h : n ≤ 65535) : (UInt16.ofNat n).toNat = n := by
  rw [UInt16.toNat_ofNat']
  omega

theorem reads_str (s : String) : Reads Read.str (putStr s) (clipped s) := by
  have hlen : (clip s maxString).length ≤ 65535 := by
    rw [clip_eq]
    exact length_encode_fitting_le _ _
  have hbody : Reads (do
      let b ← Reader.take (UInt16.ofNat (clip s maxString).length).toNat
      Reader.check (decode b)) (clip s maxString ++ []) (clipped s) := by
    refine (reads_take (toNat_ofNat_of_le hlen).symm).bind ?_
    rw [clip_maxString, decode_bytes]
    exact reads_check _
  rw [List.append_nil] at hbody
  exact (reads_u16 _).bind hbody

theorem reads_list {α γ : Type} {r : Reader α} {put : γ → List UInt8} {val : γ → α}
    (h : ∀ x, Reads r (put x) (val x)) (xs : List γ) :
    Reads (Read.list r) (putList put xs) ((xs.take maxList).map val) := by
  have hlen : (xs.take maxList).length = min xs.length maxList := by
    rw [List.length_take, Nat.min_comm]
  have hmany := Reads.many (r := r) fun x (_ : x ∈ xs.take maxList) => h x
  have htake : xs.take (min xs.length maxList) = xs.take maxList := by
    rw [Nat.min_comm, ← List.take_take, List.take_length]
  have hcount : (UInt16.ofNat (min xs.length maxList)).toNat = min xs.length maxList :=
    toNat_ofNat_of_le (Nat.min_le_right _ _)
  unfold putList putCount
  dsimp only
  rw [htake]
  refine (reads_u16 _).bind ?_
  rwa [hcount, ← hlen]

theorem reads_dev (d : DevStat) : Reads Read.dev (putDev d) d.normal :=
  (reads_str d.name).bind <| (reads_u64 d.read).bind (reads_u64 d.written).map

theorem reads_cpu (c : CpuStat) : Reads Read.cpu (putCpu c) c :=
  (reads_u16 c.core).bind <| (reads_u32 c.busy).bind (reads_u32 c.idle).map

theorem reads_mem (m : MemStat) : Reads Read.mem (putMem m) m :=
  (reads_u64 m.totalKb).bind <| (reads_u64 m.availKb).bind <| (reads_u64 m.buffersKb).bind <|
    (reads_u64 m.cachedKb).bind <| (reads_u64 m.swapTotalKb).bind (reads_u64 m.swapFreeKb).map

theorem reads_load (l : UInt16 × UInt16 × UInt16) : Reads Read.load (putLoad l) l :=
  (reads_u16 l.1).bind <| (reads_u16 l.2.1).bind (reads_u16 l.2.2).map

/-- The flag is a byte that is zero or not. -/
theorem reads_proc (p : ProcStat) : Reads Read.proc (putProc p) p.normal := by
  have hkthread : decide ((if p.kthread then (1 : UInt8) else 0) ≠ 0) = p.kthread := by
    cases p.kthread
    · rfl
    · rfl
  have hnormal : p.normal = ⟨p.pid, p.state, decide ((if p.kthread then (1 : UInt8) else 0) ≠ 0),
      p.ticks, p.rssKb, p.threads, clipped p.comm⟩ := by
    rw [hkthread]
    rfl
  rw [hnormal]
  unfold putProc
  generalize (if p.kthread then (1 : UInt8) else 0) = flag
  exact (reads_u32 p.pid).bind <| (reads_u8 p.state).bind <| (reads_u8 flag).bind <|
    (reads_u64 p.ticks).bind <| (reads_u64 p.rssKb).bind <| (reads_u32 p.threads).bind
    (reads_str p.comm).map

theorem reads_stat (s : Stat) : Reads Read.stat (putStat s) s.normal := by
  have hcpus := reads_list reads_cpu s.cpus
  have htemps := reads_list reads_i16 s.temps
  rw [List.map_id'] at hcpus htemps
  exact (reads_u64 s.uptimeMs).bind <| hcpus.bind <| (reads_mem s.mem).bind <|
    (reads_load s.load).bind <| (reads_u32 s.running).bind <| (reads_u32 s.tasks).bind <|
    htemps.bind <| (reads_i16 s.tempPeak).bind <| (reads_u32 s.vcoreMv).bind <|
    (reads_u32 s.coreMhz).bind <| (reads_list reads_dev s.disks).bind <|
    (reads_list reads_dev s.nets).bind <| (reads_list reads_proc s.procs).bind <|
    (reads_u32 s.nprocs).bind (reads_u32 s.nkthreads).map

theorem reads_pair (e : String × String) :
    Reads Read.pair (putPair e) (clipped e.1, clipped e.2) :=
  (reads_str e.1).bind (reads_str e.2).map

theorem reads_traffic (t : Traffic) : Reads Read.traffic (putTraffic t) t :=
  (reads_u64 t.dmaToCard).bind <| (reads_u64 t.dmaFromCard).bind <|
    (reads_u64 t.apertureToCard).bind <| (reads_u64 t.apertureFromCard).bind <|
    (reads_u64 t.dmaCopiesToCard).bind (reads_u64 t.dmaCopiesFromCard).map

theorem reads_exit (code : Int32) : Reads Read.exit (putU32 code.toUInt32) (.exit code) := by
  have h := (reads_u32 code.toUInt32).map (f := fun v => Msg.exit v.toInt32)
  rwa [Int32.toInt32_toUInt32] at h

/-! ## the message -/

/-- Clipping leaves a first character. -/
theorem clipped_eq_empty_iff {s : String} : clipped s = "" ↔ s = "" := by
  constructor
  · intro h
    have hchars := congrArg String.toList h
    rw [clipped, String.toList_ofList] at hchars
    cases hs : s.toList with
    | nil => exact String.toList_eq_nil_iff.mp hs
    | cons c cs =>
        have hsize := c.utf8Size_le_four
        rw [hs, fitting, if_pos (by unfold maxString; omega)] at hchars
        simp at hchars
  · rintro rfl
    rfl

/-- An empty directory is no directory. -/
theorem normal_cwd (cwd : Option String) :
    (if clipped (cwd.getD "") = "" then none else some (clipped (cwd.getD ""))) =
      (cwd.filter (· ≠ "")).map clipped := by
  cases cwd with
  | none => rfl
  | some s =>
      by_cases hs : s = ""
      · subst hs
        rfl
      · have hclip : clipped s ≠ "" := fun h => hs (clipped_eq_empty_iff.mp h)
        simp [Option.filter, hs, hclip]

/-- The fields of a message give the message, and nothing is left of them. -/
theorem fields_read (m : Msg) : Read.fields m.tag m.fields = some (m.normal, []) := by
  have hall : ∀ {r : Reader Msg} {bs : List UInt8} {a : Msg}, Reads r bs a →
      r bs = some (a, []) := by
    intro r bs a h
    have hnil := h []
    rwa [List.append_nil] at hnil
  cases m with
  | exec argv env cwd =>
      have hnormal : (Msg.exec argv env cwd).normal = .exec ((argv.take maxList).map clipped)
          ((env.take maxList).map fun e => (clipped e.1, clipped e.2))
          (if clipped (cwd.getD "") = "" then none else some (clipped (cwd.getD ""))) := by
        rw [normal_cwd]
        rfl
      rw [hnormal]
      exact hall ((reads_list reads_str argv).bind <| (reads_list reads_pair env).bind
        (reads_str (cwd.getD "")).map)
  | exit code => exact hall (reads_exit code)
  | putOpen path mode => exact hall ((reads_str path).bind (reads_u32 mode).map)
  | get path => exact hall (reads_str path).map
  | getEnd size => exact hall (reads_u64 size).map
  | error text => exact hall (reads_str text).map
  | pong version => exact hall (reads_str version).map
  | sensorsReply text => exact hall (reads_str text).map
  | statReply s => exact hall (reads_stat s).map
  | trafficReply t => exact hall (reads_traffic t).map
  | stdin data => rfl
  | stdout data => rfl
  | stderr data => rfl
  | putData data => rfl
  | getData data => rfl
  | stdinEof => rfl
  | putClose => rfl
  | ping => rfl
  | sensors => rfl
  | stat => rfl
  | traffic => rfl

theorem decodeBody_fields (m : Msg) : decodeBody m.tag.toByte m.fields = .ok m.normal := by
  unfold decodeBody
  rw [Tag.ofByte_toByte]
  dsimp only
  rw [fields_read]

end Phi.Rpc
