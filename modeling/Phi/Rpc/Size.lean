import Mathlib.Algebra.BigOperators.Group.List.Basic
import Phi.Rpc.Stream

/-!
# Phi.Rpc.Size

How large the frame of a message is.

The encoder clips each string to 65535 bytes and each list to 65535 items, and
promises a frame that its receiver accepts.  What has to be within the limit is
the sum: `Msg.size` adds up what the clipped fields take, and the promise holds
exactly where it is below `maxFrame`.  Nothing bounds it for the strings of a
command and the lists of a sample.
-/

namespace Phi.Rpc

open Phi.Serve Utf8

/-! ## what the fields take -/

def strSize (s : String) : Nat := 2 + (bytes (clipped s)).length

def listSize {α : Type} (size : α → Nat) (xs : List α) : Nat :=
  2 + ((xs.take maxList).map size).sum

def devsSize (ds : List DevStat) : Nat := listSize (fun d => strSize d.name + 16) ds

def Stat.size (s : Stat) : Nat :=
  8 + listSize (fun _ => 10) s.cpus + 62 + listSize (fun _ => 2) s.temps + 10 + devsSize s.disks +
    devsSize s.nets + listSize (fun p => 26 + strSize p.comm) s.procs + 8

/-- Bytes of the fields of a message, strings and lists clipped. -/
def Msg.size : Msg → Nat
  | .exec argv env cwd =>
      listSize strSize argv + listSize (fun e => strSize e.1 + strSize e.2) env +
        strSize (cwd.getD "")
  | .exit _ => 4
  | .putOpen path _ => strSize path + 4
  | .get path => strSize path
  | .getEnd _ => 8
  | .error text => strSize text
  | .pong version => strSize version
  | .sensorsReply text => strSize text
  | .statReply s => s.size
  | .trafficReply _ => 48
  | .stdin data | .stdout data | .stderr data | .putData data | .getData data => data.length
  | .stdinEof | .putClose | .ping | .sensors | .stat | .traffic => 0

theorem Msg.size_exec (argv : List String) (env : List (String × String)) (cwd : Option String) :
    (Msg.exec argv env cwd).size = listSize strSize argv +
      listSize (fun e => strSize e.1 + strSize e.2) env + strSize (cwd.getD "") := rfl

@[simp] theorem length_putU16 (v : UInt16) : (putU16 v).length = 2 := length_leBytes _ _
@[simp] theorem length_putU32 (v : UInt32) : (putU32 v).length = 4 := length_leBytes _ _
@[simp] theorem length_putU64 (v : UInt64) : (putU64 v).length = 8 := length_leBytes _ _
@[simp] theorem length_putI16 (v : Int16) : (putI16 v).length = 2 := length_leBytes _ _

@[simp] theorem length_putStr (s : String) : (putStr s).length = strSize s := by
  unfold putStr strSize
  rw [clip_maxString]
  simp

theorem length_putList {α : Type} (put : α → List UInt8) (size : α → Nat)
    (h : ∀ x, (put x).length = size x) (xs : List α) :
    (putList put xs).length = listSize size xs := by
  have htake : xs.take (min xs.length maxList) = xs.take maxList := by
    rw [Nat.min_comm, ← List.take_take, List.take_length]
  have hfun : (fun x => (put x).length) = size := funext h
  unfold putList putCount listSize
  dsimp only
  rw [htake, List.length_append, length_putU16, List.length_flatMap, hfun]

theorem length_putDevs (ds : List DevStat) : (putDevs ds).length = devsSize ds :=
  length_putList putDev (fun d => strSize d.name + 16) (fun d => by simp [putDev]) ds

theorem length_putStat (s : Stat) : (putStat s).length = s.size := by
  have hcpus := length_putList putCpu (fun _ => 10) (fun c => by simp [putCpu]) s.cpus
  have htemps := length_putList putI16 (fun _ => 2) length_putI16 s.temps
  have hprocs := length_putList putProc (fun p => 26 + strSize p.comm)
    (fun p => by simp [putProc]; omega) s.procs
  unfold putStat Stat.size
  simp only [List.length_append, length_putU64, length_putU32, length_putI16, putMem, putLoad,
    length_putU16, length_putDevs, hcpus, htemps, hprocs]
  omega

/-- The encoder writes as many bytes as `Msg.size` says. -/
theorem Msg.length_fields (m : Msg) : m.fields.length = m.size := by
  cases m with
  | exec argv env cwd =>
      have hargv := length_putList putStr strSize length_putStr argv
      have henv := length_putList putPair (fun e => strSize e.1 + strSize e.2)
        (fun e => by simp [putPair]) env
      unfold fields size
      simp only [List.length_append, hargv, henv, length_putStr]
      omega
  | statReply s => exact length_putStat s
  | trafficReply t => simp [fields, size, putTraffic]
  | exit code => simp [fields, size]
  | putOpen path mode => simp [fields, size]
  | get path => simp [fields, size]
  | getEnd n => simp [fields, size]
  | error text => simp [fields, size]
  | pong version => simp [fields, size]
  | sensorsReply text => simp [fields, size]
  | stdin data => rfl
  | stdout data => rfl
  | stderr data => rfl
  | putData data => rfl
  | getData data => rfl
  | stdinEof => rfl
  | putClose => rfl
  | ping => rfl
  | sensors => rfl
  | stat => rfl
  | traffic => rfl

/-! ## what is accepted -/

/-- The frame is within the limit, and the receiver makes a message of it. -/
structure Msg.Accepted (m : Msg) : Prop where
  within : m.body.length ≤ maxFrame
  decodes : ∃ m', decoder.feed [] [m.encode] = ([.ok m'], [])

theorem strSize_le (s : String) : strSize s ≤ 2 + maxString := by
  have h := length_encode_fitting_le maxString s.toList
  unfold strSize clipped bytes
  rw [String.toList_ofList]
  omega

/-- Messages of one string or of fixed size are within the limit. -/
theorem Msg.size_lt {m : Msg} (hdata : m.tag ∉ [.stdin, .stdout, .stderr, .putData, .getData])
    (hlists : m.tag ≠ .exec ∧ m.tag ≠ .statReply) : m.size < maxFrame := by
  have hstr := fun s => Nat.lt_of_le_of_lt (Nat.add_le_add_right (strSize_le s) 4)
    (show 2 + maxString + 4 < maxFrame by decide)
  cases m with
  | exec argv env cwd => exact absurd rfl hlists.1
  | statReply s => exact absurd rfl hlists.2
  | putOpen path mode => exact hstr path
  | get path => exact Nat.lt_of_le_of_lt (Nat.le_add_right _ 4) (hstr path)
  | error text => exact Nat.lt_of_le_of_lt (Nat.le_add_right _ 4) (hstr text)
  | pong version => exact Nat.lt_of_le_of_lt (Nat.le_add_right _ 4) (hstr version)
  | sensorsReply text => exact Nat.lt_of_le_of_lt (Nat.le_add_right _ 4) (hstr text)
  | stdin data => simp [tag] at hdata
  | stdout data => simp [tag] at hdata
  | stderr data => simp [tag] at hdata
  | putData data => simp [tag] at hdata
  | getData data => simp [tag] at hdata
  | exit code => exact (by decide : 4 < maxFrame)
  | getEnd n => exact (by decide : 8 < maxFrame)
  | trafficReply t => exact (by decide : 48 < maxFrame)
  | stdinEof => exact (by decide : 0 < maxFrame)
  | putClose => exact (by decide : 0 < maxFrame)
  | ping => exact (by decide : 0 < maxFrame)
  | sensors => exact (by decide : 0 < maxFrame)
  | stat => exact (by decide : 0 < maxFrame)
  | traffic => exact (by decide : 0 < maxFrame)

theorem Msg.length_body (m : Msg) : m.body.length = m.size + 1 := by
  unfold Msg.body
  rw [List.length_cons, m.length_fields]

theorem Msg.accepted_of_size_lt {m : Msg} (h : m.size < maxFrame) : m.Accepted := by
  have hfit : m.body.length ≤ maxFrame := by
    rw [m.length_body]
    omega
  have hrec : Recognises decoderNext Msg.encode (fun m => .ok m.normal) [m] := {
    shrinks := decoder_shrinks
    nil := rfl
    whole := fun x hx more => by
      rw [List.mem_singleton.mp hx]
      exact decoderNext_encode hfit more
    part := fun x hx p more hp hmore => by
      rw [List.mem_singleton.mp hx] at hp
      exact decoderNext_part hfit hp hmore }
  exact ⟨hfit, m.normal, hrec.feed (by simp) rfl⟩

theorem Msg.Accepted.size_lt {m : Msg} (h : m.Accepted) : m.size < maxFrame := by
  have hwithin := h.within
  rw [m.length_body] at hwithin
  omega

/-- **A message is sent in a frame its receiver accepts** exactly when what its
fields take, strings and lists clipped, is less than `maxFrame` bytes. -/
theorem accepted_iff (m : Msg) : m.Accepted ↔ m.size < maxFrame := by
  constructor
  · intro h
    exact h.size_lt
  · intro h
    exact Msg.accepted_of_size_lt h

/-- A command line of `k` arguments of `n` letters each. -/
def letters (k n : Nat) : Msg :=
  .exec (List.replicate k (String.ofList (List.replicate n 'a'))) [] none

theorem length_encode_replicate (n : Nat) : (encode (List.replicate n 'a')).length = n := by
  induction n with
  | zero => rfl
  | succ n ih =>
      rw [List.replicate_succ, encode_cons, List.length_append, ih, String.length_utf8EncodeChar]
      exact Nat.add_comm 1 n

theorem letters_size {k n : Nat} (hk : k ≤ maxList) (hn : n ≤ maxString) :
    (letters k n).size = k * (n + 2) + 6 := by
  have harg : strSize (String.ofList (List.replicate n 'a')) = n + 2 := by
    unfold strSize clipped bytes
    rw [String.toList_ofList, String.toList_ofList,
      fitting_eq_self (by rwa [length_encode_replicate]), length_encode_replicate, Nat.add_comm]
  have hargs : listSize strSize (List.replicate k (String.ofList (List.replicate n 'a'))) =
      2 + k * (n + 2) := by
    unfold listSize
    rw [List.take_of_length_le (by rwa [List.length_replicate]), List.map_replicate,
      List.sum_replicate_nat, harg]
  have hcwd : strSize "" = 2 := rfl
  unfold letters
  rw [Msg.size_exec, hargs, Option.getD_none, hcwd, listSize, List.take_nil, List.map_nil,
    List.sum_nil]
  omega

/-- Sixteen arguments of 65535 letters: every string and list is within its own
limit, and the frame is not. -/
theorem letters_rejected : ¬ (letters 16 65535).Accepted := by
  intro h
  have hsize := h.size_lt
  rw [letters_size (by decide) (by decide)] at hsize
  exact absurd hsize (by decide)

end Phi.Rpc
