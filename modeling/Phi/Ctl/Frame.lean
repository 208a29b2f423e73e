import Phi.Ctl.Args
import Phi.Lib.Circular
import Phi.Rpc.Msg

/-!
# Phi.Ctl.Frame

The frame of a command, built in `tx_buf` (`f_begin` and `f_finish` of
`phictl/wire.S`, `w_u16`, `w_bytes` and the wire strings of `text.S`, and what
`cmd_exec` writes with them).

A string is written whole and cut afterwards, back to where a character starts.
As long as that is inside of the string, the frame is what `wireStr` says of
each string (`built_execFrame`).
-/

namespace Phi.Ctl

open Serve Rpc Utf8

/-- The size of `tx_buf`. -/
def txCap : Nat := 4 + Rpc.maxFrame + 64

/-- Memory from `tx_buf` on, the cursor `wp`, and the end of the highest store. -/
structure Tx where
  mem : Nat → UInt8
  wp : Nat
  high : Nat

namespace Tx

def store (t : Tx) (p : Nat) (bs : List UInt8) : Tx :=
  { t with mem := Circular.write t.mem p bs, high := max t.high (p + bs.length) }

/-- `w_bytes`. -/
def wBytes (t : Tx) (bs : List UInt8) : Tx := { t.store t.wp bs with wp := t.wp + bs.length }

/-- `w_u16`. -/
def wU16 (t : Tx) (v : Nat) : Tx := t.wBytes (leBytes 2 v)

/-- `f_begin`. -/
def fBegin (t : Tx) (tag : UInt8) : Tx := { t.store 4 [tag] with wp := 5 }

/-- Back over continuation bytes: label 1 of `w_str_end`. -/
def cutBack (m : Nat → UInt8) : Nat → Nat
  | 0 => 0
  | q + 1 => if isTail (m (q + 1)) then cutBack m q else q + 1

/-- `w_str_end`, of a string begun at `strAt`. -/
def wStrEnd (t : Tx) (strAt : Nat) : Tx :=
  let rax := t.wp - strAt
  if rax ≤ maxString then t.store (strAt - 2) (leBytes 2 rax)
  else
    let q := cutBack t.mem (strAt + maxString)
    { t.store (strAt - 2) (leBytes 2 (q + 2 ^ 64 - strAt)) with wp := q }

/-- `w_str`: `w_str_begin`, the bytes, `w_str_end`. -/
def wStr (t : Tx) (bs : List UInt8) : Tx :=
  (({ t with wp := t.wp + 2 } : Tx).wBytes bs).wStrEnd (t.wp + 2)

/-- `f_finish`, and the frame it returns. -/
def fFinish (t : Tx) : Tx := t.store 0 (leBytes 4 (t.wp - 4))
def frame (t : Tx) : List UInt8 := Circular.read t.mem 0 t.wp

end Tx

/-- `card_env`. -/
def cardEnv : List (String × String) :=
  [("PATH", "/opt/phi/bin:/bin:/sbin:/usr/bin:/usr/sbin"), ("HOME", "/root"), ("TERM", "dumb")]

/-- Its strings. -/
def envStrs : List Arg := cardEnv.flatMap fun e => [bytes e.1, bytes e.2]

/-- The frame of `cmd_exec`, from label 4 on, in a buffer with anything in it. -/
def execFrame (m : Nat → UInt8) (argv : List Arg) (cwd : Option Arg) : Tx :=
  let t := ((⟨m, 0, 0⟩ : Tx).fBegin (Tag.toByte .exec)).wU16 argv.length
  let t := argv.foldl Tx.wStr t
  let t := t.wU16 3
  let t := envStrs.foldl Tx.wStr t
  (t.wStr (cwd.getD [])).fFinish

/-! ## the strings -/

/-- The bytes of a string that are left in the frame. -/
def cutStr (a : Arg) : Arg :=
  if a.length ≤ maxString then a else a.take (boundaryFrom a maxString)

def wireStr (a : Arg) : List UInt8 := leBytes 2 (cutStr a).length ++ cutStr a

/-- A string too long that starts with nothing but continuation bytes. -/
def Runaway (a : Arg) : Prop :=
  maxString < a.length ∧ (a.take (maxString + 1)).all isTail = true

instance (a : Arg) : Decidable (Runaway a) := inferInstanceAs (Decidable (_ ∧ _))

theorem boundaryFrom_le (bs : List UInt8) (n : Nat) : boundaryFrom bs n ≤ n := by
  induction n with
  | zero => exact Nat.le_refl _
  | succ n ih =>
      unfold boundaryFrom
      split <;> omega

theorem length_cutStr_le (a : Arg) : (cutStr a).length ≤ maxString ∧
    (cutStr a).length ≤ a.length := by
  have hle := boundaryFrom_le a maxString
  unfold cutStr
  split
  · next h => exact ⟨h, Nat.le_refl _⟩
  · rw [List.length_take]
    omega

/-- What it takes there. -/
def wireSize (a : Arg) : Nat := 2 + (cutStr a).length

theorem length_wireStr (a : Arg) : (wireStr a).length = wireSize a := by
  rw [wireStr, List.length_append, length_leBytes, wireSize]

theorem length_wireStrs (as : List Arg) :
    (as.flatMap wireStr).length = (as.map wireSize).sum := by
  induction as with
  | nil => rfl
  | cons a as ih =>
      rw [List.flatMap_cons, List.length_append, length_wireStr, ih, List.map_cons, List.sum_cons]

/-- Where the string itself has a character's start, stepping back ends there. -/
theorem cutBack_string {m : Nat → UInt8} {p : Nat} {a : Arg} (hp : 0 < p)
    (hm : Circular.read m p a.length = a) {n : Nat} (hn : n < a.length)
    (hstart : (a.take (n + 1)).all isTail = false) :
    Tx.cutBack m (p + n) = p + boundaryFrom a n := by
  have hcell : ∀ k, k < a.length → a[k]? = some (m (p + k)) := fun k hk => by
    conv => lhs; rw [← hm]
    exact Circular.getElem?_read m hk
  obtain ⟨q, rfl⟩ : ∃ q, p = q + 1 := ⟨p - 1, by omega⟩
  induction n with
  | zero =>
      have hhead : isTail (m (q + 1)) = false := by
        have h0 := hcell 0 hn
        rw [List.take_add_one, h0] at hstart
        simpa using hstart
      rw [Nat.add_zero, Tx.cutBack, hhead, boundaryFrom]
      rfl
  | succ n ih =>
      have hget := hcell (n + 1) hn
      have hbound : isCharBoundary a (n + 1) = !isTail (m (q + 1 + (n + 1))) := by
        unfold isCharBoundary
        rw [hget]
        simp
      rw [boundaryFrom, hbound, show q + 1 + (n + 1) = (q + 1 + n) + 1 by omega, Tx.cutBack]
      cases htail : isTail (m (q + 1 + n + 1)) with
      | false => rfl
      | true =>
          rw [List.take_add_one, hget, show q + 1 + (n + 1) = q + 1 + n + 1 by omega] at hstart
          simp only [Option.toList_some, List.all_append, List.all_cons, htail, List.all_nil,
            Bool.and_true] at hstart
          exact ih (by omega) hstart

theorem leBytes_add (k n m : Nat) : leBytes k (n + 256 ^ k * m) = leBytes k n := by
  induction k generalizing n m with
  | zero => rfl
  | succ k ih =>
      have hbyte : UInt8.ofNat (n + 256 ^ (k + 1) * m) = UInt8.ofNat n := by
        rw [← UInt8.toNat_inj, UInt8.toNat_ofNat', UInt8.toNat_ofNat', Nat.pow_succ,
          Nat.mul_assoc, Nat.mul_left_comm]
        exact Nat.add_mul_mod_self_left n 256 _
      have hrest : (n + 256 ^ (k + 1) * m) / 256 = n / 256 + 256 ^ k * m := by
        rw [Nat.pow_succ, Nat.mul_comm (256 ^ k), Nat.mul_assoc]
        exact Nat.add_mul_div_left n _ (by decide)
      rw [leBytes, leBytes, hbyte, hrest, ih]

/-! ## the frame so far -/

/-- The tag and so much of the body stand in the buffer. -/
structure Tx.Built (t : Tx) (tag : UInt8) (bs : List UInt8) : Prop where
  tag : t.mem 4 = tag
  body : Circular.read t.mem 5 bs.length = bs
  wp : t.wp = 5 + bs.length
  high : t.wp ≤ t.high

theorem built_fBegin (t : Tx) (tag : UInt8) : (t.fBegin tag).Built tag [] where
  tag := by
    show Circular.write t.mem 4 [tag] (4 + 0) = tag
    rw [Circular.write_of_mem t.mem (by simp)]
    rfl
  body := rfl
  wp := rfl
  high := Nat.le_max_right _ _

theorem Tx.Built.wBytes {t : Tx} {tag : UInt8} {bs : List UInt8} (h : t.Built tag bs)
    (cs : List UInt8) : (t.wBytes cs).Built tag (bs ++ cs) where
  tag := by
    show Circular.write t.mem t.wp cs 4 = tag
    rw [Circular.write_of_not_mem _ (.inl (by have := h.wp; omega)), h.tag]
  body := by
    show Circular.read (Circular.write t.mem t.wp cs) 5 (bs ++ cs).length = bs ++ cs
    rw [List.length_append, Circular.read_append, ← h.wp, Circular.read_write,
      Circular.read_write_before _ (Nat.le_of_eq h.wp.symm), h.body]
  wp := by
    show t.wp + cs.length = _
    rw [h.wp, List.length_append, Nat.add_assoc]
  high := Nat.le_max_right _ _

/-- A whole string behind the frame so far, and its length in front of it. -/
theorem Tx.Built.lengthed {t : Tx} {tag : UInt8} {bs : List UInt8} (h : t.Built tag bs)
    (a : Arg) {n : Nat} (hn : n ≤ a.length) :
    ({ (({ t with wp := t.wp + 2 } : Tx).wBytes a).store t.wp (leBytes 2 n) with
      wp := t.wp + 2 + n } : Tx).Built tag (bs ++ (leBytes 2 n ++ a.take n)) where
  tag := by
    have hwp := h.wp
    show Circular.write (Circular.write t.mem (t.wp + 2) a) t.wp (leBytes 2 n) 4 = tag
    rw [Circular.write_of_not_mem _ (.inl (by omega)),
      Circular.write_of_not_mem _ (.inl (by omega)), h.tag]
  body := by
    have hlen : (leBytes 2 n).length = 2 := length_leBytes 2 n
    show Circular.read (Circular.write (Circular.write t.mem (t.wp + 2) a) t.wp (leBytes 2 n)) 5
      (bs ++ (leBytes 2 n ++ a.take n)).length = _
    have hsecond : Circular.read (Circular.write (Circular.write t.mem (t.wp + 2) a) t.wp
        (leBytes 2 n)) t.wp 2 = leBytes 2 n := by
      conv => lhs; rw [← hlen]
      exact Circular.read_write _ _ _
    have hthird : Circular.read (Circular.write (Circular.write t.mem (t.wp + 2) a) t.wp
        (leBytes 2 n)) (t.wp + 2) n = a.take n := by
      have hsame : Circular.read (Circular.write (Circular.write t.mem (t.wp + 2) a) t.wp
          (leBytes 2 n)) (t.wp + 2) n =
            Circular.read (Circular.write t.mem (t.wp + 2) a) (t.wp + 2) n :=
        Circular.read_congr fun k _ => Circular.write_of_not_mem _ (.inr (by omega))
      rw [hsame, ← Circular.take_read _ hn, Circular.read_write]
    rw [List.length_append, List.length_append, length_leBytes, List.length_take_of_le hn,
      Circular.read_append, Circular.read_append, ← h.wp, hsecond, hthird,
      Circular.read_write_before _ (Nat.le_of_eq h.wp.symm),
      Circular.read_write_before _ (by have := h.wp; omega), h.body]
  wp := by
    show t.wp + 2 + n = _
    rw [h.wp, List.length_append, List.length_append, length_leBytes, List.length_take_of_le hn]
    omega
  high := by
    show t.wp + 2 + n ≤ max (max t.high (t.wp + 2 + a.length)) (t.wp + (leBytes 2 n).length)
    omega

/-- The end of a string that stands in the buffer. -/
theorem Tx.wStrEnd_eq {t : Tx} {p : Nat} {a : Arg}
    (hread : Circular.read t.mem (p + 2) a.length = a) (hwp : t.wp = p + 2 + a.length)
    (ha : ¬ Runaway a) : t.wStrEnd (p + 2) =
      { t.store p (leBytes 2 (cutStr a).length) with wp := p + 2 + (cutStr a).length } := by
  have hrax : t.wp - (p + 2) = a.length := by omega
  unfold Tx.wStrEnd cutStr
  dsimp only
  rw [hrax, Nat.add_sub_cancel]
  split
  · rw [← hwp]
    rfl
  · next hlong =>
      have hstart : (a.take (maxString + 1)).all isTail = false := by
        rw [← Bool.not_eq_true]
        exact fun hall => ha ⟨by omega, hall⟩
      have hn : boundaryFrom a maxString ≤ a.length :=
        Nat.le_trans (boundaryFrom_le a maxString) (by omega)
      -- the difference is taken of two addresses, and the lowest bits are kept
      have hrest : p + 2 + boundaryFrom a maxString + 2 ^ 64 - (p + 2) =
          boundaryFrom a maxString + 256 ^ 2 * 2 ^ 48 := by omega
      rw [cutBack_string (by omega) hread (by omega) hstart, hrest, leBytes_add,
        List.length_take_of_le hn]

theorem take_cutStr (a : Arg) : a.take (cutStr a).length = cutStr a := by
  unfold cutStr
  split
  · exact List.take_length
  · rw [List.length_take, ← List.take_take, List.take_length]

theorem Tx.Built.wStr {t : Tx} {tag : UInt8} {bs : List UInt8} (h : t.Built tag bs) {a : Arg}
    (ha : ¬ Runaway a) : (t.wStr a).Built tag (bs ++ wireStr a) ∧
      (t.wStr a).high = max t.high (t.wp + 2 + a.length) := by
  have hw : t.wStr a = { (({ t with wp := t.wp + 2 } : Tx).wBytes a).store t.wp
      (leBytes 2 (cutStr a).length) with wp := t.wp + 2 + (cutStr a).length } :=
    Tx.wStrEnd_eq (Circular.read_write _ _ _) rfl ha
  have hbuilt := h.lengthed a (length_cutStr_le a).2
  rw [take_cutStr] at hbuilt
  rw [hw]
  refine ⟨hbuilt, ?_⟩
  show max (max t.high (t.wp + 2 + a.length)) (t.wp + (leBytes 2 (cutStr a).length).length) = _
  rw [length_leBytes]
  omega

/-- The highest store of strings written from `p` on, and where the cursor is then. -/
def reach : Nat → List Arg → Nat
  | p, [] => p
  | p, a :: as => max (p + 2 + a.length) (reach (p + wireSize a) as)

theorem Tx.Built.wStrs {t : Tx} {tag : UInt8} {bs : List UInt8} (h : t.Built tag bs)
    {as : List Arg} (has : ∀ a ∈ as, ¬ Runaway a) :
    (as.foldl Tx.wStr t).Built tag (bs ++ as.flatMap wireStr) ∧
      (as.foldl Tx.wStr t).high = max t.high (reach t.wp as) := by
  induction as generalizing t bs with
  | nil =>
      rw [List.flatMap_nil, List.append_nil]
      exact ⟨h, (Nat.max_eq_left h.high).symm⟩
  | cons a as ih =>
      obtain ⟨hbuilt, hhigh⟩ := h.wStr (has a List.mem_cons_self)
      obtain ⟨hrest, hmax⟩ := ih hbuilt fun b hb => has b (List.mem_cons_of_mem a hb)
      have hwp : (t.wStr a).wp = t.wp + wireSize a := by
        rw [hbuilt.wp, h.wp, List.length_append, length_wireStr, Nat.add_assoc]
      rw [List.flatMap_cons, ← List.append_assoc, List.foldl_cons, reach]
      refine ⟨hrest, ?_⟩
      rw [hmax, hhigh, hwp, Nat.max_assoc]

/-! ## the command's frame -/

/-- The body of the frame. -/
def execBody (argv : List Arg) (cwd : Option Arg) : List UInt8 :=
  leBytes 2 argv.length ++ argv.flatMap wireStr ++ leBytes 2 3 ++ envStrs.flatMap wireStr ++
    wireStr (cwd.getD [])

/-- What the frame takes behind its length: the tag, two counts and the strings. -/
def execSize (argv : List Arg) (cwd : Option Arg) : Nat :=
  5 + (argv.map wireSize).sum + (envStrs.map wireSize).sum + wireSize (cwd.getD [])

theorem length_execBody (argv : List Arg) (cwd : Option Arg) :
    1 + (execBody argv cwd).length = execSize argv cwd := by
  simp only [execBody, List.length_append, length_leBytes, length_wireStr, length_wireStrs,
    execSize]
  omega

/-- The highest store of it. -/
def execReach (argv : List Arg) (cwd : Option Arg) : Nat :=
  max (reach 7 argv) (reach (9 + (argv.map wireSize).sum) (envStrs ++ [cwd.getD []]))

theorem le_reach (p : Nat) (as : List Arg) : p ≤ reach p as := by
  induction as generalizing p with
  | nil => exact Nat.le_refl _
  | cons a as ih =>
      have hrest := ih (p + wireSize a)
      rw [reach]
      omega

theorem envStrs_short : ∀ a ∈ envStrs, ¬ Runaway a := by decide +kernel

/-- The frame in front of which its length was put. -/
theorem Tx.Built.frame {t : Tx} {tag : UInt8} {bs : List UInt8} (h : t.Built tag bs) :
    t.fFinish.frame = leBytes 4 (1 + bs.length) ++ tag :: bs := by
  have hlen : (leBytes 4 (1 + bs.length)).length = 4 := length_leBytes 4 _
  have hwp : t.fFinish.wp = 4 + (1 + bs.length) := by
    show t.wp = _
    rw [h.wp, ← Nat.add_assoc]
  have hfinish : t.fFinish.mem = Circular.write t.mem 0 (leBytes 4 (1 + bs.length)) := by
    show Circular.write t.mem 0 (leBytes 4 (t.wp - 4)) = _
    rw [h.wp, show 5 + bs.length - 4 = 1 + bs.length by omega]
  have hkeep : ∀ p n, 4 ≤ p → Circular.read (Circular.write t.mem 0
      (leBytes 4 (1 + bs.length))) p n = Circular.read t.mem p n := fun p n hp =>
    Circular.read_congr fun k _ => Circular.write_of_not_mem _ (.inr (by omega))
  have hhead : Circular.read (Circular.write t.mem 0 (leBytes 4 (1 + bs.length))) 0 4 =
      leBytes 4 (1 + bs.length) := by
    conv => lhs; rw [← hlen]
    exact Circular.read_write _ _ _
  unfold Tx.frame
  rw [hwp, hfinish, Circular.read_append, Circular.read_append, hhead, hkeep _ _ (by omega),
    hkeep _ _ (by omega), show 0 + 4 + 1 = 5 from rfl, h.body]
  congr 1
  show [t.mem 4] ++ bs = _
  rw [h.tag]
  rfl

theorem Tx.high_wBytes (t : Tx) (bs : List UInt8) :
    (t.wBytes bs).high = max t.high (t.wp + bs.length) := rfl

theorem Tx.high_fFinish (t : Tx) : t.fFinish.high = max t.high 4 := by
  show max t.high (0 + (leBytes 4 (t.wp - 4)).length) = _
  rw [length_leBytes]

/-- The frame before its length is known. -/
theorem execFrame_eq (m : Nat → UInt8) (argv : List Arg) (cwd : Option Arg) :
    execFrame m argv cwd = ((envStrs ++ [cwd.getD []]).foldl Tx.wStr
      ((argv.foldl Tx.wStr (((⟨m, 0, 0⟩ : Tx).fBegin (Tag.toByte .exec)).wU16
        argv.length)).wU16 3)).fFinish := by
  unfold execFrame
  dsimp only
  rw [List.foldl_append, List.foldl_cons, List.foldl_nil]

theorem built_execFrame (m : Nat → UInt8) {argv : List Arg} {cwd : Option Arg}
    (hsane : ∀ a ∈ argv ++ cwd.toList, ¬ Runaway a) :
    (execFrame m argv cwd).frame = leBytes 4 (1 + (execBody argv cwd).length) ++
        Tag.toByte .exec :: execBody argv cwd ∧
      (execFrame m argv cwd).high = execReach argv cwd := by
  have hcount := (built_fBegin ⟨m, 0, 0⟩ (Tag.toByte .exec)).wBytes (leBytes 2 argv.length)
  obtain ⟨hargv, hhigh⟩ := hcount.wStrs fun a ha => hsane a (List.mem_append_left _ ha)
  have hthree := hargv.wBytes (leBytes 2 3)
  have hlast : ∀ a ∈ envStrs ++ [cwd.getD []], ¬ Runaway a := by
    intro a ha
    rcases List.mem_append.mp ha with ha | ha
    · exact envStrs_short a ha
    · rw [List.mem_singleton.mp ha]
      cases cwd with
      | none => decide +kernel
      | some c => exact hsane c (by simp)
  obtain ⟨hall, hhigh'⟩ := hthree.wStrs hlast
  have hbody : [] ++ leBytes 2 argv.length ++ argv.flatMap wireStr ++ leBytes 2 3 ++
      (envStrs ++ [cwd.getD []]).flatMap wireStr = execBody argv cwd := by
    simp [execBody]
  rw [hbody] at hall
  have hwp := hcount.wp
  have hwp' := hargv.wp
  have hwp'' := hthree.wp
  simp only [List.nil_append, List.length_append, length_leBytes, length_wireStrs,
    Nat.reduceAdd] at hwp hwp' hwp''
  rw [execFrame_eq]
  unfold Tx.wU16
  refine ⟨hall.frame, ?_⟩
  have hstart : (((⟨m, 0, 0⟩ : Tx).fBegin (Tag.toByte .exec)).wBytes
      (leBytes 2 argv.length)).high = 7 := by
    rw [Tx.high_wBytes, length_leBytes]
    rfl
  have hle := le_reach 7 argv
  have hle' := le_reach (9 + (argv.map wireSize).sum) (envStrs ++ [cwd.getD []])
  rw [Tx.high_fFinish, hhigh', Tx.high_wBytes, hhigh, hstart, hwp, hwp', hwp'', length_leBytes,
    execReach, show 5 + (2 + (argv.map wireSize).sum + 2) = 9 + (argv.map wireSize).sum by omega]
  omega

end Phi.Ctl
