import Phi.Card.Scan

/-!
# Phi.Card.PidStat

A process from its `stat` line (`parse_stat` and `vm_rss` of `stat.S`).

The command name stands in parentheses and may hold anything, parentheses too:
it reaches from the first `(` to the last `)`, and the fields are counted from
there.  `StatLine` is the line that the kernel prints.
-/

namespace Phi.Card

open Decimal

/-- What `parse_stat` fills in. -/
structure PidStat where
  state : UInt8
  ticks : UInt64
  rssKb : UInt64
  threads : UInt32
  kthread : Bool
  comm : List UInt8
deriving DecidableEq

/-- The state and the numbers it keeps, 0 by default. -/
structure StatFields where
  state : UInt8
  flags : UInt64
  utime : UInt64
  stime : UInt64
  threads : UInt64
  rss : UInt64
deriving DecidableEq

def StatFields.unread : StatFields := ⟨63, 0, 0, 0, 0, 0⟩

/-- A number, by its index after the name. -/
def StatFields.set (f : StatFields) (index : Nat) (v : UInt64) : StatFields :=
  match index with
  | 6 => { f with flags := v }
  | 11 => { f with utime := v }
  | 12 => { f with stime := v }
  | 17 => { f with threads := v }
  | 21 => { f with rss := v }
  | _ => f

/-- The loop over the fields, with `k` to go from `index` on. -/
def walkFields : Nat → Nat → List UInt8 → StatFields → StatFields
  | 0, _, _, f => f
  | k + 1, index, text, f =>
      match nextToken text with
      | none => f
      | some (tok, rest) =>
          if index = 0 then walkFields k 1 rest { f with state := tok.headD 0 }
          else
            match parseU64 tok with
            | none => walkFields k (index + 1) rest f
            | some v => walkFields k (index + 1) rest (f.set index v)

/-- The last place of `c` before `n`. -/
def lastIndex (c : UInt8) (text : List UInt8) : Nat → Option Nat
  | 0 => none
  | n + 1 => if text[n]? = some c then some n else lastIndex c text n

def statFields : Nat := 22
def pfKthread : UInt64 := 0x00200000

/-- `parse_stat`. -/
def parseStat (pageKb : UInt64) (text : List UInt8) : Option PidStat :=
  match text.findIdx? (· = 40), lastIndex 41 text text.length with
  | some opening, some closing =>
      if closing < opening + 1 then none
      else
        let comm := (text.take closing).drop (opening + 1)
        let f := walkFields statFields 0 (text.drop (closing + 1)) .unread
        some ⟨f.state, f.utime + f.stime, f.rss * pageKb, f.threads.toUInt32,
          f.flags &&& pfKthread ≠ 0, comm⟩
  | _, _ => none

/-- `"VmRSS:"` -/
def vmRssKey : List UInt8 := [86, 109, 82, 83, 83, 58]

/-- `vm_rss`: the first such line decides.  A line takes a byte of the text at
least. -/
def vmRss : Nat → List UInt8 → Option UInt64
  | 0, _ => none
  | k + 1, text =>
      match nextLine text with
      | none => none
      | some (line, rest) =>
          if vmRssKey.isPrefixOf line then
            match nextToken (line.drop vmRssKey.length) with
            | none => none
            | some (tok, _) => parseU64 tok
          else vmRss k rest

/-! ## the kernel's line -/

/-- What the kernel prints of a process, as far as `parse_stat` walks, and the
rest of its numbers. -/
structure StatLine (pageKb : UInt64) where
  pid : Nat
  comm : List UInt8
  state : UInt8
  ppid : Int
  pgrp : Int
  session : Int
  ttyNr : Int
  tpgid : Int
  flags : UInt32
  minflt : Nat
  cminflt : Nat
  majflt : Nat
  cmajflt : Nat
  utime : Nat
  stime : Nat
  cutime : Int
  cstime : Int
  priority : Int
  nice : Int
  numThreads : UInt32
  itrealvalue : Int
  starttime : Nat
  vsize : Nat
  rss : Nat
  rest : List Int
  /-- the state is a letter -/
  letter : 65 ≤ state
  /-- the times and the size are 64-bit numbers -/
  time : utime + stime < 2 ^ 64
  pages : rss < 2 ^ 64
  size : rss * pageKb.toNat < 2 ^ 64

namespace StatLine

variable {pageKb : UInt64} (l : StatLine pageKb)

/-- The numbers behind the state, in order. -/
def numbers : List Int :=
  [l.ppid, l.pgrp, l.session, l.ttyNr, l.tpgid, l.flags.toNat, l.minflt, l.cminflt, l.majflt,
    l.cmajflt, l.utime, l.stime, l.cutime, l.cstime, l.priority, l.nice, l.numThreads.toNat,
    l.itrealvalue, l.starttime, l.vsize, l.rss] ++ l.rest

/-- Numbers, each behind a space, and the end of the line. -/
def spaced : List Int → List UInt8
  | [] => [10]
  | v :: vs => 32 :: (signed v ++ spaced vs)

/-- `pid (comm) state ...` -/
def text : List UInt8 :=
  decimal l.pid ++ 32 :: 40 :: (l.comm ++ 41 :: 32 :: l.state :: spaced l.numbers)

/-! ### the parentheses -/

/-- No number holds a parenthesis. -/
theorem not_mem_signed {v : Int} {b : UInt8} (hb : b < 45) : b ∉ signed v := by
  intro h
  rcases mem_signed h with rfl | hd
  · exact absurd hb (by decide)
  · exact absurd (UInt8.lt_of_lt_of_le hb (by decide : (45 : UInt8) ≤ 48))
      (UInt8.not_lt.2 hd.1)

theorem not_mem_spaced (vs : List Int) : 41 ∉ spaced vs := by
  induction vs with
  | nil => decide
  | cons v vs ih =>
      have hv : 41 ∉ signed v := not_mem_signed (by decide)
      simp [spaced, hv, ih]

theorem not_mem_decimal (n : Nat) : 40 ∉ decimal n :=
  not_mem_signed (v := Int.ofNat n) (by decide)

/-- The first one is the one behind the pid. -/
theorem findIdx_text : l.text.findIdx? (· = 40) = some ((decimal l.pid).length + 1) := by
  have hnone : (decimal l.pid).findIdx? (· = 40) = none := by
    simp only [List.findIdx?_eq_none_iff, decide_eq_false_iff_not]
    rintro x hx rfl
    exact not_mem_decimal l.pid hx
  rw [text, List.findIdx?_append, hnone]
  simp [List.findIdx?_cons, Nat.add_comm]

end StatLine

/-- The last place of a byte that does not occur behind it. -/
theorem lastIndex_append {c : UInt8} (pre : List UInt8) {post : List UInt8} (h : c ∉ post) :
    lastIndex c (pre ++ c :: post) (pre ++ c :: post).length = some pre.length := by
  have hdown : ∀ k ≤ post.length,
      lastIndex c (pre ++ c :: post) (pre.length + 1 + k) = some pre.length := by
    intro k
    induction k with
    | zero =>
        intro _
        simp [lastIndex]
    | succ k ih =>
        intro hk
        have hget : (pre ++ c :: post)[pre.length + 1 + k]? = post[k]? := by
          rw [List.getElem?_append_right (by omega)]
          have hk' : pre.length + 1 + k - pre.length = k + 1 := by omega
          rw [hk', List.getElem?_cons_succ]
        have hne : ¬ post[k]? = some c := fun he => h (List.mem_of_getElem? he)
        rw [← Nat.add_assoc, lastIndex, hget, if_neg hne]
        exact ih (by omega)
  have hlen : (pre ++ c :: post).length = pre.length + 1 + post.length := by
    simp [Nat.add_assoc, Nat.add_comm 1]
  rw [hlen]
  exact hdown _ (Nat.le_refl _)

/-! ### the fields -/

/-- A number in its place; one that is no number of 64 bits leaves the default. -/
def StatFields.put (f : StatFields) (index : Nat) (v : Int) : StatFields :=
  match parseU64 (signed v) with
  | none => f
  | some n => f.set index n

/-- The numbers from `index` on, one after the other. -/
def StatFields.puts (f : StatFields) : Nat → List Int → StatFields
  | _, [] => f
  | index, v :: vs => (f.put index v).puts (index + 1) vs

theorem isWord_signed {v : Int} : ∀ b ∈ signed v, isWord b = true := fun b hb => by
  rcases mem_signed hb with rfl | hd
  · decide
  · exact isWord_of_lt (UInt8.lt_of_lt_of_le (by decide) hd.1)

theorem signed_ne_nil (v : Int) : signed v ≠ [] := by
  cases v with
  | ofNat n => exact decimal_ne_nil n
  | negSucc n => exact List.cons_ne_nil _ _

theorem head_spaced (vs : List Int) : ∀ x ∈ (StatLine.spaced vs).head?, isSpace x = true := by
  cases vs <;> simp [StatLine.spaced, isSpace]

/-- The walk over numbers: as many as there are to go. -/
theorem walkFields_spaced (k index : Nat) (vs : List Int) (f : StatFields) (hi : index ≠ 0) :
    walkFields k index (StatLine.spaced vs) f = f.puts index (vs.take k) := by
  induction k generalizing index vs f with
  | zero => rfl
  | succ k ih =>
      cases vs with
      | nil =>
          have hnone : nextToken (StatLine.spaced []) = none :=
            nextToken_none (by simp [StatLine.spaced, isSpace])
          rw [walkFields, hnone]
          rfl
      | cons v vs =>
          have htok : nextToken (StatLine.spaced (v :: vs)) =
              some (signed v, StatLine.spaced vs) :=
            nextToken_append (by decide) (signed_ne_nil v) isWord_signed (head_spaced vs)
          rw [walkFields, htok]
          dsimp only
          rw [if_neg hi, List.take_succ_cons, StatFields.puts, StatFields.put]
          cases parseU64 (signed v) with
          | none => exact ih _ vs f (Nat.succ_ne_zero index)
          | some n => exact ih _ vs _ (Nat.succ_ne_zero index)

/-- The indexes that are read. -/
def readIndexes : List Nat := [6, 11, 12, 17, 21]

theorem StatFields.put_skip (f : StatFields) {index : Nat} (v : Int) (h : index ∉ readIndexes) :
    f.put index v = f := by
  simp only [readIndexes, List.mem_cons, List.not_mem_nil, or_false, not_or] at h
  obtain ⟨h6, h11, h12, h17, h21⟩ := h
  unfold put
  cases parseU64 (signed v) with
  | none => rfl
  | some n => simp [set]

theorem StatFields.put_nat (f : StatFields) (index : Nat) {n : Nat} (h : n < 2 ^ 64) :
    f.put index (n : Int) = f.set index (UInt64.ofNat n) := by
  have hparse : parseU64 (signed (n : Int)) = some (UInt64.ofNat n) := parseU64_decimal h
  rw [put, hparse]

namespace StatLine

variable {pageKb : UInt64} (l : StatLine pageKb)

/-- What the walk keeps. -/
theorem walkFields_text :
    walkFields statFields 0 (32 :: l.state :: spaced l.numbers) .unread =
      ⟨l.state, l.flags.toUInt64, UInt64.ofNat l.utime, UInt64.ofNat l.stime,
        l.numThreads.toUInt64, UInt64.ofNat l.rss⟩ := by
  have hstate : isWord l.state = true := isWord_of_lt (UInt8.lt_of_lt_of_le (by decide) l.letter)
  have htok : nextToken (32 :: ([l.state] ++ spaced l.numbers)) =
      some ([l.state], spaced l.numbers) :=
    nextToken_append (by decide) (List.cons_ne_nil _ _) (by simpa using hstate)
      (head_spaced l.numbers)
  have hwalk : walkFields statFields 0 (32 :: l.state :: spaced l.numbers) .unread =
      StatFields.puts ⟨l.state, 0, 0, 0, 0, 0⟩ 1 (l.numbers.take 21) := by
    have htok' : nextToken (32 :: l.state :: spaced l.numbers) = _ := htok
    rw [statFields, walkFields, htok']
    exact walkFields_spaced 21 1 l.numbers _ (by decide)
  have hutime : l.utime < 2 ^ 64 := Nat.lt_of_le_of_lt (Nat.le_add_right _ _) l.time
  have hstime : l.stime < 2 ^ 64 := Nat.lt_of_le_of_lt (Nat.le_add_left _ _) l.time
  have hflags : l.flags.toNat < 2 ^ 64 := Nat.lt_of_lt_of_le l.flags.toNat_lt (by decide)
  have hthreads : l.numThreads.toNat < 2 ^ 64 :=
    Nat.lt_of_lt_of_le l.numThreads.toNat_lt (by decide)
  have hskip : ∀ (f : StatFields) (index : Nat) (v : Int), index ∉ readIndexes →
      f.put index v = f := fun f index v h => f.put_skip v h
  rw [hwalk, numbers]
  simp only [List.cons_append, List.take_succ_cons, List.take_zero, StatFields.puts]
  simp (disch := decide) only [hskip]
  rw [StatFields.put_nat _ _ hflags, StatFields.put_nat _ _ hutime,
    StatFields.put_nat _ _ hstime, StatFields.put_nat _ _ hthreads,
    StatFields.put_nat _ _ l.pages]
  simp [StatFields.set]

/-- The flag of the 64-bit number is the one of the 32-bit one. -/
theorem kthread_flag (flags : UInt32) :
    flags.toUInt64 &&& pfKthread ≠ 0 ↔ flags &&& 0x00200000 ≠ 0 := by
  have hand : (flags.toUInt64 &&& pfKthread).toNat = (flags &&& 0x00200000).toNat := by
    rw [UInt64.toNat_and, UInt32.toNat_and, UInt32.toNat_toUInt64]
    rfl
  rw [ne_eq, ne_eq, ← UInt64.toNat_inj, ← UInt32.toNat_inj, hand]
  rfl

/-- What is read of a process is what the kernel printed: of the name, the state
and the fields counted from the last parenthesis. -/
theorem parse_stat_exact :
    ∃ p, parseStat pageKb l.text = some p ∧ p.comm = l.comm ∧ p.state = l.state ∧
      p.kthread = decide (l.flags &&& 0x00200000 ≠ 0) ∧ p.ticks.toNat = l.utime + l.stime ∧
      p.threads = l.numThreads ∧ p.rssKb.toNat = l.rss * pageKb.toNat := by
  have hopen := l.findIdx_text
  have hsplit : l.text = (decimal l.pid ++ 32 :: 40 :: l.comm) ++
      41 :: (32 :: l.state :: spaced l.numbers) := by
    simp [text]
  have hclose : lastIndex 41 l.text l.text.length =
      some (decimal l.pid ++ 32 :: 40 :: l.comm).length := by
    rw [hsplit]
    refine lastIndex_append _ ?_
    have hs : l.state ≠ 41 := fun he => absurd l.letter (he ▸ by decide)
    simp [not_mem_spaced, hs.symm]
  have hcomm : (l.text.take (decimal l.pid ++ 32 :: 40 :: l.comm).length).drop
      ((decimal l.pid).length + 2) = l.comm := by
    rw [hsplit, List.take_left]
    have hpre : decimal l.pid ++ 32 :: 40 :: l.comm = (decimal l.pid ++ [32, 40]) ++ l.comm := by
      simp
    rw [hpre]
    exact List.drop_left' (by simp)
  have hrest : l.text.drop ((decimal l.pid ++ 32 :: 40 :: l.comm).length + 1) =
      32 :: l.state :: spaced l.numbers := by
    rw [hsplit, ← List.drop_drop, List.drop_left]
    rfl
  unfold parseStat
  rw [hopen, hclose]
  dsimp only
  have hapart : ¬ (decimal l.pid ++ 32 :: 40 :: l.comm).length <
      (decimal l.pid).length + 1 + 1 := by
    simp only [List.length_append, List.length_cons]
    omega
  rw [if_neg hapart, hcomm, hrest, l.walkFields_text]
  have htime := l.time
  have hpages := l.pages
  refine ⟨_, rfl, rfl, rfl, ?_, ?_, ?_, ?_⟩
  · exact decide_eq_decide.2 (kthread_flag l.flags)
  · simp [UInt64.toNat_add]
    omega
  · simp
  · have hsize := l.size
    simp only [UInt64.toNat_mul, UInt64.toNat_ofNat']
    rw [Nat.mod_eq_of_lt hpages, Nat.mod_eq_of_lt hsize]

end StatLine

end Phi.Card
