import Phi.Blk.Queue
import Phi.Lib.Run

/-!
# Phi.Blk.Poll

The card's completion poller and the counter it sleeps by.

`outstanding` is to count the requests started and not yet completed: the
poller keeps looking while there are any, and naps otherwise.  `knc_blk_queue_rq`
counts a request where it posts pages and nowhere else; `knc_blk_complete_one`
counts every completed request out.  The queueing side runs under the driver's
lock and is one step here; the completing side takes the request off the table
under the lock and counts it out later, so it is two.
-/

namespace Phi.Blk

open Phi.Ring

/-! ## constants -/

def identTag : W32 := 0xffffffff#32
def identDirect : W32 := 0xfffffffe#32
def graceNs : W64 := 5000000#64

/-! ## the driver's state -/

/-- A started request: its records not yet completed, and what it ends with. -/
structure Cmd where
  rq : Request
  pending : Nat
  status : BlkStatus
deriving DecidableEq, Repr

/-- The driver once its disk is registered.  `ending` is the request that the
poller has taken off the table and not yet counted out; `started` and `ended`
are what the block layer has seen of it. -/
structure Driver where
  reqs : List (Option Cmd)
  outstanding : W32
  activeNs : W64
  ending : Option Cmd
  started : List Request
  ended : List (Request × BlkStatus)

/-- As `knc_blk_probe` leaves it. -/
def Driver.fresh : Driver where
  reqs := List.replicate maxSlots none
  outstanding := 0#32
  activeNs := 0#64
  ending := none
  started := []
  ended := []

/-- Requests started and not yet completed. -/
def Driver.inFlight (d : Driver) : Int := d.started.length - d.ended.length

/-! ## queueing -/

/-- A request whose own pages go to the host. -/
def DirectData (b : KncBlk) (rq : Request) : Prop :=
  b.direct = true ∧ (rq.op = .read ∨ rq.op = .write) ∧ rq.bytes ≠ 0

instance (b : KncBlk) (rq : Request) : Decidable (DirectData b rq) :=
  inferInstanceAs (Decidable (_ ∧ _))

/-- `knc_blk_queue_rq` on the driver's state: a request that is not started
goes back to the block layer. -/
def Driver.queueRq (b : KncBlk) (txFree : Nat) (rq : Request) (d : Driver) : Driver :=
  match kncBlkQueueRq b txFree rq with
  | (.ok, records) =>
      { d with
        outstanding := if DirectData b rq then d.outstanding + 1#32 else d.outstanding
        reqs := d.reqs.set rq.tag (some ⟨rq, records.length, .ok⟩)
        started := d.started ++ [rq] }
  | _ => d

/-! ## completing -/

/-- `knc_blk_complete_one` as far as the table: the record is counted off its
request, the last one takes the request off the table. -/
def Driver.completeOne (b : KncBlk) (tag status : W32) (d : Driver) : Driver :=
  if tag = identTag ∨ tag = identDirect then d
  else
    let slot := tag.toNat >>> 8
    if b.depth ≤ slot then d
    else match d.reqs[slot]? with
      | some (some cmd) =>
          let cmd := if status ≠ 0#32 then { cmd with status := .ioerr } else cmd
          if cmd.pending ≠ 1 then
            { d with reqs := d.reqs.set slot (some { cmd with pending := cmd.pending - 1 }) }
          else { d with reqs := d.reqs.set slot none, ending := some cmd }
      | _ => d

/-- The rest of `knc_blk_complete_one`: the request is counted out and given
back. -/
def Driver.endRequest (now : W64) (d : Driver) : Driver :=
  match d.ending with
  | none => d
  | some cmd =>
      { d with
        activeNs := now
        outstanding := d.outstanding - 1#32
        ending := none
        ended := d.ended ++ [(cmd.rq, cmd.status)] }

/-- The test of `knc_blk_poll` when no completion is there: nap or look again. -/
def Driver.naps (now : W64) (d : Driver) : Bool :=
  !(decide (0 < d.outstanding.toInt) || decide (now - d.activeNs < graceNs))

/-! ## runs -/

/-- What happens to the driver: the block layer issues a request, a completion
record arrives, the poller gives the completed request back. -/
inductive Event where
  | queue (rq : Request) (txFree : Nat)
  | completion (tag status : W32)
  | giveBack (now : W64)
deriving DecidableEq, Repr

def Driver.step (b : KncBlk) (d : Driver) : Event → Driver
  | .queue rq txFree => d.queueRq b txFree rq
  | .completion tag status => d.completeOne b tag status
  | .giveBack now => d.endRequest now

/-- The block layer issues a request under a tag no other request has, and the
poller handles one record after the other. -/
def Driver.Possible (b : KncBlk) (d : Driver) : Event → Prop
  | .queue rq _ => rq.tag < b.depth ∧ d.reqs[rq.tag]? = some none ∧
      ∀ cmd ∈ d.ending, cmd.rq.tag ≠ rq.tag
  | .completion _ _ => d.ending = none
  | .giveBack _ => d.ending ≠ none

instance (b : KncBlk) (d : Driver) : ∀ e, Decidable (d.Possible b e)
  | .queue _ _ => inferInstanceAs (Decidable (_ ∧ _))
  | .completion _ _ => inferInstanceAs (Decidable (_ = _))
  | .giveBack _ => inferInstanceAs (Decidable (_ ≠ _))

/-- What the counter is for. -/
structure Driver.Counts (d : Driver) : Prop where
  counter : d.outstanding.toInt = d.inFlight
  not_neg : 0 ≤ d.outstanding.toInt
  zero : d.outstanding.toInt = 0 → d.inFlight = 0
  awake : ∀ now, d.naps now = true → d.inFlight = 0

/-! ## the table and the counter -/

/-- Requests on the table and the one on its way out. -/
def Driver.waiting (d : Driver) : Nat :=
  d.reqs.countP Option.isSome + d.ending.toList.length

/-- The counter and the histories agree with the table. -/
structure Driver.Tracked (d : Driver) : Prop where
  slots : d.reqs.length = maxSlots
  histories : d.waiting + d.ended.length = d.started.length
  counter : d.outstanding = BitVec.ofNat 32 d.waiting

theorem Driver.tracked_fresh : Driver.fresh.Tracked := ⟨by decide, by decide, by decide⟩

theorem Driver.Tracked.waiting_le {d : Driver} (h : d.Tracked) : d.waiting ≤ maxSlots + 1 := by
  have hreqs := List.countP_le_length (p := Option.isSome) (l := d.reqs)
  have hend : d.ending.toList.length ≤ 1 := by cases d.ending <;> simp
  have hslots := h.slots
  unfold waiting
  omega

/-- A counter in step with the table does its work. -/
theorem Driver.Tracked.counts {d : Driver} (h : d.Tracked) : d.Counts := by
  have hle := h.waiting_le
  have hhist := h.histories
  have hint : d.outstanding.toInt = (d.waiting : Int) := by
    have hnat : d.outstanding.toNat = d.waiting := by
      rw [h.counter, BitVec.toNat_ofNat, Nat.mod_eq_of_lt (by unfold maxSlots at hle; omega)]
    unfold maxSlots at hle
    rw [BitVec.toInt_eq_toNat_of_lt (by omega), hnat]
  have hflight : d.inFlight = (d.waiting : Int) := by
    unfold inFlight
    omega
  refine ⟨by omega, by omega, by omega, ?_⟩
  intro now hnap
  simp only [naps, Bool.not_eq_true', Bool.or_eq_false_iff, decide_eq_false_iff_not] at hnap
  omega

/-- Filling or clearing an entry moves the number of entries in use. -/
theorem countP_set_isSome {xs : List (Option α)} {i : Nat} {x y : Option α}
    (h : xs[i]? = some x) : (xs.set i y).countP Option.isSome + x.toList.length =
      xs.countP Option.isSome + y.toList.length := by
  obtain ⟨hlt, hx⟩ := List.getElem?_eq_some_iff.mp h
  have hpos : x.isSome = true → 0 < xs.countP Option.isSome := by
    intro hs
    rw [List.countP_pos_iff]
    exact ⟨x, hx ▸ List.getElem_mem hlt, hs⟩
  rw [List.countP_set hlt, hx]
  cases x with
  | none => cases y <;> simp
  | some x =>
      have := hpos rfl
      cases y <;> simp <;> omega

/-! ## one step -/

section step

variable {b : KncBlk} {d : Driver}

/-- Only a request that is handed out as pages posts through the counted path. -/
theorem Driver.tracked_queueRq {rq : Request} {txFree : Nat} (h : d.Tracked)
    (hfree : d.reqs[rq.tag]? = some none)
    (hdata : (kncBlkQueueRq b txFree rq).1 = .ok → DirectData b rq) :
    (d.queueRq b txFree rq).Tracked := by
  unfold queueRq
  cases hq : kncBlkQueueRq b txFree rq with
  | mk status records =>
      cases status with
      | ok =>
          have hcount := countP_set_isSome (y := some (⟨rq, records.length, .ok⟩ : Cmd)) hfree
          have hwait : Driver.waiting { d with
              outstanding := d.outstanding + 1#32
              reqs := d.reqs.set rq.tag (some ⟨rq, records.length, .ok⟩)
              started := d.started ++ [rq] } = d.waiting + 1 := by
            unfold waiting
            simp only [Option.toList_none, Option.toList_some, List.length_nil,
              List.length_singleton] at hcount
            dsimp only
            omega
          dsimp only
          rw [if_pos (hdata (by rw [hq]))]
          refine ⟨by simpa using h.slots, ?_, ?_⟩
          · rw [hwait, List.length_append, List.length_singleton, ← h.histories]
            dsimp only
            omega
          · rw [hwait, BitVec.ofNat_add, ← h.counter]
      | ioerr => exact h
      | notsupp => exact h
      | devResource => exact h

/-- Counting a record off leaves the number of requests; the last record moves
its request from the table to the poller. -/
theorem Driver.tracked_completeOne {tag status : W32} (h : d.Tracked) (hend : d.ending = none) :
    (d.completeOne b tag status).Tracked := by
  unfold completeOne
  split
  · exact h
  · dsimp only
    split
    · exact h
    · split
      · next cmd hcmd =>
          generalize hc : (if status ≠ 0#32 then { cmd with status := .ioerr } else cmd) = c
          by_cases hp : c.pending ≠ 1
          · have hcount := countP_set_isSome
              (y := some { c with pending := c.pending - 1 }) hcmd
            rw [if_pos hp]
            simp only [Option.toList_some, List.length_singleton, Nat.add_right_cancel_iff]
              at hcount
            refine ⟨by simpa using h.slots, ?_, ?_⟩
            · unfold waiting
              dsimp only
              rw [hcount]
              exact h.histories
            · unfold waiting
              dsimp only
              rw [hcount]
              exact h.counter
          · have hcount := countP_set_isSome (y := none) hcmd
            rw [if_neg hp]
            have hwait : Driver.waiting { d with
                reqs := d.reqs.set (tag.toNat >>> 8) none, ending := some c } = d.waiting := by
              unfold waiting
              rw [hend]
              simp only [Option.toList_none, Option.toList_some, List.length_nil,
                List.length_singleton] at hcount ⊢
              omega
            refine ⟨by simpa using h.slots, ?_, ?_⟩
            · rw [hwait]
              exact h.histories
            · rw [hwait]
              exact h.counter
      · exact h

/-- A request given back is counted out. -/
theorem Driver.tracked_endRequest {now : W64} (h : d.Tracked) : (d.endRequest now).Tracked := by
  unfold endRequest
  cases hend : d.ending with
  | none => exact h
  | some cmd =>
      have hwait : d.waiting = d.reqs.countP Option.isSome + 1 := by
        unfold waiting
        rw [hend]
        rfl
      have hhist := h.histories
      refine ⟨h.slots, ?_, ?_⟩
      · unfold waiting
        simp only [Option.toList_none, List.length_nil, List.length_append,
          List.length_singleton]
        omega
      · unfold waiting
        dsimp only
        rw [h.counter, hwait, BitVec.ofNat_add, BitVec.add_sub_cancel]
        rfl

/-- Whatever the event starts hands its pages to the host. -/
def StartsDirect (b : KncBlk) : Event → Prop
  | .queue rq txFree => (kncBlkQueueRq b txFree rq).1 = .ok → DirectData b rq
  | _ => True

theorem Driver.tracked_step {e : Event} (h : d.Tracked) (hpos : d.Possible b e)
    (hdirect : StartsDirect b e) : (d.step b e).Tracked := by
  cases e with
  | queue rq txFree => exact tracked_queueRq h hpos.2.1 hdirect
  | completion tag status => exact tracked_completeOne h hpos
  | giveBack now => exact tracked_endRequest h

/-- A started request that is not counted puts the counter out of step. -/
theorem Driver.queueRq_uncounted {rq : Request} {txFree : Nat}
    (hok : (kncBlkQueueRq b txFree rq).1 = .ok) (hdata : ¬ DirectData b rq) :
    (d.queueRq b txFree rq).outstanding = d.outstanding ∧
      (d.queueRq b txFree rq).inFlight = d.inFlight + 1 := by
  unfold queueRq
  cases hq : kncBlkQueueRq b txFree rq with
  | mk status records =>
      rw [hq] at hok
      dsimp only at hok
      subst hok
      constructor
      · exact if_neg hdata
      · unfold inFlight
        simp only [List.length_append, List.length_singleton]
        omega

end step

/-! ## whole runs -/

/-- **The counter counts** in every state of a run exactly when the run starts
no request but those handed out as pages: no flush and no bounced request. -/
theorem counts_iff (b : KncBlk) (es : List Event)
    (h : Along (Driver.step b) (Driver.Possible b) Driver.fresh es) :
    (∀ pre, pre <+: es → (run (Driver.step b) Driver.fresh pre).Counts) ↔
      ∀ e ∈ es, StartsDirect b e := by
  constructor
  · intro hcounts e he
    cases e with
    | queue rq txFree =>
        intro hok
        by_cases hdata : DirectData b rq
        · exact hdata
        · obtain ⟨pre, post, rfl⟩ := List.append_of_mem he
          have hbefore := hcounts pre (List.prefix_append _ _)
          have hafter := hcounts (pre ++ [.queue rq txFree]) ⟨post, by simp⟩
          rw [run_append, run_cons, run_nil] at hafter
          obtain ⟨hout, hflight⟩ := Driver.queueRq_uncounted
            (d := run (Driver.step b) Driver.fresh pre) hok hdata
          have h1 := hbefore.counter
          have h2 := hafter.counter
          simp only [Driver.step, hout, hflight] at h2
          omega
    | completion tag status => trivial
    | giveBack now => trivial
  · intro hdirect pre ⟨post, hpost⟩
    subst hpost
    have hpre := (along_append.mp h).1.and_forall fun e he =>
      hdirect e (List.mem_append_left _ he)
    have hstep : ∀ (d : Driver) (e : Event), d.Tracked → d.Possible b e ∧ StartsDirect b e →
        (d.step b e).Tracked := fun d e hd hc => Driver.tracked_step hd hc.1 hc.2
    exact (run_inv hstep Driver.tracked_fresh hpre).counts

/-! ## examples of runs -/

/-- Two pages read and given back, then one written. -/
def pagesRun : List Event :=
  [.queue wholeRequest 65536, .completion 0x300#32 0#32, .completion 0x301#32 0#32,
    .giveBack 7000000#64, .queue ⟨0, .write, 8, [⟨0x4000, 4096⟩]⟩ 65536]

theorem counts_iff_pagesRun :
    (∀ pre, pre <+: pagesRun → (run (Driver.step handsPages) Driver.fresh pre).Counts) ↔
      ∀ e ∈ pagesRun, StartsDirect handsPages e :=
  counts_iff handsPages pagesRun (by decide)

/-- A flush on its own: the counter misses it, the poller naps over it, and its
completion takes the counter below zero. -/
def flushRun : List Event :=
  [.queue ⟨0, .flush, 0, []⟩ 65536, .completion 0#32 0#32, .giveBack 7000000#64]

theorem flush_uncounted :
    Along (Driver.step handsPages) (Driver.Possible handsPages) Driver.fresh flushRun ∧
      (run (Driver.step handsPages) Driver.fresh (flushRun.take 1)).inFlight = 1 ∧
      (run (Driver.step handsPages) Driver.fresh (flushRun.take 1)).outstanding.toInt = 0 ∧
      (run (Driver.step handsPages) Driver.fresh (flushRun.take 1)).naps 6000000#64 = true ∧
      (run (Driver.step handsPages) Driver.fresh flushRun).outstanding.toInt = -1 ∧
      ¬ (run (Driver.step handsPages) Driver.fresh flushRun).Counts := by
  refine ⟨by decide, by decide, by decide, by decide, by decide, ?_⟩
  intro h
  exact absurd h.not_neg (by decide)

end Phi.Blk
