import Mathlib.Logic.Function.Basic
import Phi.Blk.Poll

/-!
# Phi.Blk.Ends

Every request ends once.

A request is posted as one record or many, and their answers come back in any
order and between those of other requests.  `Life` is what there is to say of
one request from its start: the records still due, the answers so far, and how
often and with what it was ended.  A tag has one life after the other; `Stage`
is what the driver knows of a tag at each point of its last one.

The block layer gives a tag to a request when the one before it under that tag
has ended, and the host answers each record posted once, under its tag.  The
records of a request are posted and published under the driver's lock, so no
answer comes before the last of them is on the ring.
-/

namespace Phi.Blk

open Phi.Ring

/-! ## the life of a request -/

/-- A started request: the tags of its records not yet answered, the statuses
of the answers, and each status it was ended with. -/
structure Life where
  rq : Request
  due : List W32
  answers : List W32
  ends : List BlkStatus
deriving DecidableEq

/-- What a request with these answers is to end with. -/
def statusOf (answers : List W32) : BlkStatus :=
  if ∃ status ∈ answers, status ≠ 0#32 then .ioerr else .ok

def Life.start (rq : Request) (records : List Record) : Life :=
  ⟨rq, records.map Record.tag, [], []⟩

def Life.answer (tag status : W32) (l : Life) : Life :=
  { l with due := l.due.erase tag, answers := l.answers ++ [status] }

def Life.finish (status : BlkStatus) (l : Life) : Life := { l with ends := l.ends ++ [status] }

/-- Every record answered, and then ended once. -/
def Life.Over (l : Life) : Prop := l.due = [] ∧ l.ends = [statusOf l.answers]

/-- The last life of a tag, kept first. -/
def latest (f : Life → Life) : List Life → List Life
  | [] => []
  | l :: ls => f l :: ls

/-! ## the driver watched -/

/-- The answer to an identify record, which belongs to no request. -/
def IsIdent (tag : W32) : Prop := tag = identTag ∨ tag = identDirect

instance (tag : W32) : Decidable (IsIdent tag) := inferInstanceAs (Decidable (_ ∨ _))

/-- The driver, and the lives each tag has had. -/
structure Watched where
  driver : Driver
  lives : Nat → List Life

def Watched.fresh : Watched := ⟨.fresh, fun _ => []⟩

/-- What an event adds to the lives. -/
def Watched.note (b : KncBlk) (s : Watched) : Event → Nat → List Life
  | .queue rq txFree => match kncBlkQueueRq b txFree rq with
      | (.ok, records) =>
          Function.update s.lives rq.tag (.start rq records :: s.lives rq.tag)
      | _ => s.lives
  | .completion tag status =>
      if IsIdent tag then s.lives
      else
        let slot := tag.toNat >>> 8
        Function.update s.lives slot (latest (.answer tag status) (s.lives slot))
  | .giveBack _ => match s.driver.ending with
      | none => s.lives
      | some cmd =>
          Function.update s.lives cmd.rq.tag (latest (.finish cmd.status) (s.lives cmd.rq.tag))

def Watched.step (b : KncBlk) (s : Watched) (e : Event) : Watched :=
  ⟨s.driver.step b e, s.note b e⟩

/-- What can happen: a tag is given out when the request before it has ended, an
answer is to a record still due, and the poller handles one after the other. -/
def Watched.Possible (b : KncBlk) (s : Watched) : Event → Prop
  | .queue rq _ => rq.tag < b.depth ∧ rq.segs.length ≤ maxSegs ∧
      ∀ l ∈ (s.lives rq.tag).head?, l.ends ≠ []
  | .completion tag _ => s.driver.ending = none ∧
      (IsIdent tag ∨ ∃ l ∈ (s.lives (tag.toNat >>> 8)).head?, tag ∈ l.due)
  | .giveBack _ => s.driver.ending ≠ none

instance (b : KncBlk) (s : Watched) : ∀ e, Decidable (s.Possible b e)
  | .queue _ _ => inferInstanceAs (Decidable (_ ∧ _ ∧ _))
  | .completion _ _ => inferInstanceAs (Decidable (_ ∧ _))
  | .giveBack _ => inferInstanceAs (Decidable (_ ≠ _))

/-! ## where a tag stands -/

/-- The table's entry for a tag. -/
def Driver.slot (d : Driver) (t : Nat) : Option Cmd := d.reqs.getD t none

/-- The request on its way out, if it has this tag. -/
def Driver.leaving (d : Driver) (t : Nat) : Option Cmd := d.ending.filter fun c => c.rq.tag = t

/-- A tag's entry, what is on its way out under it, and its lives. -/
inductive Stage (b : KncBlk) (t : Nat) : Option Cmd → Option Cmd → List Life → Prop where
  | free {ls} : (∀ l ∈ ls, l.Over) → Stage b t none none ls
  | waiting {l ls} : (∀ l ∈ ls, l.Over) → t < b.depth → l.rq.tag = t → l.ends = [] →
      l.due ≠ [] → (∀ tag ∈ l.due, ¬ IsIdent tag) →
      Stage b t (some ⟨l.rq, l.due.length, statusOf l.answers⟩) none (l :: ls)
  | leaving {l ls n} : (∀ l ∈ ls, l.Over) → l.rq.tag = t → l.ends = [] → l.due = [] →
      Stage b t none (some ⟨l.rq, n, statusOf l.answers⟩) (l :: ls)

/-- Every tag is at some stage. -/
structure Watched.Ok (b : KncBlk) (s : Watched) : Prop where
  slots : s.driver.reqs.length = maxSlots
  stage : ∀ t, Stage b t (s.driver.slot t) (s.driver.leaving t) (s.lives t)

theorem Watched.ok_fresh (b : KncBlk) : Watched.fresh.Ok b where
  slots := by decide
  stage t := by
    have hslot : Watched.fresh.driver.slot t = none := by
      show (List.replicate maxSlots none).getD t none = none
      rw [List.getD_eq_getElem?_getD, List.getElem?_replicate]
      split
      · rfl
      · rfl
    rw [hslot]
    exact .free (by simp [Watched.fresh])

/-! ## the records of a request -/

/-- Record tags: the request's, and the segment's number below. -/
theorem map_tag_postSegs (tag : Nat) (op : W32) (i sector : Nat) (segs : List BlkSeg) :
    (postSegs tag op i sector segs).map Record.tag =
      (List.range' i segs.length).map fun j => BitVec.ofNat 32 (tag <<< 8 ||| j) := by
  induction segs generalizing i sector with
  | nil => rfl
  | cons s segs ih =>
      rw [postSegs, List.map_cons, ih, List.length_cons, List.range'_succ, List.map_cons]

theorem toNat_recordTag {tag j : Nat} (ht : tag < maxSlots) (hj : j < 256) :
    (BitVec.ofNat 32 (tag <<< 8 ||| j)).toNat = tag * 256 + j := by
  have hor : tag <<< 8 ||| j = tag * 256 + j := by
    rw [← Nat.shiftLeft_add_eq_or_of_lt (by omega), Nat.shiftLeft_eq]
  rw [hor, BitVec.toNat_ofNat]
  unfold maxSlots at ht
  omega

/-- A record's tag is the request's slot's, and no identify tag. -/
theorem recordTag_spec {tag j : Nat} (ht : tag < maxSlots) (hj : j < 256) :
    ¬ IsIdent (BitVec.ofNat 32 (tag <<< 8 ||| j)) := by
  have hnat := toNat_recordTag ht hj
  unfold maxSlots at ht
  rintro (heq | heq)
  · rw [heq] at hnat
    have h0 : identTag.toNat = 4294967295 := rfl
    omega
  · rw [heq] at hnat
    have h0 : identDirect.toNat = 4294967294 := rfl
    omega

/-- A request that is taken has records. -/
theorem records_of_ok {b : KncBlk} {txFree : Nat} {rq : Request} {records : List Record}
    (h : kncBlkQueueRq b txFree rq = (.ok, records)) (hsegs : rq.segs.length ≤ maxSegs) :
    records ≠ [] ∧ rq.tag < b.depth ∧ ∀ r ∈ records, ¬ IsIdent r.tag := by
  have hdepth := b.depth_le
  unfold kncBlkQueueRq at h
  split at h
  · cases h
  · next op data hop =>
      dsimp only at h
      generalize (if data = true then rq.bytes else 0) = len at h
      split at h
      · cases h
      · next hlt =>
          have htag : rq.tag < maxSlots := by omega
          split at h
          · split at h
            · cases h
            · next hne =>
                split at h
                · cases h
                · cases h
                  refine ⟨?_, by omega, fun r hr => ?_⟩
                  · intro hnil
                    have hlen := congrArg List.length (map_tag_postSegs rq.tag op 0 rq.pos rq.segs)
                    rw [hnil] at hlen
                    simp at hlen
                    simp [hlen] at hne
                  · have hmem := List.mem_map_of_mem (f := Record.tag) hr
                    rw [map_tag_postSegs] at hmem
                    obtain ⟨j, hj, heq⟩ := List.mem_map.mp hmem
                    have hlt := (List.mem_range'_1.mp hj).2
                    unfold maxSegs at hsegs
                    rw [← heq]
                    exact recordTag_spec htag (by omega)
          · split at h
            · cases h
            · cases h
              refine ⟨by simp, by omega, fun r hr => ?_⟩
              rw [List.mem_singleton.mp hr]
              have hspec := recordTag_spec (j := 0) htag (by omega)
              rwa [Nat.or_zero] at hspec

/-! ## one step -/

section step

variable {b : KncBlk} {s : Watched}

/-! ### what a step does to the table -/

theorem Driver.slot_of_set {d d' : Driver} {t : Nat} {x : Option Cmd}
    (h : d'.reqs = d.reqs.set t x) (hlt : t < d.reqs.length) (t' : Nat) :
    d'.slot t' = if t' = t then x else d.slot t' := by
  unfold slot
  rw [h, List.getD_eq_getElem?_getD, List.getD_eq_getElem?_getD, List.getElem?_set]
  by_cases heq : t = t'
  · subst heq
    simp [hlt]
  · rw [if_neg heq, if_neg (Ne.symm heq)]

/-- A slot in use is inside the table. -/
theorem Driver.getElem?_of_slot {d : Driver} {t : Nat} {c : Cmd} (h : d.slot t = some c) :
    d.reqs[t]? = some (some c) ∧ t < d.reqs.length := by
  unfold slot at h
  rw [List.getD_eq_getElem?_getD] at h
  cases hget : d.reqs[t]? with
  | none =>
      rw [hget] at h
      cases h
  | some x =>
      rw [hget] at h
      exact ⟨congrArg some h, (List.getElem?_eq_some_iff.mp hget).1⟩

theorem Driver.leaving_congr {d d' : Driver} (h : d'.ending = d.ending) (t : Nat) :
    d'.leaving t = d.leaving t := by
  unfold leaving
  rw [h]

theorem Driver.leaving_of_some {d : Driver} {c : Cmd} (h : d.ending = some c) (t : Nat) :
    d.leaving t = if c.rq.tag = t then some c else none := by
  unfold leaving
  rw [h]
  simp [Option.filter]

theorem Driver.leaving_of_none {d : Driver} (h : d.ending = none) (t : Nat) :
    d.leaving t = none := by
  unfold leaving
  rw [h]
  rfl

/-- `knc_blk_complete_one` for a record of a request on the table. -/
theorem Driver.completeOne_spec {d : Driver} {tag : W32} (status : W32) {c : Cmd} {t : Nat}
    (hident : ¬ IsIdent tag) (ht : tag.toNat >>> 8 = t) (hlt : t < b.depth)
    (hslot : d.slot t = some c) :
    let c' : Cmd := if status ≠ 0#32 then { c with status := .ioerr } else c
    (c.pending ≠ 1 → (d.completeOne b tag status).reqs =
        d.reqs.set t (some { c' with pending := c.pending - 1 }) ∧
      (d.completeOne b tag status).ending = d.ending) ∧
    (c.pending = 1 → (d.completeOne b tag status).reqs = d.reqs.set t none ∧
      (d.completeOne b tag status).ending = some c') := by
  have hget := (getElem?_of_slot hslot).1
  have hpend : (if status ≠ 0#32 then { c with status := .ioerr } else c : Cmd).pending =
      c.pending := by
    split
    · rfl
    · rfl
  unfold IsIdent at hident
  unfold completeOne
  rw [if_neg hident]
  dsimp only
  rw [ht, if_neg (by omega), hget]
  dsimp only
  rw [hpend]
  refine ⟨fun hmore => ?_, fun hlast => ?_⟩
  · rw [if_pos hmore]
    exact ⟨rfl, rfl⟩
  · rw [if_neg (not_not_intro hlast)]
    exact ⟨rfl, rfl⟩

/-! ### each event keeps every tag at a stage -/

/-- A tag the block layer may give out is at rest. -/
theorem Stage.eq_free {t : Nat} {slot leaving : Option Cmd} {ls : List Life}
    (h : Stage b t slot leaving ls) (hends : ∀ l ∈ ls.head?, l.ends ≠ []) :
    slot = none ∧ leaving = none ∧ ∀ l ∈ ls, l.Over := by
  cases h with
  | free hls => exact ⟨rfl, rfl, hls⟩
  | waiting _ _ _ hnil => exact absurd hnil (hends _ rfl)
  | leaving _ _ hnil => exact absurd hnil (hends _ rfl)

theorem statusOf_append (answers : List W32) (status : W32) :
    statusOf (answers ++ [status]) = if status ≠ 0#32 then .ioerr else statusOf answers := by
  unfold statusOf
  by_cases h : status = 0#32
  · simp [h]
  · simp [h]

/-- A request just posted waits for all its records. -/
theorem Stage.start {rq : Request} {records : List Record} {ls : List Life}
    (hover : ∀ l ∈ ls, l.Over) (hlt : rq.tag < b.depth) (hne : records ≠ [])
    (hident : ∀ r ∈ records, ¬ IsIdent r.tag) :
    Stage b rq.tag (some ⟨rq, records.length, .ok⟩) none (.start rq records :: ls) := by
  have hstage : Stage b rq.tag (some ⟨rq, (records.map Record.tag).length, statusOf []⟩) none
      (.start rq records :: ls) := by
    refine .waiting (l := .start rq records) hover hlt rfl rfl ?_ ?_
    · simpa [Life.start] using hne
    · intro tag hmem
      obtain ⟨r, hr, rfl⟩ := List.mem_map.mp hmem
      exact hident r hr
  have hok : statusOf [] = .ok := by simp [statusOf]
  rwa [List.length_map, hok] at hstage

/-- An answer that is not the last is counted off. -/
theorem Stage.counted {t : Nat} {l : Life} {ls : List Life} {tag status : W32}
    (hover : ∀ l ∈ ls, l.Over) (hlt : t < b.depth) (htag : l.rq.tag = t) (hends : l.ends = [])
    (hidents : ∀ tag ∈ l.due, ¬ IsIdent tag) (hmem : tag ∈ l.due) (hmore : l.due.length ≠ 1) :
    Stage b t (some ⟨l.rq, l.due.length - 1, statusOf (l.answer tag status).answers⟩) none
      (l.answer tag status :: ls) := by
  have herase := List.length_erase_of_mem hmem
  have hpos := List.length_pos_of_mem hmem
  rw [← herase]
  refine .waiting (l := l.answer tag status) hover hlt htag hends ?_ ?_
  · intro hnil
    unfold Life.answer at hnil
    dsimp only at hnil
    rw [hnil, List.length_nil] at herase
    omega
  · intro x hx
    exact hidents x (List.mem_of_mem_erase hx)

/-- With the last answer the request is on its way out. -/
theorem Stage.last {t n : Nat} {l : Life} {ls : List Life} {tag status : W32}
    (hover : ∀ l ∈ ls, l.Over) (htag : l.rq.tag = t) (hends : l.ends = []) (hmem : tag ∈ l.due)
    (hone : l.due.length = 1) :
    Stage b t none (some ⟨l.rq, n, statusOf (l.answer tag status).answers⟩)
      (l.answer tag status :: ls) := by
  have herase := List.length_erase_of_mem hmem
  refine .leaving (l := l.answer tag status) hover htag hends ?_
  rw [← List.length_eq_zero_iff]
  unfold Life.answer
  dsimp only
  omega

/-- One tag's stage changes, and the others' stay. -/
theorem Watched.Ok.update {w : Watched} {t : Nat} {x : Option Cmd} {ls : List Life} (h : s.Ok b)
    (hlen : t < s.driver.reqs.length) (hreqs : w.driver.reqs = s.driver.reqs.set t x)
    (hlives : w.lives = Function.update s.lives t ls)
    (hleaving : ∀ k, k ≠ t → w.driver.leaving k = s.driver.leaving k)
    (hself : Stage b t x (w.driver.leaving t) ls) : w.Ok b := by
  refine ⟨by rw [hreqs, List.length_set, h.slots], fun k => ?_⟩
  rw [Driver.slot_of_set hreqs hlen, hlives]
  by_cases heq : k = t
  · subst heq
    rw [if_pos rfl, Function.update_self]
    exact hself
  · rw [if_neg heq, Function.update_of_ne heq, hleaving k heq]
    exact h.stage k

theorem Watched.Ok.queue {rq : Request} {txFree : Nat} (h : s.Ok b)
    (hp : s.Possible b (.queue rq txFree)) : (s.step b (.queue rq txFree)).Ok b := by
  obtain ⟨htag, hsegs, hends⟩ := hp
  cases hq : kncBlkQueueRq b txFree rq with
  | mk status records =>
      cases status with
      | ok =>
          obtain ⟨hne, hlt, hident⟩ := records_of_ok hq hsegs
          have hlen : rq.tag < s.driver.reqs.length := by
            have hdepth := b.depth_le
            rw [h.slots]
            omega
          have hreqs : (s.step b (.queue rq txFree)).driver.reqs =
              s.driver.reqs.set rq.tag (some ⟨rq, records.length, .ok⟩) := by
            simp only [step, Driver.step, Driver.queueRq, hq]
          have hending : (s.step b (.queue rq txFree)).driver.ending = s.driver.ending := by
            simp only [step, Driver.step, Driver.queueRq, hq]
          have hlives : (s.step b (.queue rq txFree)).lives =
              Function.update s.lives rq.tag (.start rq records :: s.lives rq.tag) := by
            simp only [step, note, hq]
          obtain ⟨-, hleaving, hover⟩ := (h.stage rq.tag).eq_free hends
          refine h.update hlen hreqs hlives (fun t _ => Driver.leaving_congr hending t) ?_
          rw [Driver.leaving_congr hending, hleaving]
          exact .start hover hlt hne hident
      | ioerr | notsupp | devResource =>
          have hsame : s.step b (.queue rq txFree) = s := by
            simp only [step, Driver.step, note, Driver.queueRq, hq]
          rw [hsame]
          exact h

/-- One record answered: counted off, or the last one. -/
theorem Watched.Ok.completion {tag status : W32} (h : s.Ok b)
    (hp : s.Possible b (.completion tag status)) : (s.step b (.completion tag status)).Ok b := by
  obtain ⟨hnone, hdue⟩ := hp
  by_cases hident : IsIdent tag
  · have hsame : s.step b (.completion tag status) = s := by
      have hdriver : s.driver.completeOne b tag status = s.driver := if_pos hident
      have hlives : s.note b (.completion tag status) = s.lives := if_pos hident
      unfold step Driver.step
      dsimp only
      rw [hdriver, hlives]
    rw [hsame]
    exact h
  · obtain ⟨l, hl, hmem⟩ := hdue.resolve_left hident
    generalize ht : tag.toNat >>> 8 = t at hl
    obtain ⟨older, hls⟩ : ∃ older, s.lives t = l :: older := List.head?_eq_some_iff.mp hl
    have hlives : (s.step b (.completion tag status)).lives =
        Function.update s.lives t (l.answer tag status :: older) := by
      unfold step note
      dsimp only
      rw [if_neg hident, ht, hls]
      rfl
    have hstage := h.stage t
    rw [hls] at hstage
    generalize hslot : s.driver.slot t = slot at hstage
    generalize s.driver.leaving t = leaving at hstage
    cases hstage with
    | free hover =>
        rw [(hover l List.mem_cons_self).1] at hmem
        cases hmem
    | leaving _ _ _ hnil =>
        rw [hnil] at hmem
        cases hmem
    | waiting hover hlt htag hends hne hidents =>
        obtain ⟨hmore, hlast⟩ := Driver.completeOne_spec status hident ht hlt hslot
        have hlen := (Driver.getElem?_of_slot hslot).2
        have hstatus : (if status ≠ 0#32 then
            { rq := l.rq, pending := l.due.length, status := .ioerr }
            else ⟨l.rq, l.due.length, statusOf l.answers⟩ : Cmd) =
            ⟨l.rq, l.due.length, statusOf (l.answer tag status).answers⟩ := by
          unfold Life.answer
          rw [statusOf_append]
          split
          · rfl
          · rfl
        rw [hstatus] at hmore hlast
        dsimp only at hmore hlast
        by_cases hone : l.due.length = 1
        · obtain ⟨hreqs, hending⟩ := hlast hone
          have hleaving := Driver.leaving_of_some hending
          refine h.update hlen hreqs hlives (fun k hk => ?_) ?_
          · have hother : ¬ l.rq.tag = k := fun hc => hk (hc.symm.trans htag)
            rw [Driver.leaving_of_none hnone]
            exact (hleaving k).trans (if_neg hother)
          · rw [show (s.step b (.completion tag status)).driver.leaving t = _ from hleaving t,
              if_pos htag]
            exact .last hover htag hends hmem hone
        · obtain ⟨hreqs, hending⟩ := hmore hone
          have hleaving := Driver.leaving_congr hending
          refine h.update hlen hreqs hlives (fun k _ => hleaving k) ?_
          rw [show (s.step b (.completion tag status)).driver.leaving t = _ from hleaving t,
            Driver.leaving_of_none hnone]
          exact .counted hover hlt htag hends hidents hmem hone

theorem Watched.Ok.giveBack {now : W64} (h : s.Ok b)
    (hp : s.Possible b (.giveBack now)) : (s.step b (.giveBack now)).Ok b := by
  obtain ⟨c, hc⟩ := Option.ne_none_iff_exists'.mp hp
  have hreqs : (s.step b (.giveBack now)).driver.reqs = s.driver.reqs := by
    simp only [step, Driver.step, Driver.endRequest, hc]
  have hending : (s.step b (.giveBack now)).driver.ending = none := by
    simp only [step, Driver.step, Driver.endRequest, hc]
  have hlives : (s.step b (.giveBack now)).lives =
      Function.update s.lives c.rq.tag (latest (.finish c.status) (s.lives c.rq.tag)) := by
    simp only [step, note, hc]
  refine ⟨by rw [hreqs, h.slots], fun t => ?_⟩
  have hslot : (s.step b (.giveBack now)).driver.slot t = s.driver.slot t := by
    unfold Driver.slot
    rw [hreqs]
  have hstage := h.stage t
  rw [hslot, Driver.leaving_of_none hending, hlives]
  rw [Driver.leaving_of_some hc] at hstage
  by_cases heq : t = c.rq.tag
  · subst heq
    rw [if_pos rfl] at hstage
    rw [Function.update_self]
    generalize s.driver.slot c.rq.tag = slot at hstage ⊢
    generalize s.lives c.rq.tag = ls at hstage ⊢
    cases hstage with
    | leaving hover htag hends hdue =>
        refine .free fun x hx => ?_
        cases List.mem_cons.mp hx with
        | inl hfirst =>
            rw [hfirst]
            unfold Life.Over Life.finish
            rw [hends]
            exact ⟨hdue, rfl⟩
        | inr hrest => exact hover x hrest
  · rw [if_neg (Ne.symm heq)] at hstage
    rw [Function.update_of_ne heq]
    exact hstage

theorem Watched.Ok.step {e : Event} (h : s.Ok b) (hp : s.Possible b e) : (s.step b e).Ok b := by
  cases e with
  | queue rq txFree => exact h.queue hp
  | completion tag status => exact h.completion hp
  | giveBack now => exact h.giveBack hp

end step

/-! ## whole runs -/

theorem statusOf_eq_ioerr {answers : List W32} :
    statusOf answers = .ioerr ↔ ∃ status ∈ answers, status ≠ 0#32 := by
  unfold statusOf
  split
  · simp [*]
  · simp [*]

theorem statusOf_cases (answers : List W32) :
    statusOf answers = .ok ∨ statusOf answers = .ioerr := by
  unfold statusOf
  split
  · exact .inr rfl
  · exact .inl rfl

/-- What is right about one request: it ended at most once, after its last
answer, and by then, with an error exactly when some answer was one; until then
the table's entry is its own. -/
structure Life.Right (d : Driver) (t : Nat) (l : Life) : Prop where
  once : l.ends.length ≤ 1
  after : l.ends ≠ [] → l.due = []
  complete : l.due = [] → d.ending = none → l.ends.length = 1
  status : ∀ st ∈ l.ends, (st = .ioerr ↔ ∃ a ∈ l.answers, a ≠ 0#32) ∧ (st = .ok ∨ st = .ioerr)
  slot : l.due ≠ [] → d.slot t = some ⟨l.rq, l.due.length, statusOf l.answers⟩

theorem Life.Over.right {l : Life} (h : l.Over) (d : Driver) (t : Nat) : l.Right d t := by
  obtain ⟨hdue, hends⟩ := h
  refine ⟨by simp [hends], fun _ => hdue, by simp [hends], ?_, fun hne => absurd hdue hne⟩
  intro st hst
  rw [hends, List.mem_singleton] at hst
  rw [hst]
  exact ⟨statusOf_eq_ioerr, statusOf_cases _⟩

theorem Watched.Ok.right {b : KncBlk} {s : Watched} (h : s.Ok b) (t : Nat) :
    (∀ l ∈ s.lives t, l.Right s.driver t) ∧ ∀ l ∈ (s.lives t).tail, l.ends ≠ [] := by
  have hended : ∀ l : Life, l.Over → l.ends ≠ [] := by
    intro l hl hnil
    rw [hl.2] at hnil
    cases hnil
  have hstage := h.stage t
  generalize hslot : s.driver.slot t = slot at hstage
  generalize hleaving : s.driver.leaving t = leaving at hstage
  generalize s.lives t = ls at hstage ⊢
  cases hstage with
  | free hover =>
      exact ⟨fun l hl => (hover l hl).right _ _,
        fun l hl => hended l (hover l (List.mem_of_mem_tail hl))⟩
  | waiting hover _ _ hends hne _ =>
      refine ⟨fun l hl => ?_, fun l hl => hended l (hover l hl)⟩
      cases List.mem_cons.mp hl with
      | inl hfirst =>
          subst hfirst
          exact ⟨by simp [hends], fun hc => absurd hends hc, fun hc => absurd hc hne,
            by simp [hends], fun _ => hslot⟩
      | inr hrest => exact (hover l hrest).right _ _
  | leaving hover _ hends hdue =>
      refine ⟨fun l hl => ?_, fun l hl => hended l (hover l hl)⟩
      cases List.mem_cons.mp hl with
      | inl hfirst =>
          subst hfirst
          refine ⟨by simp [hends], fun hc => absurd hends hc, fun _ hnone => ?_, by simp [hends],
            fun hc => absurd hdue hc⟩
          rw [Driver.leaving_of_none hnone] at hleaving
          cases hleaving
      | inr hrest => exact (hover l hrest).right _ _

theorem Watched.Ok.slot_free {b : KncBlk} {s : Watched} (h : s.Ok b) {rq : Request} {txFree : Nat}
    (hp : s.Possible b (.queue rq txFree)) :
    s.driver.slot rq.tag = none ∧ s.driver.leaving rq.tag = none :=
  have hfree := (h.stage rq.tag).eq_free hp.2.2
  ⟨hfree.1, hfree.2.1⟩

/-- A tag is given out only when its entry of the table is free. -/
def SlotFree (s : Watched) : Event → Prop
  | .queue rq _ => s.driver.slot rq.tag = none ∧ s.driver.leaving rq.tag = none
  | _ => True

theorem Watched.Ok.along {b : KncBlk} {s : Watched} {es : List Event} (h : s.Ok b)
    (hp : Along (Watched.step b) (Watched.Possible b) s es) :
    Along (Watched.step b) SlotFree s es := by
  induction es generalizing s with
  | nil => trivial
  | cons e es ih =>
      refine ⟨?_, ih (h.step hp.1) hp.2⟩
      cases e with
      | queue rq txFree => exact h.slot_free hp.1
      | completion tag status => trivial
      | giveBack now => trivial

/-- **Every request ends once**, after the answers to all its records, with an
error exactly when one of them was, and its tag's entry is its own until then:
for requests and answers in any order. -/
theorem ends_once (b : KncBlk) (es : List Event)
    (h : Along (Watched.step b) (Watched.Possible b) Watched.fresh es) :
    let s := run (Watched.step b) Watched.fresh es
    (∀ t, ∀ l ∈ s.lives t, l.Right s.driver t) ∧
      (∀ t, ∀ l ∈ (s.lives t).tail, l.ends ≠ []) ∧
      Along (Watched.step b) SlotFree Watched.fresh es := by
  have hok := run_inv (fun s e (hs : s.Ok b) he => hs.step he) (Watched.ok_fresh b) h
  exact ⟨fun t => (hok.right t).1, fun t => (hok.right t).2, (Watched.ok_fresh b).along h⟩

/-- Two requests whose answers cross, one of them an error, and the tag used
again. -/
def crossedRun : List Event :=
  [.queue wholeRequest 65536, .queue ⟨0, .flush, 0, []⟩ 65536, .completion 0x301#32 5#32,
    .completion 0#32 0#32, .giveBack 1#64, .completion 0x300#32 0#32, .giveBack 2#64,
    .queue wholeRequest 65536]

theorem ends_once_crossed :
    let s := run (Watched.step handsPages) Watched.fresh crossedRun
    (∀ t, ∀ l ∈ s.lives t, l.Right s.driver t) ∧
      (∀ t, ∀ l ∈ (s.lives t).tail, l.ends ≠ []) ∧
      Along (Watched.step handsPages) SlotFree Watched.fresh crossedRun :=
  ends_once handsPages crossedRun (by decide)

end Phi.Blk
