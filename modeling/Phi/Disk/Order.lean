import Phi.Disk.Service
import Phi.Lib.Run
import Phi.Lib.Trace

/-!
# Phi.Disk.Order

In which order records are answered.

A flush vouches for the reads and writes before it, so it is to be answered
after them.  The drain that is to see to this waits for the copy in the entry
before the tail, which is the one answered last; the newest copy in flight is
in the entry before the head.  The two are one entry only when all 64 are in
use, and the look at the engine at the top of a pass leaves at most 63.
-/

namespace Phi.Disk

open Phi.Ring Blk Circular

/-! ## the order asked for -/

/-- An answer to a record served on the spot comes after the answers to all
reads and writes popped before it. -/
def AnsweredLast (piped : Record → Bool) (records : List Record) (pre : List Answer)
    (a : Answer) : Prop :=
  ∀ r, records[a.num]? = some r → piped r = false →
    ∀ m < a.num, ∀ r', records[m]? = some r' → r'.op ≤ opWrite → m ∈ pre.map Answer.num

def Service.InOrder (s : Service) : Prop :=
  Each (AnsweredLast s.pipelined s.records) s.answers

/-- Which records are answered. -/
def Service.answered (s : Service) : List Nat := s.answers.map Answer.num

/-! ## the entries in flight -/

/-- The entries from the tail to the head, oldest first. -/
structure Service.Flight (s : Service) (fl : List Entry) : Prop where
  head : s.ifHead = s.ifTail + fl.length
  fits : fl.length ≤ ifSize
  holds : Holds s.entries ifSize s.ifTail fl

/-- Where a pass stands: `fl` is in flight and every one of the first `n`
records is answered or in flight. -/
structure Service.Tracks (s : Service) (fl : List Entry) (n : Nat) : Prop where
  chan : s.chan.Ok
  flight : s.Flight fl
  sorted : fl.Pairwise fun a b => a.seq < b.seq ∧ a.num < b.num
  seq_le : ∀ e ∈ fl, e.seq ≤ s.chan.submitted
  before : fl.length < ifSize →
    s.drainSeq ≤ s.chan.submitted ∧ ∀ e ∈ fl, s.drainSeq < e.seq
  piped : ∀ e ∈ fl, e.num < n ∧ ∃ r, s.records[e.num]? = some r ∧ s.pipelined r = true
  unanswered : ∀ e ∈ fl, e.num ∉ s.answered
  answered_lt : ∀ m ∈ s.answered, m < n
  settled : ∀ m < n, ∀ r, s.records[m]? = some r → r.op ≤ opWrite →
    m ∈ s.answered ∨ ∃ e ∈ fl, e.num = m

section

variable {s : Service} {fl : List Entry} {n : Nat}

/-- The oldest entry is at the tail. -/
theorem Service.Flight.front {e : Entry} (h : s.Flight (e :: fl)) :
    s.entries (s.ifTail % ifSize) = e := by
  have h0 := h.holds 0 (by simp)
  simpa using h0

/-- Answers to pipelined records ask for no order. -/
theorem Service.inOrder_append {as : List Answer}
    (h : ∀ a ∈ as, ∃ r, s.records[a.num]? = some r ∧ s.pipelined r = true) :
    Each (AnsweredLast s.pipelined s.records) (s.answers ++ as) ↔ s.InOrder := by
  constructor
  · intro hall
    exact (each_append.mp hall).1
  · intro hord
    refine each_append_of_forall hord fun a ha pre => ?_
    obtain ⟨r, hr, hp⟩ := h a ha
    intro r' hr' hp'
    rw [hr] at hr'
    cases hr'
    rw [hp] at hp'
    cases hp'

/-- The service once the entries `gone` are answered. -/
def Service.retired (gone : List Entry) (status : W32) (s : Service) : Service :=
  { s with
    ifTail := s.ifTail + gone.length
    answers := s.answers ++ gone.map fun e => ⟨e.num, e.tag, status⟩ }

@[simp] theorem Service.retired_nil (status : W32) (s : Service) : s.retired [] status = s := by
  simp [retired]

/-- One entry after the other. -/
theorem Service.retired_cons (e : Entry) (gone : List Entry) (status : W32) (s : Service) :
    (({ s with ifTail := s.ifTail + 1 } : Service).complete e.num e.tag status).retired gone
      status = s.retired (e :: gone) status := by
  simp only [retired, complete, List.length_cons, List.map_cons, List.append_assoc,
    List.singleton_append, Nat.add_assoc, Nat.add_comm 1]

/-- The loop over the entries answers the first ones, as long as they are done. -/
theorem Service.answerFrom_eq (isDone : Entry → Bool) (status : W32) (h : s.Flight fl) :
    s.answerFrom isDone status fl.length = s.retired (fl.takeWhile isDone) status := by
  induction fl generalizing s with
  | nil => simp [answerFrom]
  | cons e fl ih =>
      have hhead := h.head
      have hfits := h.fits
      rw [List.length_cons] at hhead hfits
      have htail : Service.Flight (({ s with ifTail := s.ifTail + 1 } : Service).complete
          e.num e.tag status) fl :=
        ⟨by simp only [complete]; omega, by omega, h.holds.drop (n := 1)⟩
      rw [List.length_cons, answerFrom, h.front]
      by_cases hdone : isDone e = true
      · rw [if_pos hdone, ih htail, List.takeWhile_cons_of_pos hdone, retired_cons]
      · rw [if_neg hdone, List.takeWhile_cons_of_neg hdone, retired_nil]

theorem Service.mem_answered_retired {gone : List Entry} {status : W32} {m : Nat} :
    m ∈ (s.retired gone status).answered ↔ m ∈ s.answered ∨ ∃ e ∈ gone, e.num = m := by
  simp [Service.answered, Service.retired]

/-- The entry before the new tail is the last one answered. -/
theorem Service.drainSeq_retired {es rest : List Entry} {e : Entry} (status : W32)
    (h : s.Flight ((es ++ [e]) ++ rest)) : (s.retired (es ++ [e]) status).drainSeq = e.seq := by
  have hcell : (s.ifTail + (es ++ [e]).length + 63) % ifSize = (s.ifTail + es.length) % ifSize := by
    rw [List.length_append, List.length_singleton]
    unfold ifSize
    omega
  have hlast : s.entries ((s.ifTail + es.length) % ifSize) = e := by
    rw [h.holds es.length (by simp)]
    simp
  show (s.entries ((s.ifTail + (es ++ [e]).length + 63) % ifSize)).seq = e.seq
  rw [hcell, hlast]

/-- Answering the oldest entries leaves the rest in flight, and the entry before
the tail older than all of it. -/
theorem Service.Tracks.retired {gone rest : List Entry} (h : s.Tracks (gone ++ rest) n)
    (status : W32) : (s.retired gone status).Tracks rest n where
  chan := h.chan
  flight := by
    have hhead := h.flight.head
    have hfits := h.flight.fits
    have hdrop := h.flight.holds.drop (n := gone.length)
    rw [List.length_append] at hhead hfits
    rw [List.drop_left] at hdrop
    exact ⟨by simp only [Service.retired]; omega, by omega, hdrop⟩
  sorted := (List.pairwise_append.mp h.sorted).2.1
  seq_le e he := h.seq_le e (List.mem_append_right _ he)
  before hlen := by
    have hcross := (List.pairwise_append.mp h.sorted).2.2
    cases hcase : gone.reverse with
    | nil =>
        have hnil : gone = [] := List.reverse_eq_nil_iff.mp hcase
        subst hnil
        exact h.before hlen
    | cons e es =>
        have hgone : gone = es.reverse ++ [e] := by
          rw [← List.reverse_reverse gone, hcase, List.reverse_cons]
        have hmem : e ∈ gone := by
          rw [hgone]
          simp
        have hseq : (s.retired gone status).drainSeq = e.seq := by
          have hflight := h.flight
          rw [hgone] at hflight ⊢
          exact Service.drainSeq_retired status hflight
        rw [hseq]
        exact ⟨h.seq_le e (List.mem_append_left _ hmem), fun x hx => (hcross e hmem x hx).1⟩
  piped e he := h.piped e (List.mem_append_right _ he)
  unanswered e he hmem := by
    cases Service.mem_answered_retired.mp hmem with
    | inl hold => exact h.unanswered e (List.mem_append_right _ he) hold
    | inr hnew =>
        obtain ⟨g, hg, heq⟩ := hnew
        have := ((List.pairwise_append.mp h.sorted).2.2 g hg e he).2
        omega
  answered_lt m hm := by
    cases Service.mem_answered_retired.mp hm with
    | inl hold => exact h.answered_lt m hold
    | inr hnew =>
        obtain ⟨g, hg, rfl⟩ := hnew
        exact (h.piped g (List.mem_append_left _ hg)).1
  settled m hm r hr hop := by
    rw [Service.mem_answered_retired]
    obtain hold | ⟨e, he, heq⟩ := h.settled m hm r hr hop
    · exact .inl (.inl hold)
    · cases List.mem_append.mp he with
      | inl hg => exact .inl (.inr ⟨e, hg, heq⟩)
      | inr hrest => exact .inr ⟨e, hrest, heq⟩

theorem Service.Tracks.inOrder_retired {gone rest : List Entry}
    (h : s.Tracks (gone ++ rest) n) (status : W32) :
    (s.retired gone status).InOrder ↔ s.InOrder := by
  refine Service.inOrder_append fun a ha => ?_
  obtain ⟨e, he, rfl⟩ := List.mem_map.mp ha
  exact (h.piped e (List.mem_append_left _ he)).2

/-- What no step of a pass changes but the pop. -/
structure Service.Same (s t : Service) : Prop where
  backend : t.backend = s.backend
  path : t.path = s.path
  records : t.records = s.records

theorem Service.Same.pipelined {s t : Service} (h : s.Same t) : t.pipelined = s.pipelined := by
  funext r
  unfold Service.pipelined
  rw [h.backend, h.path]

/-- Progress of the engine touches no entry. -/
theorem Service.Tracks.withChan {c : Chan} (h : s.Tracks fl n) (hok : c.Ok)
    (hle : s.chan.submitted ≤ c.submitted) :
    ({ s with chan := c } : Service).Tracks fl n where
  chan := hok
  flight := ⟨h.flight.head, h.flight.fits, h.flight.holds⟩
  sorted := h.sorted
  seq_le e he := Nat.le_trans (h.seq_le e he) hle
  before hlen := ⟨Nat.le_trans (h.before hlen).1 hle, (h.before hlen).2⟩
  piped := h.piped
  unanswered := h.unanswered
  answered_lt := h.answered_lt
  settled := h.settled

/-- Answers given from the tail on after a look at the engine. -/
theorem Service.Tracks.answerWith {c : Chan} (h : s.Tracks fl n) (hok : c.Ok)
    (hle : s.chan.submitted ≤ c.submitted) (isDone : Entry → Bool) (status : W32) :
    let t := ({ s with chan := c } : Service).answerFrom isDone status (s.ifHead - s.ifTail)
    t.Tracks (fl.dropWhile isDone) n ∧ (t.InOrder ↔ s.InOrder) ∧ s.Same t := by
  have hlen : s.ifHead - s.ifTail = fl.length := by
    have := h.flight.head
    omega
  have hc := h.withChan hok hle
  have hsplit : fl.takeWhile isDone ++ fl.dropWhile isDone = fl := List.takeWhile_append_dropWhile
  dsimp only
  rw [hlen, Service.answerFrom_eq isDone status hc.flight]
  rw [← hsplit] at hc
  exact ⟨hc.retired status, hc.inOrder_retired status, rfl, rfl, rfl⟩

/-- Copies numbered between two counts are no more than lie between them. -/
theorem length_le_of_sorted {fl : List Entry} {lo hi : Nat}
    (hs : fl.Pairwise fun a b => a.seq < b.seq ∧ a.num < b.num)
    (h : ∀ e ∈ fl, lo < e.seq ∧ e.seq ≤ hi) : fl.length ≤ hi - lo := by
  induction fl generalizing lo with
  | nil => simp
  | cons e fl ih =>
      obtain ⟨hlo, hhi⟩ := h e List.mem_cons_self
      rw [List.pairwise_cons] at hs
      have hrest := ih hs.2 fun x hx => ⟨(hs.1 x hx).1, (h x (List.mem_cons_of_mem _ hx)).2⟩
      rw [List.length_cons]
      omega

/-- Past the first entries whose copies are done, none is. -/
theorem lt_of_mem_dropWhile {fl : List Entry} {done : Nat}
    (hs : fl.Pairwise fun a b => a.seq < b.seq ∧ a.num < b.num) {e : Entry}
    (he : e ∈ fl.dropWhile fun e => e.seq ≤ done) : done < e.seq := by
  induction fl with
  | nil => simp at he
  | cons x fl ih =>
      rw [List.pairwise_cons] at hs
      by_cases hx : x.seq ≤ done
      · rw [List.dropWhile_cons_of_pos (by simpa using hx)] at he
        exact ih hs.2 he
      · rw [List.dropWhile_cons_of_neg (by simpa using hx)] at he
        cases List.mem_cons.mp he with
        | inl heq =>
            rw [heq]
            omega
        | inr hmem =>
            have := (hs.1 e hmem).1
            omega

theorem dropWhile_true (fl : List Entry) : fl.dropWhile (fun _ => true) = [] := by
  induction fl with
  | nil => rfl
  | cons e fl ih => exact ih

/-! ## the parts of a pass -/

/-- A service that does not look at the engine has nothing in flight. -/
theorem Service.Tracks.nil_of_idle (h : s.Tracks fl n)
    (hidle : s.ifTail = s.ifHead ∨ s.path ≠ .dma) : fl = [] := by
  cases fl with
  | nil => rfl
  | cons e fl =>
      obtain ⟨r, -, hp⟩ := (h.piped e List.mem_cons_self).2
      simp only [Service.pipelined, decide_eq_true_eq] at hp
      have hhead := h.flight.head
      rw [List.length_cons] at hhead
      obtain h0 | h0 := hidle
      · omega
      · exact absurd hp.2.1 h0

/-- The look at the engine leaves room for one more entry. -/
theorem Service.Tracks.topPoll (h : s.Tracks fl n) (r : Reading) :
    ∃ fl', (s.topPoll r).Tracks fl' n ∧ fl'.length < ifSize ∧
      ((s.topPoll r).InOrder ↔ s.InOrder) ∧ s.Same (s.topPoll r) := by
  unfold Service.topPoll
  split
  · next hidle =>
      have hnil := h.nil_of_idle hidle
      subst hnil
      exact ⟨[], h, by decide, Iff.rfl, ⟨rfl, rfl, rfl⟩⟩
  · cases hp : dmaPoll r s.chan with
    | mk c res =>
        obtain ⟨hok, hsub, hdone⟩ := dmaPoll_spec h.chan hp
        cases res with
        | some done =>
            have hd := hdone done rfl
            obtain ⟨ht, hord, hsame⟩ :=
              h.answerWith hok (by omega) (fun e => e.seq ≤ done) 0#32
            refine ⟨_, ht, ?_, hord, hsame⟩
            have hbound : ∀ e ∈ fl.dropWhile (fun e => decide (e.seq ≤ done)),
                c.completed < e.seq ∧ e.seq ≤ c.submitted := by
              intro e he
              have hlt := lt_of_mem_dropWhile h.sorted he
              have hle := h.seq_le e (List.dropWhile_subset _ he)
              omega
            have hle := length_le_of_sorted ht.sorted hbound
            have hwin := hok.submitted_le
            unfold ifSize
            unfold maxInFlight at hwin
            omega
        | none =>
            obtain ⟨ht, hord, hsame⟩ := h.answerWith hok (by omega) (fun _ => true) statusEio
            refine ⟨_, ht, ?_, hord, hsame⟩
            rw [dropWhile_true]
            decide

theorem Service.getElem?_records_pop {r : Record} {m : Nat} (h : m < s.records.length) :
    (s.pop r).records[m]? = s.records[m]? := List.getElem?_append_left h

/-- Popping a record leaves the records before it what they are. -/
theorem Service.Tracks.pop (h : s.Tracks fl s.records.length) (r : Record) :
    (s.pop r).Tracks fl s.records.length where
  chan := h.chan
  flight := ⟨h.flight.head, h.flight.fits, h.flight.holds⟩
  sorted := h.sorted
  seq_le := h.seq_le
  before := h.before
  piped e he := by
    rw [Service.getElem?_records_pop (h.piped e he).1]
    exact h.piped e he
  unanswered := h.unanswered
  answered_lt := h.answered_lt
  settled m hm x hx hop := by
    rw [Service.getElem?_records_pop hm] at hx
    exact h.settled m hm x hx hop

theorem Service.Tracks.inOrder_pop (h : s.Tracks fl s.records.length) (r : Record) :
    (s.pop r).InOrder ↔ s.InOrder := by
  refine each_congr fun a ha pre => ?_
  have hlt := h.answered_lt a.num (List.mem_map_of_mem ha)
  have hold : ∀ m < s.records.length, (s.pop r).records[m]? = s.records[m]? :=
    fun m hm => Service.getElem?_records_pop hm
  unfold AnsweredLast
  rw [hold a.num hlt]
  constructor
  · intro hx x hr hp m hm y hy
    rw [← hold m (by omega)] at hy
    exact hx x hr hp m hm y hy
  · intro hx x hr hp m hm y hy
    rw [hold m (by omega)] at hy
    exact hx x hr hp m hm y hy

theorem Service.mem_answered_complete {num m : Nat} {tag status : W32} :
    m ∈ (s.complete num tag status).answered ↔ m ∈ s.answered ∨ m = num := by
  simp [Service.answered, Service.complete]

/-- The record just popped is answered. -/
theorem Service.Tracks.complete (h : s.Tracks fl n) (tag status : W32) :
    (s.complete n tag status).Tracks fl (n + 1) where
  chan := h.chan
  flight := ⟨h.flight.head, h.flight.fits, h.flight.holds⟩
  sorted := h.sorted
  seq_le := h.seq_le
  before := h.before
  piped e he := ⟨Nat.lt_succ_of_lt (h.piped e he).1, (h.piped e he).2⟩
  unanswered e he hmem := by
    cases Service.mem_answered_complete.mp hmem with
    | inl hold => exact h.unanswered e he hold
    | inr hnew => exact Nat.ne_of_lt (h.piped e he).1 hnew
  answered_lt m hm := by
    cases Service.mem_answered_complete.mp hm with
    | inl hold => exact Nat.lt_succ_of_lt (h.answered_lt m hold)
    | inr hnew => omega
  settled m hm r hr hop := by
    rw [Service.mem_answered_complete]
    by_cases hmn : m = n
    · exact .inl (.inr hmn)
    · obtain hold | hfl := h.settled m (by omega) r hr hop
      · exact .inl (.inl hold)
      · exact .inr hfl

/-- Its own place in the order is all that the answer adds. -/
theorem Service.inOrder_complete (num : Nat) (tag status : W32) :
    (s.complete num tag status).InOrder ↔
      s.InOrder ∧ AnsweredLast s.pipelined s.records s.answers ⟨num, tag, status⟩ := by
  unfold Service.InOrder Service.complete
  dsimp only
  rw [each_append, each_singleton, List.append_nil]
  rfl

/-- With room left after the copy, its entry is not the one before the tail. -/
theorem Service.drainSeq_write {k : Nat} (hroom : k + 1 < ifSize) (e : Entry) :
    (writeWrap s.entries ifSize (s.ifTail + k) [e] ((s.ifTail + 63) % ifSize)).seq =
      s.drainSeq := by
  have hfwd : (s.ifTail + k) % ifSize = (s.ifTail + k + ifSize) % ifSize := by simp
  rw [writeWrap_congr _ hfwd, writeWrap_old _ (by decide) (by unfold ifSize; omega)]
  · rfl
  · rw [List.length_singleton]
    unfold ifSize at hroom ⊢
    omega

/-- A submitted copy is the newest in flight. -/
theorem Service.Tracks.submit {c : Chan} {r : Record} {seq : Nat} (h : s.Tracks fl n)
    (hlen : fl.length < ifSize) (hok : c.Ok) (hseq : seq = s.chan.submitted + 1)
    (hsub : c.submitted = seq) (hr : s.records[n]? = some r) (hp : s.pipelined r = true) :
    ({ s with
        chan := c
        entries := write s.entries (s.ifHead % ifSize) [⟨r.tag, seq, n⟩]
        ifHead := s.ifHead + 1 } : Service).Tracks (fl ++ [⟨r.tag, seq, n⟩]) (n + 1) := by
  have hhead := h.flight.head
  have hwrite : write s.entries (s.ifHead % ifSize) [(⟨r.tag, seq, n⟩ : Entry)] =
      writeWrap s.entries ifSize (s.ifTail + fl.length) [⟨r.tag, seq, n⟩] := by
    have hmod := Nat.mod_lt s.ifHead (show 0 < ifSize by decide)
    rw [write_eq_writeWrap _ (by rw [List.length_singleton]; omega), hhead]
  have hnew : ∀ e ∈ fl, e.seq < seq ∧ e.num < n := fun e he =>
    ⟨by have := h.seq_le e he; omega, (h.piped e he).1⟩
  have hmem : ∀ e ∈ fl ++ [(⟨r.tag, seq, n⟩ : Entry)], e ∈ fl ∨ e = ⟨r.tag, seq, n⟩ := by
    intro e he
    simpa using he
  rw [hwrite]
  exact {
    chan := hok
    flight := {
      head := by
        rw [List.length_append, List.length_singleton]
        dsimp only
        omega
      fits := by
        rw [List.length_append, List.length_singleton]
        omega
      holds := h.flight.holds.writeWrap (by rw [List.length_singleton]; omega) }
    sorted := by
      refine List.pairwise_append.mpr ⟨h.sorted, List.pairwise_singleton _ _, fun e he x hx => ?_⟩
      rw [List.mem_singleton.mp hx]
      exact hnew e he
    seq_le := by
      intro e he
      dsimp only
      obtain hold | rfl := hmem e he
      · have := (hnew e hold).1
        omega
      · dsimp only
        omega
    before := by
      intro hroom
      rw [List.length_append, List.length_singleton] at hroom
      obtain ⟨h1, h2⟩ := h.before hlen
      have hprev := Service.drainSeq_write (s := s) hroom ⟨r.tag, seq, n⟩
      unfold Service.drainSeq
      dsimp only
      rw [hprev]
      refine ⟨by omega, fun e he => ?_⟩
      obtain hold | rfl := hmem e he
      · exact h2 e hold
      · dsimp only
        omega
    piped := by
      intro e he
      obtain hold | rfl := hmem e he
      · exact ⟨Nat.lt_succ_of_lt (h.piped e hold).1, (h.piped e hold).2⟩
      · exact ⟨Nat.lt_succ_self n, r, hr, hp⟩
    unanswered := by
      intro e he hans
      obtain hold | rfl := hmem e he
      · exact h.unanswered e hold hans
      · exact Nat.lt_irrefl n (h.answered_lt n hans)
    answered_lt := fun m hm => Nat.lt_succ_of_lt (h.answered_lt m hm)
    settled := by
      intro m hm x hx hop
      by_cases hmn : m = n
      · exact .inr ⟨⟨r.tag, seq, n⟩, by simp, hmn.symm⟩
      · obtain hold | ⟨e, he, heq⟩ := h.settled m (by omega) x hx hop
        · exact .inl hold
        · exact .inr ⟨e, List.mem_append_left _ he, heq⟩ }

/-- `submit_ram` submits the record or answers it, out of no order. -/
theorem Service.Tracks.submitRam {p : Pass} {r : Record} {t : Service} (h : s.Tracks fl n)
    (hlen : fl.length < ifSize) (hr : s.records[n]? = some r) (hp : s.pipelined r = true)
    (ht : s.submitRam p n r = some t) :
    (∃ fl', t.Tracks fl' (n + 1)) ∧ (t.InOrder ↔ s.InOrder) ∧ t.records = s.records := by
  have hfree : ∀ tag status, AnsweredLast s.pipelined s.records s.answers ⟨n, tag, status⟩ := by
    intro tag status x hx hpx
    rw [hr] at hx
    cases hx
    rw [hp] at hpx
    cases hpx
  unfold Service.submitRam at ht
  split at ht
  · cases ht
    refine ⟨⟨fl, h.complete r.tag statusEinval⟩, ?_, rfl⟩
    rw [Service.inOrder_complete]
    exact and_iff_left (hfree _ _)
  · next len hchk =>
      dsimp only at ht
      split at ht
      · cases ht
      · next c hsub =>
          cases ht
          obtain ⟨hok, hle, -⟩ := dmaSubmit_spec h.chan hsub
          refine ⟨⟨fl, (h.withChan hok hle).complete r.tag statusEio⟩, ?_, rfl⟩
          rw [Service.inOrder_complete]
          exact and_iff_left (hfree _ _)
      · next c seq hsub =>
          cases ht
          obtain ⟨hok, -, hseq⟩ := dmaSubmit_spec h.chan hsub
          obtain ⟨h1, h2⟩ := hseq seq rfl
          exact ⟨⟨_, h.submit hlen hok h1 h2 hr hp⟩, Iff.rfl, rfl⟩

/-- The drain does its work: nothing is in flight, or the engine fails and all
that is in flight is answered. -/
def Service.Drains (p : Pass) (s : Service) : Prop :=
  s.ifTail = s.ifHead ∨ (dmaWait s.drainSeq p.drain s.chan).map Prod.snd = some false

instance (p : Pass) (s : Service) : Decidable (s.Drains p) := inferInstanceAs (Decidable (_ ∨ _))

/-- The copy waited for is older than all in flight: when it is done, nothing
more is answered. -/
theorem Service.Tracks.drain {p : Pass} {t : Service} (h : s.Tracks fl n)
    (hlen : fl.length < ifSize) (ht : s.drain p = some t) :
    ∃ fl', t.Tracks fl' n ∧ (t.InOrder ↔ s.InOrder) ∧ s.Same t ∧ (fl' = [] ↔ s.Drains p) := by
  have hhead := h.flight.head
  unfold Service.drain at ht
  unfold Service.Drains
  split at ht
  · next hidle =>
      cases ht
      refine ⟨fl, h, Iff.rfl, ⟨rfl, rfl, rfl⟩, ?_⟩
      simp only [hidle, true_or, iff_true]
      rw [← List.length_eq_zero_iff]
      omega
  · next hbusy =>
      have hne : fl ≠ [] := by
        intro hnil
        rw [hnil, List.length_nil] at hhead
        omega
      split at ht
      · cases ht
      · next c hwait =>
          cases ht
          obtain ⟨hok, hsub⟩ := dmaWait_spec h.chan hwait
          obtain ⟨h1, h2, h3⟩ :=
            h.answerWith hok (by omega) (fun e => e.seq ≤ s.drainSeq) 0#32
          have hkeep : fl.dropWhile (fun e => decide (e.seq ≤ s.drainSeq)) = fl := by
            cases fl with
            | nil => rfl
            | cons e fl =>
                have hlt := (h.before hlen).2 e List.mem_cons_self
                rw [List.dropWhile_cons_of_neg]
                simpa using hlt
          rw [hkeep] at h1
          exact ⟨fl, h1, h2, h3, by simp [hne, hbusy, hwait]⟩
      · next c hwait =>
          cases ht
          obtain ⟨hok, hsub⟩ := dmaWait_spec h.chan hwait
          obtain ⟨h1, h2, h3⟩ := h.answerWith hok (by omega) (fun _ => true) statusEio
          rw [dropWhile_true] at h1
          exact ⟨[], h1, h2, h3, by simp [hwait]⟩

/-- Nothing moves from `s` to `t` but the engine. -/
def Service.EngineOnly (s t : Service) : Prop :=
  ∃ c, t = { s with chan := c } ∧ c.Ok ∧ s.chan.submitted ≤ c.submitted

theorem Service.engineOnly_refl (hok : s.chan.Ok) : s.EngineOnly s :=
  ⟨s.chan, rfl, hok, Nat.le_refl _⟩

/-- A copy in one go. -/
theorem Service.engineOnly_copy {p : Pass} {src dst : W64} {len : Nat} {f : Bool → Bool}
    {t : Service} {ok : Bool} (hok : s.chan.Ok)
    (h : (dmaCopy p.room p.copy p.now src dst len s.chan).map
      (fun x => (({ s with chan := x.1 } : Service), f x.2)) = some (t, ok)) :
    s.EngineOnly t := by
  obtain ⟨⟨c, fin⟩, hc, heq⟩ := Option.map_eq_some_iff.mp h
  cases heq
  obtain ⟨h1, h2⟩ := dmaCopy_spec hok hc
  exact ⟨c, rfl, h1, h2⟩

theorem Service.doRead_spec {p : Pass} {r : Record} {len : Nat} {t : Service} {ok : Bool}
    (hok : s.chan.Ok) (h : s.doRead p r len = some (t, ok)) : s.EngineOnly t := by
  unfold Service.doRead at h
  split at h
  · cases h
    exact engineOnly_refl hok
  · split at h
    · cases h
      exact engineOnly_refl hok
    · split at h
      · exact engineOnly_copy (f := id) hok h
      · cases h
        exact engineOnly_refl hok

theorem Service.doWrite_spec {p : Pass} {r : Record} {len : Nat} {t : Service} {ok : Bool}
    (hok : s.chan.Ok) (h : s.doWrite p r len = some (t, ok)) : s.EngineOnly t := by
  unfold Service.doWrite at h
  split at h
  · cases h
    exact engineOnly_refl hok
  · split at h
    · exact engineOnly_copy (f := fun ok => ok && p.store) hok h
    · cases h
      exact engineOnly_refl hok

/-- Serving a record moves nothing but the engine. -/
theorem Service.serveOne_spec {p : Pass} {r : Record} {t : Service} {status : W32}
    (hok : s.chan.Ok) (h : s.serveOne p r = some (t, status)) : s.EngineOnly t := by
  unfold Service.serveOne at h
  split at h
  · cases h
    exact engineOnly_refl hok
  · split at h
    · cases h
      exact engineOnly_refl hok
    · split at h
      · cases h
        exact engineOnly_refl hok
      · split at h
        · cases h
          exact engineOnly_refl hok
        · obtain ⟨⟨u, done⟩, hu, heq⟩ := Option.map_eq_some_iff.mp h
          cases heq
          split at hu
          · exact doRead_spec hok hu
          · exact doWrite_spec hok hu

/-- The record served comes in order exactly when nothing is left in flight. -/
theorem Service.Tracks.serve {p : Pass} {r : Record} {t : Service} (h : s.Tracks fl n)
    (hr : s.records[n]? = some r) (hp : s.pipelined r = false) (ht : s.serve p n r = some t) :
    t.Tracks fl (n + 1) ∧ (t.InOrder ↔ s.InOrder ∧ fl = []) ∧ t.records = s.records := by
  unfold Service.serve at ht
  obtain ⟨⟨u, status⟩, hu, heq⟩ := Option.map_eq_some_iff.mp ht
  obtain ⟨c, rfl, hok, hle⟩ := Service.serveOne_spec h.chan hu
  cases heq
  refine ⟨(h.withChan hok hle).complete _ status, ?_, rfl⟩
  rw [Service.inOrder_complete]
  refine and_congr_right fun _ => ?_
  constructor
  · intro hlast
    cases fl with
    | nil => rfl
    | cons e fl =>
        obtain ⟨hlt, x, hx, hpx⟩ := h.piped e List.mem_cons_self
        simp only [Service.pipelined, decide_eq_true_eq] at hpx
        exact absurd (hlast r hr hp e.num hlt x hx hpx.2.2) (h.unanswered e List.mem_cons_self)
  · rintro rfl x hx hpx m hm y hy hop
    obtain hold | ⟨e, he, -⟩ := h.settled m hm y hy hop
    · exact hold
    · cases he

end

/-! ## whole runs -/

/-- A turn of the loop; one whose waits never end leaves the service in it. -/
def Service.step (s : Service) (p : Pass) : Service := (blkStep p s).getD s

/-- Every wait of the turn ends. -/
def Service.Finishes (s : Service) (p : Pass) : Prop := (blkStep p s).isSome = true

instance (s : Service) (p : Pass) : Decidable (s.Finishes p) := inferInstanceAs (Decidable (_ = _))

/-- A record served on the spot is popped when the drain does its work. -/
def Service.DrainsFirst (s : Service) (p : Pass) : Prop :=
  ∀ r ∈ p.record, s.pipelined r = true ∨ (s.topPoll p.poll).Drains p

instance (s : Service) (p : Pass) : Decidable (s.DrainsFirst p) :=
  inferInstanceAs (Decidable (∀ _ ∈ _, _))

theorem blkStep_spec {s t : Service} {fl : List Entry} {p : Pass}
    (h : s.Tracks fl s.records.length) (ht : blkStep p s = some t) :
    (∃ fl', t.Tracks fl' t.records.length) ∧ (t.InOrder ↔ s.InOrder ∧ s.DrainsFirst p) := by
  obtain ⟨fl1, h1, hlen1, hord1, hsame1⟩ := h.topPoll p.poll
  unfold blkStep at ht
  unfold Service.DrainsFirst
  rw [← hsame1.records] at h1
  rw [← hsame1.pipelined]
  cases hrec : p.record with
  | none =>
      rw [hrec] at ht
      cases ht
      exact ⟨⟨fl1, h1⟩, by simp [hord1]⟩
  | some r =>
      rw [hrec] at ht
      dsimp only at ht
      have h2 := h1.pop r
      have hord2 := h1.inOrder_pop r
      have hr : ((s.topPoll p.poll).pop r).records[(s.topPoll p.poll).records.length]? =
          some r := by simp [Service.pop]
      have hcount : ((s.topPoll p.poll).pop r).records.length =
          (s.topPoll p.poll).records.length + 1 := by simp [Service.pop]
      have hpiped : ((s.topPoll p.poll).pop r).pipelined = (s.topPoll p.poll).pipelined := rfl
      simp only [Option.mem_some_iff, forall_eq']
      split at ht
      · next hp =>
          obtain ⟨⟨fl', h3⟩, hord3, hrecs⟩ := h2.submitRam hlen1 hr hp ht
          rw [hrecs, hcount]
          refine ⟨⟨fl', h3⟩, ?_⟩
          rw [hord3, hord2, hord1, ← hpiped]
          simp [hp]
      · next hp =>
          split at ht
          · cases ht
          · next u hdrain =>
              obtain ⟨fl', h3, hord3, hsame3, hnil⟩ := h2.drain hlen1 hdrain
              have hpu : u.pipelined r = false := by
                rw [hsame3.pipelined]
                simpa using hp
              obtain ⟨h4, hord4, hrecs⟩ := h3.serve (by rw [hsame3.records]; exact hr) hpu ht
              rw [hrecs, hsame3.records, hcount]
              refine ⟨⟨fl', h4⟩, ?_⟩
              have hdrains : ((s.topPoll p.poll).pop r).Drains p ↔ (s.topPoll p.poll).Drains p :=
                Iff.rfl
              rw [hord4, hord3, hord2, hord1, hnil, hdrains, ← hpiped]
              exact and_congr_right fun _ => (or_iff_right hp).symm

/-- A fresh service has nothing in flight. -/
theorem blkOpen_tracks (backend : Backend) (path : Path) (capacity : Nat) (ramCard staging : W64)
    (bounce : Bool) (copies : Nat) (progress : W64) :
    (blkOpen backend path capacity ramCard staging bounce copies progress).Tracks [] 0 := by
  refine ⟨⟨Nat.le_refl _, Nat.le_add_right _ _⟩, ⟨rfl, by decide, holds_nil _ _ _⟩, .nil,
    by simp, ?_, by simp, by simp, by simp [Service.answered, blkOpen], by simp⟩
  intro _
  exact ⟨Nat.zero_le _, by simp⟩

/-- **A record served on the spot is answered last**, in a whole run of the
service, exactly when each such record finds nothing in flight after the look
at the engine, or the engine failing. -/
theorem in_order_iff (backend : Backend) (path : Path) (capacity : Nat) (ramCard staging : W64)
    (bounce : Bool) (copies : Nat) (progress : W64) (ps : List Pass)
    (h : Along Service.step Service.Finishes
      (blkOpen backend path capacity ramCard staging bounce copies progress) ps) :
    (run Service.step
      (blkOpen backend path capacity ramCard staging bounce copies progress) ps).InOrder ↔
      Along Service.step Service.DrainsFirst
        (blkOpen backend path capacity ramCard staging bounce copies progress) ps := by
  generalize hs : blkOpen backend path capacity ramCard staging bounce copies progress = s at h ⊢
  have hfresh : s.Tracks [] s.records.length := by
    subst hs
    exact blkOpen_tracks ..
  have hord : s.InOrder := by
    subst hs
    exact each_nil _
  have hdone : ∀ (t : Service) (p : Pass), t.Finishes p → blkStep p t = some (t.step p) := by
    intro t p hfin
    unfold Service.step
    obtain ⟨u, hu⟩ := Option.isSome_iff_exists.mp hfin
    rw [hu]
    rfl
  have hrun : (run Service.step s ps).InOrder ↔
      s.InOrder ∧ Along Service.step Service.DrainsFirst s ps := by
    have hinv : ∀ (t : Service) (p : Pass), (∃ fl, t.Tracks fl t.records.length) →
        t.Finishes p → ∃ fl, (t.step p).Tracks fl (t.step p).records.length :=
      fun t p ⟨fl, ht⟩ hfin => (blkStep_spec ht (hdone t p hfin)).1
    have hgood : ∀ (t : Service) (p : Pass), (∃ fl, t.Tracks fl t.records.length) →
        t.Finishes p → ((t.step p).InOrder ↔ t.InOrder ∧ t.DrainsFirst p) :=
      fun t p ⟨fl, ht⟩ hfin => (blkStep_spec ht (hdone t p hfin)).2
    exact run_iff_along hinv hgood ⟨[], hfresh⟩ h
  rw [hrun]
  exact and_iff_right hord

/-! ## examples of runs -/

/-- Host memory of a megabyte behind the engine. -/
def hostMemory : Service := blkOpen .ram .dma 2048 0x9000000000#64 0x8010100000#64 false 3 0#64

/-- A pass that pops `record`; `done` is the engine's word at every look. -/
def passWith (done : Nat) (record : Record) : Pass where
  poll := ⟨done, done, 1#64⟩
  record := some record
  room := []
  drain := [⟨done, done, 1#64⟩]
  copy := []
  now := 1#64
  store := true

def writeRecord : Record := ⟨0x100#32, opWrite, 512#32, 8#64, 0x2000#64⟩
def flushRecord : Record := ⟨0x200#32, opFlush, 0#32, 0#64, 0#64⟩

/-- A write, then a flush once its copy is done. -/
theorem in_order_iff_done :
    (run Service.step (blkOpen .ram .dma 2048 0x9000000000#64 0x8010100000#64 false 3 0#64)
        [passWith 3 writeRecord, passWith 4 flushRecord]).InOrder ↔
      Along Service.step Service.DrainsFirst
        (blkOpen .ram .dma 2048 0x9000000000#64 0x8010100000#64 false 3 0#64)
        [passWith 3 writeRecord, passWith 4 flushRecord] :=
  in_order_iff .ram .dma 2048 0x9000000000#64 0x8010100000#64 false 3 0#64
    [passWith 3 writeRecord, passWith 4 flushRecord] (by decide)

/-- A write, then a flush while the copy is under way: the drain waits for the
entry before the tail, never used and long done, and the flush is answered
before the write. -/
theorem flush_overtakes :
    Along Service.step Service.Finishes hostMemory
        [passWith 3 writeRecord, passWith 3 flushRecord] ∧
      (run Service.step hostMemory [passWith 3 writeRecord, passWith 3 flushRecord]).answers =
        [⟨1, 0x200#32, 0#32⟩] ∧
      ¬ (run Service.step hostMemory
        [passWith 3 writeRecord, passWith 3 flushRecord]).InOrder := by
  have hans : (run Service.step hostMemory
      [passWith 3 writeRecord, passWith 3 flushRecord]).answers = [⟨1, 0x200#32, 0#32⟩] := by
    decide
  refine ⟨by decide, hans, ?_⟩
  intro h
  have hmem := h [] _ [] hans flushRecord (by decide) (by decide) 0 (by decide) writeRecord
    (by decide) (by decide)
  simp at hmem

end Phi.Disk
