import Phi.Lib.Run
import Phi.Serve.Control

/-!
# Phi.Serve.Stream

What the ring takes is whole frames, each client's in its order.

The bytes in the ring and in the buffer before it are the logged frames one
after the other, as long as none was copied past the buffer's end.  A client's
frames are those in the log and those it has pending, and what is pending goes
to the log as a whole when the client gets the card.
-/

namespace Phi.Serve

open Rpc

namespace Control

/-! ## the properties -/

/-- A client's frames, its samples apart. -/
def mine (owner : Nat) (es : List Entry) : List Entry :=
  es.filter fun e => e.owner = owner ∧ Tag.ofByte e.tag ≠ some .stat

/-- A client's requests for a sample. -/
def samples (owner : Nat) (es : List Entry) : List Entry :=
  es.filter fun e => e.owner = owner ∧ Tag.ofByte e.tag = some .stat

/-- The client's frames are each in the log once, in its order, or pending. -/
def Relayed (s : Control) (c : Peer) : Prop :=
  ∃ held : List Entry, c.pending = held.flatMap Entry.bytes ∧
    mine c.id s.received = mine c.id s.log ++ held ∧ samples c.id s.received = samples c.id s.log

/-! ## the invariant -/

/-- What a slot's client has in the log and holds. -/
structure Holds (s : Control) (c : Peer) (held : List Entry) : Prop where
  pending : c.pending = held.flatMap Entry.bytes
  whole : ∀ e ∈ held, e.Whole ∧ e.owner = c.id
  frames : ∀ e ∈ held, Tag.ofByte e.tag ≠ some .stat
  holder : c.id = s.holder → held = []
  relayed : c.dead = false → mine c.id s.received = mine c.id s.log ++ held ∧
    samples c.id s.received = samples c.id s.log

/-- What every step keeps. -/
structure Streams (s : Control) : Prop where
  buffered : s.Buffered
  bytes : s.overrun = false → s.pushed ++ s.toCard.content = s.log.flatMap Entry.bytes
  whole : ∀ e ∈ s.log, e.Whole
  owners : ∀ e, e ∈ s.log ∨ e ∈ s.received → e.owner ≤ s.nextId
  ids : ∀ i c, s.At i c → 0 < c.id ∧ c.id ≤ s.nextId
  unique : ∀ i j c d, s.At i c → s.At j d → c.id = d.id → i = j
  ordered : ∀ i c, s.At i c → c.dec.win.head ≤ c.dec.win.tail
  holds : ∀ i c, s.At i c → ∃ held, s.Holds c held
  tenure : ∃ before, s.log = before ++ s.tenure
  own : s.holder ≠ 0 → ∀ e ∈ s.tenure, e.owner = s.holder ∨ Tag.ofByte e.tag = some .stat

section

variable {s t : Control} {c : Peer} {e : Entry} {held : List Entry}

/-! ## a client's part of the log -/

theorem mine_other {l : List Entry} {o : Nat} (h : e.owner ≠ o) : mine o (l ++ [e]) = mine o l := by
  simp [mine, List.filter_append, h]

theorem samples_other {l : List Entry} {o : Nat} (h : e.owner ≠ o) :
    samples o (l ++ [e]) = samples o l := by
  simp [samples, List.filter_append, h]

theorem mine_frame {l : List Entry} {o : Nat} (h : e.owner = o)
    (he : Tag.ofByte e.tag ≠ some .stat) :
    mine o (l ++ [e]) = mine o l ++ [e] ∧ samples o (l ++ [e]) = samples o l := by
  simp [mine, samples, List.filter_append, h, he]

theorem mine_stat {l : List Entry} {o : Nat} (h : e.owner = o)
    (he : Tag.ofByte e.tag = some .stat) :
    mine o (l ++ [e]) = mine o l ∧ samples o (l ++ [e]) = samples o l ++ [e] := by
  simp [mine, samples, List.filter_append, h, he]

/-- Nothing is a new client's. -/
theorem mine_new {l : List Entry} {o : Nat} (h : ∀ e ∈ l, e.owner < o) :
    mine o l = [] ∧ samples o l = [] := by
  unfold mine samples
  constructor
  · refine List.filter_eq_nil_iff.mpr fun e he => ?_
    have := h e he
    simp only [decide_eq_true_eq, not_and]
    omega
  · refine List.filter_eq_nil_iff.mpr fun e he => ?_
    have := h e he
    simp only [decide_eq_true_eq, not_and]
    omega

/-- What a client has sent and holds is as it was. -/
theorem Holds.same (h : s.Holds c held) (hreceived : t.received = s.received)
    (hlog : t.log = s.log) (hholder : c.id = t.holder → c.id = s.holder) : t.Holds c held where
  pending := h.pending
  whole := h.whole
  frames := h.frames
  holder hmine := h.holder (hholder hmine)
  relayed halive := by
    rw [hreceived, hlog]
    exact h.relayed halive

/-- Another client's frame is not this one's. -/
theorem Holds.other (h : s.Holds c held) (hne : e.owner ≠ c.id)
    (hreceived : t.received = s.received ∨ t.received = s.received ++ [e])
    (hlog : t.log = s.log ∨ t.log = s.log ++ [e])
    (hholder : c.id = t.holder → c.id = s.holder) : t.Holds c held where
  pending := h.pending
  whole := h.whole
  frames := h.frames
  holder hmine := h.holder (hholder hmine)
  relayed halive := by
    have hr : mine c.id t.received = mine c.id s.received ∧
        samples c.id t.received = samples c.id s.received := by
      obtain heq | heq := hreceived
      · rw [heq]
        exact ⟨rfl, rfl⟩
      · rw [heq]
        exact ⟨mine_other hne, samples_other hne⟩
    have hl : mine c.id t.log = mine c.id s.log ∧ samples c.id t.log = samples c.id s.log := by
      obtain heq | heq := hlog
      · rw [heq]
        exact ⟨rfl, rfl⟩
      · rw [heq]
        exact ⟨mine_other hne, samples_other hne⟩
    rw [hr.1, hr.2, hl.1, hl.2]
    exact h.relayed halive

/-- The holder's frame is in the log with those before it. -/
theorem Holds.forwarded (h : s.Holds c held) (howner : e.owner = c.id)
    (he : Tag.ofByte e.tag ≠ some .stat) (hmine : c.id = s.holder)
    (hreceived : t.received = s.received ++ [e]) (hlog : t.log = s.log ++ [e]) :
    t.Holds c held where
  pending := h.pending
  whole := h.whole
  frames := h.frames
  holder _ := h.holder hmine
  relayed halive := by
    obtain ⟨hframes, hsamples⟩ := h.relayed halive
    rw [h.holder hmine, List.append_nil] at hframes
    rw [hreceived, hlog, (mine_frame howner he).1, (mine_frame howner he).2,
      (mine_frame howner he).1, (mine_frame howner he).2, hframes, hsamples, h.holder hmine,
      List.append_nil]
    exact ⟨rfl, rfl⟩

/-- A request for a sample is in the log past the rest. -/
theorem Holds.sampled (h : s.Holds c held) (howner : e.owner = c.id)
    (he : Tag.ofByte e.tag = some .stat) (hreceived : t.received = s.received ++ [e])
    (hlog : t.log = s.log ++ [e]) (hholder : c.id = t.holder → c.id = s.holder) :
    t.Holds c held where
  pending := h.pending
  whole := h.whole
  frames := h.frames
  holder hmine := h.holder (hholder hmine)
  relayed halive := by
    obtain ⟨hframes, hsamples⟩ := h.relayed halive
    rw [hreceived, hlog, (mine_stat howner he).1, (mine_stat howner he).2,
      (mine_stat howner he).1, (mine_stat howner he).2, hframes, hsamples]
    exact ⟨rfl, rfl⟩

/-- A frame held waits behind those held before. -/
theorem Holds.hold {d : Peer} (h : s.Holds c held) (he : e.Whole) (howner : e.owner = c.id)
    (hframe : Tag.ofByte e.tag ≠ some .stat) (hnot : c.id ≠ s.holder) (hid : d.id = c.id)
    (hdead : d.dead = c.dead) (hpending : d.pending = c.pending ++ e.bytes)
    (hreceived : t.received = s.received ++ [e]) (hlog : t.log = s.log)
    (hholder : t.holder = s.holder) : t.Holds d (held ++ [e]) where
  pending := by simp [hpending, h.pending]
  whole x hx := by
    rw [hid]
    obtain hold | hnew := List.mem_append.mp hx
    · exact h.whole x hold
    · rw [List.mem_singleton.mp hnew]
      exact ⟨he, howner⟩
  frames x hx := by
    obtain hold | hnew := List.mem_append.mp hx
    · exact h.frames x hold
    · rw [List.mem_singleton.mp hnew]
      exact hframe
  holder hmine := absurd (by rw [← hid, hmine, hholder]) hnot
  relayed halive := by
    rw [hdead] at halive
    obtain ⟨hframes, hsamples⟩ := h.relayed halive
    rw [hid, hreceived, hlog, (mine_frame howner hframe).1, (mine_frame howner hframe).2, hframes,
      hsamples, List.append_assoc]
    exact ⟨rfl, rfl⟩

/-! ## the stream -/

/-- What is given to the card. -/
def cardSide (s : Control) : Window UInt8 × Bool × List UInt8 × List Entry × List Entry :=
  (s.toCard, s.overrun, s.pushed, s.log, s.tenure)

theorem cardSide_eq : t.cardSide = s.cardSide ↔ t.toCard = s.toCard ∧ t.overrun = s.overrun ∧
    t.pushed = s.pushed ∧ t.log = s.log ∧ t.tenure = s.tenure := by
  simp only [cardSide, Prod.mk.injEq]

/-- The stream as it was, with the slots anew. -/
theorem Streams.same (h : s.Streams) (hside : t.cardSide = s.cardSide)
    (hnext : s.nextId ≤ t.nextId) (hholder : t.holder = s.holder ∨ t.holder = 0)
    (hreceived : ∀ e ∈ t.received, e.owner ≤ t.nextId)
    (hids : ∀ i c, t.At i c → 0 < c.id ∧ c.id ≤ t.nextId)
    (hunique : ∀ i j c d, t.At i c → t.At j d → c.id = d.id → i = j)
    (hordered : ∀ i c, t.At i c → c.dec.win.head ≤ c.dec.win.tail)
    (hholds : ∀ i c, t.At i c → ∃ held, t.Holds c held) : t.Streams := by
  obtain ⟨hcard, hrun, hpushed, hlog, htenure⟩ := cardSide_eq.mp hside
  refine ⟨⟨?_, ?_⟩, fun hno => ?_, ?_, fun e he => ?_, hids, hunique, hordered, hholds, ?_,
    fun hne => ?_⟩
  · rw [hcard]
    exact h.buffered.ordered
  · rw [hrun, hcard]
    exact h.buffered.inside
  · rw [hrun] at hno
    rw [hpushed, hcard, hlog]
    exact h.bytes hno
  · rw [hlog]
    exact h.whole
  · obtain hl | hr := he
    · rw [hlog] at hl
      exact Nat.le_trans (h.owners e (.inl hl)) hnext
    · exact hreceived e hr
  · rw [hlog, htenure]
    exact h.tenure
  · obtain heq | hzero := hholder
    · rw [heq] at hne ⊢
      rw [htenure]
      exact h.own hne
    · exact absurd hzero hne

/-- A frame sent to the buffer. -/
theorem Streams.send (h : s.Streams) (he : e.Whole) (howner : e.owner ≤ s.nextId)
    (hown : s.holder ≠ 0 → e.owner = s.holder ∨ Tag.ofByte e.tag = some .stat)
    (hside : t.cardSide = (s.toCardAppend e).cardSide)
    (hnext : t.nextId = s.nextId) (hholder : t.holder = s.holder)
    (hslots : t.slots = s.slots) (hreceived : t.received = s.received ∨
      t.received = s.received ++ [e])
    (hholds : ∀ i c, s.At i c → ∃ held, t.Holds c held) : t.Streams := by
  obtain ⟨hcard, hrun, hpushed, hlog, htenure⟩ := cardSide_eq.mp hside
  have hbuffered := h.buffered.append e
  have hat : ∀ i c, t.At i c → s.At i c := by
    intro i c hc
    unfold At at *
    rwa [hslots] at hc
  refine ⟨⟨?_, ?_⟩, fun hno => ?_, fun x hx => ?_, fun x hx => ?_, fun i c hc => ?_,
    fun i j c d hc hd => h.unique i j c d (hat i c hc) (hat j d hd),
    fun i c hc => h.ordered i c (hat i c hc), fun i c hc => hholds i c (hat i c hc), ?_,
    fun hne x hx => ?_⟩
  · rw [hcard]
    exact hbuffered.ordered
  · rw [hrun, hcard]
    exact hbuffered.inside
  · rw [hrun] at hno
    have hbefore := h.bytes ((overrun_toCardAppend h.buffered).mp hno).1
    show t.pushed ++ t.toCard.content = t.log.flatMap Entry.bytes
    rw [hpushed, hcard, content_toCardAppend h.buffered hno, hlog, ← List.append_assoc]
    simp [toCardAppend, hbefore]
  · rw [hlog] at hx
    obtain hold | hnew := List.mem_append.mp hx
    · exact h.whole x hold
    · rw [List.mem_singleton.mp hnew]
      exact he
  · have hin : x ∈ s.log ∨ x ∈ s.received ∨ x = e := by
      obtain hl | hr := hx
      · rw [hlog] at hl
        obtain hold | hnew := List.mem_append.mp hl
        · exact .inl hold
        · exact .inr (.inr (List.mem_singleton.mp hnew))
      · obtain heq | heq := hreceived
        · rw [heq] at hr
          exact .inr (.inl hr)
        · rw [heq, List.mem_append, List.mem_singleton] at hr
          exact .inr hr
    rw [hnext]
    obtain hl | hr | rfl := hin
    · exact h.owners x (.inl hl)
    · exact h.owners x (.inr hr)
    · exact howner
  · rw [hnext]
    exact h.ids i c (hat i c hc)
  · obtain ⟨before, hbefore⟩ := h.tenure
    refine ⟨before, ?_⟩
    rw [hlog, htenure]
    simp [toCardAppend, hbefore]
  · rw [hholder] at hne ⊢
    rw [htenure] at hx
    obtain hold | hnew := List.mem_append.mp hx
    · exact h.own hne x hold
    · rw [List.mem_singleton.mp hnew]
      exact hown hne

/-- The clients are the same when a slot is rewritten for the one it holds. -/
theorem Streams.seats {i : Nat} {d : Peer} (h : s.Streams) (hc : s.At i c) (hid : d.id = c.id)
    (hordered : d.dec.win.head ≤ d.dec.win.tail) (hnext : t.nextId = s.nextId)
    (hat : ∀ j x, t.At j x → (j = i ∧ x = d) ∨ (j ≠ i ∧ s.At j x)) :
    (∀ j x, t.At j x → 0 < x.id ∧ x.id ≤ t.nextId) ∧
      (∀ j k x y, t.At j x → t.At k y → x.id = y.id → j = k) ∧
      ∀ j x, t.At j x → x.dec.win.head ≤ x.dec.win.tail := by
  refine ⟨fun j x hx => ?_, fun j k x y hx hy heq => ?_, fun j x hx => ?_⟩
  · rw [hnext]
    obtain ⟨-, rfl⟩ | ⟨-, hx'⟩ := hat j x hx
    · rw [hid]
      exact h.ids i c hc
    · exact h.ids j x hx'
  · obtain ⟨rfl, rfl⟩ | ⟨-, hx'⟩ := hat j x hx
    · obtain ⟨rfl, -⟩ | ⟨-, hy'⟩ := hat k y hy
      · rfl
      · exact h.unique j k c y hc hy' (by rw [← hid, heq])
    · obtain ⟨rfl, rfl⟩ | ⟨-, hy'⟩ := hat k y hy
      · exact h.unique j k x c hx' hc (by rw [heq, hid])
      · exact h.unique j k x y hx' hy' heq
  · obtain ⟨-, rfl⟩ | ⟨-, hx'⟩ := hat j x hx
    · exact hordered
    · exact h.ordered j x hx'

/-- A slot rewritten for the same client. -/
theorem Streams.rewrite {i : Nat} {d : Peer} (h : s.Streams) (hc : s.At i c) (hid : d.id = c.id)
    (hordered : d.dec.win.head ≤ d.dec.win.tail)
    (hslots : t.slots = s.slots.set i (some d)) (hside : t.cardSide = s.cardSide)
    (hnext : t.nextId = s.nextId) (hholder : t.holder = s.holder)
    (hreceived : t.received = s.received ∨
      ∃ e : Entry, e.owner = c.id ∧ t.received = s.received ++ [e])
    (hholds : ∃ held, t.Holds d held) : t.Streams := by
  have hat : ∀ j x, t.At j x → (j = i ∧ x = d) ∨ (j ≠ i ∧ s.At j x) := by
    intro j x hx
    refine at_setSlot (s := s) ?_
    unfold At at *
    rwa [hslots] at hx
  obtain ⟨hids, hunique, hdecs⟩ := h.seats hc hid hordered hnext hat
  obtain ⟨-, -, -, hlog, -⟩ := cardSide_eq.mp hside
  refine h.same hside (Nat.le_of_eq hnext.symm) (.inl hholder) ?_ hids hunique hdecs ?_
  · intro e he
    rw [hnext]
    obtain heq | ⟨x, hx, heq⟩ := hreceived
    · rw [heq] at he
      exact h.owners e (.inr he)
    · rw [heq] at he
      obtain hold | hnew := List.mem_append.mp he
      · exact h.owners e (.inr hold)
      · rw [List.mem_singleton.mp hnew, hx]
        exact (h.ids i c hc).2
  · intro j x hx
    obtain ⟨-, rfl⟩ | ⟨hj, hx⟩ := hat j x hx
    · exact hholds
    · obtain ⟨held, hheld⟩ := h.holds j x hx
      obtain heq | ⟨e, he, heq⟩ := hreceived
      · exact ⟨held, hheld.same heq hlog fun hm => by rw [hm, hholder]⟩
      · have hne : e.owner ≠ x.id := by
          intro hsame
          exact hj (h.unique j i x c hx hc (by rw [← hsame, he]))
        exact ⟨held, hheld.other hne (.inr heq) (.inl hlog) fun hm => by rw [hm, hholder]⟩

/-! ## clients to the card -/

/-- A frame cut and handled. -/
theorem Streams.handleFrame {i : Nat} {d : Dec} {tag : UInt8} {body : List UInt8}
    (h : s.Streams) (hc : s.At i c) (hnext : c.dec.next = some (.frame tag body, d))
    (answered : Bool) :
    ((s.setSlot i (some { c with dec := d })).handleFrame i answered tag body).Streams := by
  obtain ⟨hordered, -, -, -, hwhole⟩ := decNext_frame (h.ordered i c hc) hnext
  obtain ⟨held, hheld⟩ := h.holds i c hc
  have hu : (s.setSlot i (some { c with dec := d })).Streams :=
    h.rewrite (d := { c with dec := d }) hc rfl hordered rfl rfl rfl rfl (.inl rfl)
      ⟨held, hheld.pending, hheld.whole, hheld.frames, hheld.holder, hheld.relayed⟩
  have hat := at_setSlot_self hc { c with dec := d }
  generalize s.setSlot i (some { c with dec := d }) = u at hu hat
  obtain ⟨held, hheld⟩ := hu.holds i _ hat
  have hdead : ∀ v : Control, v.received = u.received ∨ v.received = u.received ++
      [⟨c.id, tag, frameBytes d body⟩] → v.log = u.log → v.holder = u.holder →
      ∃ held, v.Holds { c with dec := d, dead := true } held := by
    intro v _ _ hholder
    exact ⟨held, hheld.pending, hheld.whole, hheld.frames,
      fun hm => hheld.holder (hm.trans hholder), nofun⟩
  have hothers : ∀ j x, u.At j x → ∀ v : Control,
      v.received = u.received ++ [⟨c.id, tag, frameBytes d body⟩] →
      (v.log = u.log ∨ v.log = u.log ++ [⟨c.id, tag, frameBytes d body⟩]) →
      v.holder = u.holder → j ≠ i → ∃ held, v.Holds x held := by
    intro j x hx v hr hl hholder hj
    obtain ⟨hl', hheld'⟩ := hu.holds j x hx
    have hne : c.id ≠ x.id := fun heq => hj (hu.unique j i x _ hx hat heq.symm)
    exact ⟨hl', hheld'.other (e := ⟨c.id, tag, frameBytes d body⟩) hne (.inr hr) hl
      fun hm => hm.trans hholder⟩
  have hself : ∀ j x, u.At j x → j = i → x = { c with dec := d } := by
    intro j x hx hj
    subst hj
    exact at_inj hx hat
  obtain ⟨-, ht | ht⟩ | ⟨hstat, q, n, ht⟩ | ⟨hframe, hmine, ht⟩ |
    ⟨hframe, hnot, ⟨-, ht⟩ | ⟨-, ht⟩⟩ := handleFrame_cases hat answered tag body
  · rw [ht]
    exact hu
  · rw [ht]
    exact hu.rewrite (d := { c with dec := d, dead := true }) hat rfl hordered rfl rfl rfl rfl
      (.inl rfl) (hdead _ (.inl rfl) rfl rfl)
  · rw [ht]
    refine hu.send (hwhole c.id) (hu.ids i _ hat).2 (fun _ => .inr hstat) rfl rfl rfl rfl
      (.inr rfl) fun j x hx => ?_
    by_cases hj : j = i
    · rw [hself j x hx hj]
      exact ⟨held, hheld.sampled rfl hstat rfl rfl id⟩
    · exact hothers j x hx _ rfl (.inr rfl) rfl hj
  · rw [ht]
    refine hu.send (hwhole c.id) (hu.ids i _ hat).2 (fun _ => .inl hmine) rfl rfl rfl rfl
      (.inr rfl) fun j x hx => ?_
    by_cases hj : j = i
    · rw [hself j x hx hj]
      exact ⟨held, hheld.forwarded rfl hframe hmine rfl rfl⟩
    · exact hothers j x hx _ rfl (.inr rfl) rfl hj
  · rw [ht]
    exact hu.rewrite (d := { c with dec := d, dead := true }) hat rfl hordered rfl rfl rfl rfl
      (.inr ⟨_, rfl, rfl⟩) (hdead _ (.inr rfl) rfl rfl)
  · rw [ht]
    exact hu.rewrite (d := { c with dec := d, pending := c.pending ++ frameBytes d body }) hat rfl
      hordered rfl rfl rfl rfl (.inr ⟨_, rfl, rfl⟩)
      ⟨_, hheld.hold (hwhole c.id) rfl hframe hnot rfl rfl rfl rfl rfl rfl⟩

/-- A client given up keeps its place, and nothing more is promised to it. -/
theorem Streams.giveUp {i : Nat} {d : Peer} (h : s.Streams) (hc : s.At i c) (hid : d.id = c.id)
    (hpending : d.pending = c.pending) (hdead : d.dead = true)
    (hordered : d.dec.win.head ≤ d.dec.win.tail) : (s.setSlot i (some d)).Streams := by
  obtain ⟨held, hheld⟩ := h.holds i c hc
  have hholds : (s.setSlot i (some d)).Holds d held :=
    { pending := by rw [hpending, hheld.pending]
      whole := by rw [hid]; exact hheld.whole
      frames := hheld.frames
      holder := by rw [hid]; exact hheld.holder
      relayed := by rw [hdead]; exact nofun }
  exact h.rewrite hc hid hordered rfl rfl rfl rfl (.inl rfl) ⟨held, hholds⟩

theorem Streams.markDead (h : s.Streams) (i : Nat) : (s.markDead i).Streams := by
  unfold Control.markDead
  split
  · next c hc => exact h.giveUp (d := { c with dead := true }) hc rfl rfl rfl (h.ordered i c hc)
  · exact h

/-- The frames of one read, handled one after the other. -/
theorem Streams.handleFrames (h : s.Streams) (i : Nat) (answered : Nat → Bool) (n : Nat) :
    (s.handleFrames i answered n).Streams := by
  induction n generalizing s with
  | zero => exact h
  | succ n ih =>
      unfold Control.handleFrames
      split
      · next c hc =>
          split
          · exact h
          · next hnext => exact ih (h.handleFrame hc hnext (answered n))
          · next d _ hnext =>
              exact h.giveUp (d := { c with dec := d, dead := true }) hc rfl rfl rfl
                (decNext_ordered (h.ordered i c hc) hnext)
      · exact h

theorem Streams.clientToCard (h : s.Streams) (i : Nat) (answered : Nat → Bool)
    (chunk : Option (List UInt8)) : (s.clientToCard i answered chunk).Streams := by
  unfold Control.clientToCard
  split
  · next c hc =>
      split
      · cases chunk with
        | none => exact h.markDead i
        | some bytes =>
            obtain ⟨-, hordered⟩ := Dec.push_content (h.ordered i c hc) (bytes.take readChunk)
            obtain ⟨held, hheld⟩ := h.holds i c hc
            have hread := h.rewrite (t := s.setSlot i
              (some { c with dec := c.dec.push (bytes.take readChunk) }))
              (d := { c with dec := c.dec.push (bytes.take readChunk) }) hc rfl hordered rfl rfl rfl
              rfl (.inl rfl)
              ⟨held, hheld.pending, hheld.whole, hheld.frames, hheld.holder, hheld.relayed⟩
            exact hread.handleFrames i answered _
      · exact h
  · exact h

/-! ## the ring takes bytes -/

theorem Streams.pushToCard (h : s.Streams) (n : Nat) : (s.pushToCard n).Streams := by
  have hbuffered := h.buffered.pushToCard n
  unfold Control.pushToCard at hbuffered ⊢
  split
  · exact h
  · next hsome =>
      rw [if_neg hsome] at hbuffered
      have hmoved : s.toCard.content.take (min n s.toCard.size) ++
          (s.toCard.advance (min n s.toCard.size)).content = s.toCard.content := by
        rw [Window.content_advance, List.take_append_drop]
      refine ⟨hbuffered, ?_, h.whole, h.owners, h.ids, h.unique, h.ordered, ?_, h.tenure, h.own⟩
      · intro hrun
        have hbytes := h.bytes hrun
        dsimp only
        rw [← hbytes, List.append_assoc]
        congr 1
        split
        · next hempty =>
            have hnil : (s.toCard.advance (min n s.toCard.size)).content = [] := by
              rw [Window.content_eq_nil_iff]
              exact Nat.sub_eq_zero_of_le (Nat.le_of_eq hempty.symm)
            rw [hnil, List.append_nil] at hmoved
            rw [Window.content_clear, List.append_nil, hmoved]
        · exact hmoved
      · intro i c hc
        obtain ⟨held, hheld⟩ := h.holds i c hc
        exact ⟨held, hheld.same rfl rfl id⟩

/-! ## the holder comes and goes -/

/-- Neither a frame nor a client came or went. -/
theorem Streams.keep (h : s.Streams) (hslots : ∀ i c, t.At i c → s.At i c)
    (hside : t.cardSide = s.cardSide) (hnext : t.nextId = s.nextId)
    (hholder : t.holder = s.holder ∨ t.holder = 0) (hreceived : t.received = s.received) :
    t.Streams := by
  obtain ⟨-, -, -, hlog, -⟩ := cardSide_eq.mp hside
  refine h.same hside (Nat.le_of_eq hnext.symm) hholder ?_ ?_ ?_ ?_ ?_
  · intro e he
    rw [hreceived] at he
    rw [hnext]
    exact h.owners e (.inr he)
  · intro i c hc
    rw [hnext]
    exact h.ids i c (hslots i c hc)
  · exact fun i j c d hc hd => h.unique i j c d (hslots i c hc) (hslots j d hd)
  · exact fun i c hc => h.ordered i c (hslots i c hc)
  · intro i c hc
    obtain ⟨held, hheld⟩ := h.holds i c (hslots i c hc)
    refine ⟨held, hheld.same hreceived hlog fun hm => ?_⟩
    obtain heq | hzero := hholder
    · rw [hm, heq]
    · have hpos := (h.ids i c (hslots i c hc)).1
      omega

theorem Streams.leave (h : s.Streams) (i : Nat) : (s.leave i).Streams :=
  h.keep (fun _ _ hc => (at_leave hc).2) rfl rfl (.inl rfl) rfl

/-- A frame that is its tag only is whole when its tag takes no fields. -/
theorem whole_tagFrame (owner : Nat) {t : Tag} (ht : t = .stdinEof ∨ t = .putClose) :
    (tagFrame owner t).Whole := by
  refine ⟨[], ?_⟩
  obtain rfl | rfl := ht
  · show cut (putU32 1 ++ [Tag.stdinEof.toByte]) = some (.frame Tag.stdinEof.toByte [], [])
    decide
  · show cut (putU32 1 ++ [Tag.putClose.toByte]) = some (.frame Tag.putClose.toByte [], [])
    decide

theorem Streams.abandon {i : Nat} (h : s.Streams) (hc : s.At i c) (hdead : c.dead = true)
    (hholder : s.holder = 0) : (s.abandon c.id).Streams := by
  have hclose : ∀ (t : Tag) (u : Session), t = .stdinEof ∨ t = .putClose →
      ({ s.toCardAppend (tagFrame c.id t) with session := u } : Control).Streams := by
    intro t u ht
    refine h.send (whole_tagFrame c.id ht) (h.ids i c hc).2 (absurd hholder) rfl rfl rfl rfl
      (.inl rfl) fun j x hx => ?_
    obtain ⟨held, hheld⟩ := h.holds j x hx
    by_cases hj : j = i
    · subst hj
      obtain rfl : x = c := at_inj hx hc
      exact ⟨held, hheld.pending, hheld.whole, hheld.frames, hheld.holder,
        by rw [hdead]; exact nofun⟩
    · have hne : c.id ≠ x.id := fun heq => hj (h.unique j i x c hx hc heq.symm)
      exact ⟨held, hheld.other (e := tagFrame c.id t) hne (.inl rfl) (.inr rfl) id⟩
  obtain ⟨-, heq⟩ | ⟨-, heq⟩ | ⟨-, -, heq⟩ := abandon_cases s c.id
  · rw [heq]
    exact hclose .stdinEof .execClosed (.inl rfl)
  · rw [heq]
    exact hclose .putClose .putClosed (.inr rfl)
  · rw [heq]
    exact h

theorem Streams.reapClient (h : s.Streams) (i : Nat) : (s.reapClient i).Streams := by
  obtain ⟨heq, -⟩ | ⟨c, hc, hdead, ⟨-, heq⟩ | ⟨-, heq⟩⟩ := reapClient_cases s i
  · rw [heq]
    exact h
  · rw [heq]
    exact h.leave i
  · have hfreed : ({ s with holder := 0 } : Control).Streams :=
      h.keep (fun _ _ hx => hx) rfl rfl (.inr rfl) rfl
    have hat : ({ s with holder := 0 } : Control).At i c := hc
    rw [heq]
    exact (hfreed.abandon hat hdead rfl).leave i

/-- What forwarding frames one after the other comes to. -/
structure Forwards (s t : Control) (es : List Entry) : Prop where
  rest : t = { s with
    toCard := t.toCard, overrun := t.overrun, session := t.session,
    log := s.log ++ es, tenure := s.tenure ++ es }
  buffered : t.Buffered
  content : t.overrun = false → s.overrun = false ∧
    t.toCard.content = s.toCard.content ++ es.flatMap Entry.bytes

theorem forwards_all (h : s.Buffered) (es : List Entry) :
    Forwards s (es.foldl (fun t e => t.forwardFrame e) s) es := by
  induction es generalizing s with
  | nil => exact ⟨by simp, h, fun hrun => ⟨hrun, by simp⟩⟩
  | cons e es ih =>
      have hone : (s.forwardFrame e).Buffered :=
        Buffered.append (s := { s with session := follow s.session (Tag.ofByte e.tag) })
          ⟨h.ordered, h.inside⟩ e
      obtain ⟨hrest, hbuffered, hcontent⟩ := ih hone
      rw [List.foldl_cons]
      refine ⟨?_, hbuffered, fun hrun => ?_⟩
      · rw [hrest]
        simp [forwardFrame, toCardAppend]
      · obtain ⟨hno, heq⟩ := hcontent hrun
        have hfits : (s.toCardAppend e).overrun = false := hno
        have hfirst : (s.forwardFrame e).toCard.content = s.toCard.content ++ e.bytes :=
          content_toCardAppend (s := s) h hfits
        refine ⟨((overrun_toCardAppend h).mp hfits).1, ?_⟩
        rw [heq, hfirst, List.flatMap_cons, List.append_assoc]

theorem mine_append_other {l es : List Entry} {o : Nat} (h : ∀ e ∈ es, e.owner ≠ o) :
    mine o (l ++ es) = mine o l ∧ samples o (l ++ es) = samples o l := by
  have hnone : mine o es = [] ∧ samples o es = [] := by
    unfold mine samples
    constructor
    · exact List.filter_eq_nil_iff.mpr fun e he => by simp [h e he]
    · exact List.filter_eq_nil_iff.mpr fun e he => by simp [h e he]
  obtain ⟨hframes, hsamples⟩ := hnone
  unfold mine samples at *
  rw [List.filter_append, List.filter_append, hframes, hsamples, List.append_nil, List.append_nil]
  exact ⟨rfl, rfl⟩

theorem mine_append_frames {l es : List Entry} {o : Nat} (h : ∀ e ∈ es, e.owner = o)
    (hframes : ∀ e ∈ es, Tag.ofByte e.tag ≠ some .stat) :
    mine o (l ++ es) = mine o l ++ es ∧ samples o (l ++ es) = samples o l := by
  have hall : mine o es = es ∧ samples o es = [] := by
    unfold mine samples
    constructor
    · exact List.filter_eq_self.mpr fun e he => by simp [h e he, hframes e he]
    · exact List.filter_eq_nil_iff.mpr fun e he => by simp [hframes e he]
  obtain ⟨hmine, hsamples⟩ := hall
  unfold mine samples at *
  rw [List.filter_append, List.filter_append, hmine, hsamples, List.append_nil]
  exact ⟨rfl, rfl⟩

/-- Giving the card away forwards what the new holder has pending. -/
theorem Streams.pickHolder_cases (h : s.Streams) : s.pickHolder = s ∨
    ∃ i c held, s.Picks i c ∧ s.Holds c held ∧ s.pickHolder =
      (held.foldl (fun (t : Control) e => t.forwardFrame e)
        { s with holder := c.id, tenure := [] }).setSlot i (some { c with pending := [] }) := by
  obtain ⟨heq, -⟩ | ⟨i, c, hpicks, heq⟩ := Control.pickHolder_cases s
  · exact .inl heq
  · obtain ⟨held, hheld⟩ := h.holds i c hpicks.2.2.2
    have hwalk := forwardPending_eq (s := { s with holder := c.id, tenure := [] }) hheld.whole
      (Nat.le_refl _)
    rw [← hheld.pending] at hwalk
    exact .inr ⟨i, c, held, hpicks, hheld, by rw [heq, hwalk]⟩

/-- The new holder's pending frames go to the card as a whole. -/
theorem Streams.pickHolder (h : s.Streams) : s.pickHolder.Streams := by
  obtain heq | ⟨i, c, held, ⟨-, hfree, -, hc⟩, hheld, heq⟩ := h.pickHolder_cases
  · rw [heq]
    exact h
  · rw [heq]
    obtain ⟨hrest, hbuffered, hcontent⟩ := forwards_all
      (s := { s with holder := c.id, tenure := [] }) ⟨h.buffered.ordered, h.buffered.inside⟩ held
    generalize held.foldl (fun (t : Control) e => t.forwardFrame e) _ = t
      at hrest hbuffered hcontent
    have hat : ∀ j x, (t.setSlot i (some { c with pending := [] })).At j x →
        (j = i ∧ x = { c with pending := [] }) ∨ (j ≠ i ∧ s.At j x) := by
      intro j x hx
      obtain hself | ⟨hj, hx⟩ := at_setSlot hx
      · exact .inl hself
      · rw [hrest] at hx
        exact .inr ⟨hj, hx⟩
    have hlog : t.log = s.log ++ held := by rw [hrest]
    have htenure : t.tenure = held := by
      rw [hrest]
      exact List.nil_append held
    have hpushed : t.pushed = s.pushed := by rw [hrest]
    have hreceived : t.received = s.received := by rw [hrest]
    have hnext : t.nextId = s.nextId := by rw [hrest]
    have hholder : t.holder = c.id := by rw [hrest]
    obtain ⟨hids, hunique, hdecs⟩ := h.seats
      (t := t.setSlot i (some { c with pending := [] })) (d := { c with pending := [] }) hc rfl
      (h.ordered i c hc) hnext hat
    refine ⟨⟨hbuffered.ordered, hbuffered.inside⟩, ?_, ?_, ?_, hids, hunique, hdecs, ?_, ?_, ?_⟩
    · intro hrun
      obtain ⟨hno, hadded⟩ := hcontent hrun
      show t.pushed ++ t.toCard.content = t.log.flatMap Entry.bytes
      rw [hpushed, hadded, hlog, List.flatMap_append, ← h.bytes hno, List.append_assoc]
    · intro e he
      have hmem : e ∈ s.log ++ held := hlog ▸ he
      obtain hold | hnew := List.mem_append.mp hmem
      · exact h.whole e hold
      · exact (hheld.whole e hnew).1
    · intro e he
      have hmem : e ∈ t.log ∨ e ∈ t.received := he
      rw [hlog, hreceived, List.mem_append] at hmem
      show e.owner ≤ t.nextId
      rw [hnext]
      obtain (hold | hnew) | hgot := hmem
      · exact h.owners e (.inl hold)
      · rw [(hheld.whole e hnew).2]
        exact (h.ids i c hc).2
      · exact h.owners e (.inr hgot)
    · intro j x hx
      obtain ⟨-, rfl⟩ | ⟨hj, hx⟩ := hat j x hx
      · refine ⟨[], rfl, nofun, nofun, fun _ => rfl, fun halive => ?_⟩
        obtain ⟨hframes, hsamples⟩ := hheld.relayed halive
        have hown := mine_append_frames (l := s.log) (fun e he => (hheld.whole e he).2) hheld.frames
        show mine c.id t.received = mine c.id t.log ++ [] ∧
          samples c.id t.received = samples c.id t.log
        rw [hreceived, hlog, hown.1, hown.2, hframes, hsamples, List.append_nil]
        exact ⟨rfl, rfl⟩
      · obtain ⟨others, hothers⟩ := h.holds j x hx
        have hne : c.id ≠ x.id := fun hsame => hj (h.unique j i x c hx hc hsame.symm)
        have hapart := mine_append_other (l := s.log) (o := x.id)
          fun e he => by rw [(hheld.whole e he).2]; exact hne
        refine ⟨others, hothers.pending, hothers.whole, hothers.frames, fun hm => ?_,
          fun halive => ?_⟩
        · have hsame : x.id = t.holder := hm
          exact absurd (hholder ▸ hsame.symm) hne
        · show mine x.id t.received = mine x.id t.log ++ others ∧
            samples x.id t.received = samples x.id t.log
          rw [hreceived, hlog, hapart.1, hapart.2]
          exact hothers.relayed halive
    · refine ⟨s.log, ?_⟩
      show t.log = s.log ++ t.tenure
      rw [hlog, htenure]
    · intro _ e he
      have hmem : e ∈ held := htenure ▸ he
      refine .inl ?_
      show e.owner = t.holder
      rw [hholder, (hheld.whole e hmem).2]

/-! ## the other routines -/

theorem Streams.acceptClient (h : s.Streams) (uid : Nat) : (s.acceptClient uid).Streams := by
  unfold Control.acceptClient
  split
  · exact h
  · split
    · exact h
    · split
      · exact h
      · next i hi =>
          generalize ht : ({ s with
            nextId := s.nextId + 1
            slots := s.slots.set i (some ⟨s.nextId + 1, false, [], .init fun _ => 0⟩)
            nclients := s.nclients + 1 } : Control) = t
          have hnext : t.nextId = s.nextId + 1 := by rw [← ht]
          have hat : ∀ j x, t.At j x →
              (j = i ∧ x = ⟨s.nextId + 1, false, [], .init fun _ => 0⟩) ∨ (j ≠ i ∧ s.At j x) := by
            intro j x hx
            rw [← ht] at hx
            exact at_setSlot (s := s) hx
          refine h.same (t := t) (by rw [← ht]; rfl) (by omega) (.inl (by rw [← ht])) ?_ ?_ ?_ ?_ ?_
          · intro e he
            rw [← ht] at he
            have hle := h.owners e (.inr he)
            omega
          · intro j x hx
            obtain ⟨-, rfl⟩ | ⟨-, hx⟩ := hat j x hx
            · dsimp only
              omega
            · have hids := h.ids j x hx
              omega
          · intro j k x y hx hy hsame
            obtain ⟨rfl, rfl⟩ | ⟨-, hx⟩ := hat j x hx
            · obtain ⟨rfl, -⟩ | ⟨-, hy⟩ := hat k y hy
              · rfl
              · have hids := h.ids k y hy
                dsimp only at hsame
                omega
            · obtain ⟨rfl, rfl⟩ | ⟨-, hy⟩ := hat k y hy
              · have hids := h.ids j x hx
                dsimp only at hsame
                omega
              · exact h.unique j k x y hx hy hsame
          · intro j x hx
            obtain ⟨-, rfl⟩ | ⟨-, hx⟩ := hat j x hx
            · exact Nat.le_refl 0
            · exact h.ordered j x hx
          · intro j x hx
            obtain ⟨-, rfl⟩ | ⟨-, hx⟩ := hat j x hx
            · refine ⟨[], rfl, nofun, nofun, fun _ => rfl, fun _ => ?_⟩
              have hgot := mine_new (l := s.received) (o := s.nextId + 1) fun e he =>
                Nat.lt_succ_of_le (h.owners e (.inr he))
              have hlog := mine_new (l := s.log) (o := s.nextId + 1) fun e he =>
                Nat.lt_succ_of_le (h.owners e (.inl he))
              rw [← ht]
              dsimp only
              rw [hgot.1, hgot.2, hlog.1, hlog.2]
              exact ⟨rfl, rfl⟩
            · obtain ⟨held, hheld⟩ := h.holds j x hx
              rw [← ht]
              exact ⟨held, hheld.same rfl rfl id⟩

theorem Streams.sendTo (h : s.Streams) (id : Nat) (ok : Bool) : (s.sendTo id ok).Streams := by
  unfold Control.sendTo
  split
  · exact h
  · split
    · exact h
    · exact h.markDead _

theorem Streams.deliver (h : s.Streams) (ok : Bool) : (s.deliver ok).Streams := by
  unfold Control.deliver
  split
  · exact h
  · next r rest _ =>
      have hreceived : ({ s with fromCard := rest } : Control).Streams :=
        h.keep (fun _ _ hx => hx) rfl rfl (.inl rfl) rfl
      dsimp only
      split
      · split
        · exact hreceived
        · have hnext : ({ s with fromCard := rest, statQh := s.statQh + 1 } : Control).Streams :=
            h.keep (fun _ _ hx => hx) rfl rfl (.inl rfl) rfl
          exact hnext.sendTo _ ok
      · have hsent : (if s.holder = 0 then { s with fromCard := rest }
            else ({ s with fromCard := rest } : Control).sendTo s.holder ok).Streams := by
          split
          · exact hreceived
          · exact hreceived.sendTo s.holder ok
        split
        · exact hsent.keep (fun _ _ hx => hx) rfl rfl (.inr rfl) rfl
        · exact hsent

theorem Streams.agents (h : s.Streams) (ht : s.Agents t) : t.Streams := by
  obtain ⟨a, r, n, rfl⟩ := ht
  exact h.keep (fun _ _ hx => hx) rfl rfl (.inl rfl) rfl

/-- **Step lemma**: every step keeps the stream whole and the clients' frames in
order. -/
theorem Streams.step (h : s.Streams) (m : Move) : (s.step m).Streams := by
  cases m with
  | accept uid => exact h.acceptClient uid
  | read i answered chunk => exact h.clientToCard i answered chunk
  | reap i => exact h.reapClient i
  | pick => exact h.pickHolder
  | push n => exact h.pushToCard n
  | deliver ok => exact h.deliver ok
  | agentTake ok => exact h.agents (agents_agentTake s ok)
  | agentOutput tag => exact h.agents (agents_agentOutput s tag)

theorem streams_opened (serveOwner : Nat) (cells : Nat → UInt8) :
    (opened serveOwner cells).Streams where
  buffered := ⟨Nat.le_refl 0, fun _ => Nat.zero_le _⟩
  bytes _ := rfl
  whole := nofun
  owners := nofun
  ids i c hc := absurd hc (not_at_opened serveOwner cells i c)
  unique i _ c _ hc := absurd hc (not_at_opened serveOwner cells i c)
  ordered i c hc := absurd hc (not_at_opened serveOwner cells i c)
  holds i c hc := absurd hc (not_at_opened serveOwner cells i c)
  tenure := ⟨[], rfl⟩
  own := nofun

/-- Every run does. -/
theorem streams_run (serveOwner : Nat) (cells : Nat → UInt8) (ms : List Move) :
    (run step (opened serveOwner cells) ms).Streams :=
  have hkeep : ∀ (s : Control) (m : Move), s.Streams → (s.step m).Streams := fun _ m hs => hs.step m
  run_inv_all hkeep (streams_opened serveOwner cells) ms

end

end Control

end Phi.Serve
