import Phi.Net.Record

/-!
# Phi.Net.ToCard

Frames from the host to the card.

`net_send`, for the port forwarder, and the first half of `net_step`, for the
TAP bridge, ask `ring_free` for room and give the whole record to `ring_push`.
`knc_net_poll` reads the head once, takes up to 64 records, and publishes its
tail when it is done with them.
-/

namespace Phi.Net

open Circular Phi.Modular Ring

/-! ## state -/

/-- What the host is doing: nothing, about to push a record there was room for,
or in `ring_push` with it. -/
inductive Sending where
  | idle
  | checked (frame : List UInt8)
  | pushing (frame : List UInt8)

/-- Where `knc_net_poll` is, with its `tail`, `head` and `budget`: at its loop,
past the header of a record, or about to publish the tail. -/
inductive Poll where
  | idle
  | scanning (tail head : W32) (budget : Nat)
  | reading (tail head : W32) (budget len : Nat)
  | leaving (tail : W32)

/-- The ring with its two ends.  `written` are the frames pushed, with the bytes
that became visible to the card; `taken` the frames taken from the ring, and
whether there was a buffer for them; `errors` is `rx_errors`. -/
structure ToCard where
  link : Link
  sending : Sending
  poll : Poll
  written : List (List UInt8 × List UInt8)
  taken : List (List UInt8 × Bool)
  errors : Nat

/-- An empty ring as both ends find it: indices of any value, and whatever the
area holds. -/
def emptyLink (index : W32) (area : Nat → UInt8) : Link :=
  ⟨index, index, area, index, index, .idle, .idle, [], []⟩

def ToCard.start (index : W32) (area : Nat → UInt8) : ToCard :=
  ⟨emptyLink index area, .idle, .idle, [], [], 0⟩

/-- Frames per poll before yielding. -/
def rxBudget : Nat := 64

/-- A record as the host builds it: four zeros after the frame, of which the
padding is the first. -/
def hostRecord (frame : List UInt8) : List UInt8 :=
  (header frame ++ (frame ++ [0, 0, 0, 0])).take (recordSize frame.length)

namespace ToCard

/-! ## the host -/

variable (g : Geometry)

/-- Room for the record, or the frame is dropped. -/
def offer (frame : List UInt8) (s : ToCard) : ToCard :=
  if ringFree g.size s.link.head s.link.tail < recordSize frame.length then s
  else { s with sending := .checked frame }

/-- `net_send` up to `ring_push`. -/
def netSend (frame : List UInt8) (s : ToCard) : ToCard :=
  if maxEthFrame < frame.length then s else s.offer g frame

/-- `net_step` up to `ring_push`, with what it read from the TAP device. -/
def tapRead (frame : List UInt8) (s : ToCard) : ToCard :=
  if frame.length = 0 ∨ maxEthFrame < frame.length then s else s.offer g frame

/-- `ring_push`: the indices are read. -/
def push (s : ToCard) : ToCard :=
  match s.sending with
  | .checked frame =>
      let link := s.link.pushLoad g .host (hostRecord frame)
      { s with
        link
        sending := match link.producer with
          | .idle => .idle
          | _ => .pushing frame }
  | _ => s

/-- `ring_push`: the record is copied. -/
def copy (s : ToCard) : ToCard :=
  match s.sending with
  | .pushing _ => { s with link := s.link.step g .host .card .pushCopy }
  | _ => s

/-- `ring_push`: the head is published. -/
def publish (s : ToCard) : ToCard :=
  match s.sending, s.link.producer with
  | .pushing frame, .copied _ bs => { s with
      link := s.link.step g .host .card .pushPublish
      sending := .idle
      written := s.written ++ [(frame, bs)] }
  | _, _ => s

/-! ## the card -/

/-- `knc_net_poll` is called. -/
def enter (s : ToCard) : ToCard :=
  match s.poll with
  | .idle => { s with poll := .scanning s.link.rxTail s.link.head rxBudget }
  | _ => s

/-- The condition of its loop, and the header of the next record. -/
def scan (s : ToCard) : ToCard :=
  match s.poll with
  | .scanning tail head budget =>
      let avail := (head - tail).toNat
      if recHdr ≤ avail ∧ budget ≠ 0 then
        let len := ofLe (kncRingRead g.size tail s.link.data recHdr)
        if len = 0 ∨ maxEthFrame < len ∨ avail < recordSize len then
          { s with errors := s.errors + 1, poll := .leaving head }
        else { s with poll := .reading tail head (budget - 1) len }
      else { s with poll := .leaving tail }
  | _ => s

/-- The frame is copied out, if there is a buffer for it. -/
def take (skb : Bool) (s : ToCard) : ToCard :=
  match s.poll with
  | .reading tail head budget len => { s with
      taken := s.taken ++
        [(kncRingRead g.size (tail + BitVec.ofNat 32 recHdr) s.link.data len, skb)]
      poll := .scanning (tail + BitVec.ofNat 32 (recordSize len)) head budget }
  | _ => s

/-- The tail is published. -/
def leave (s : ToCard) : ToCard :=
  match s.poll with
  | .leaving tail =>
      if tail = s.link.rxTail then { s with poll := .idle }
      else
        let bs := kncRingRead g.size s.link.rxTail s.link.data (tail - s.link.rxTail).toNat
        { s with
          link := { s.link with tail, rxTail := tail, popped := s.link.popped ++ bs }
          poll := .idle }
  | _ => s

/-! ## steps -/

inductive Event where
  | netSend (f : Frame)
  | tapRead (f : Frame)
  | push
  | copy
  | publish
  | enter
  | scan
  | take (skb : Bool)
  | leave

/-- One step of one end; one that does not fit where that end is does nothing. -/
def step (s : ToCard) : Event → ToCard
  | .netSend f => match s.sending with
      | .idle => s.netSend g f.bytes
      | _ => s
  | .tapRead f => match s.sending with
      | .idle => s.tapRead g f.bytes
      | _ => s
  | .push => s.push g
  | .copy => s.copy g
  | .publish => s.publish g
  | .enter => s.enter
  | .scan => s.scan g
  | .take skb => s.take g skb
  | .leave => s.leave g

end ToCard

/-! ## the record of the host -/

/-- The padding of a record of the host. -/
theorem exists_hostRecord (f : Frame) :
    ∃ r : Record, r.frame = f ∧ r.bytes = hostRecord f.bytes := by
  have hsize : recHdr + f.bytes.length ≤ recordSize f.bytes.length ∧
      recordSize f.bytes.length < recHdr + f.bytes.length + 4 := by
    unfold recordSize recHdr
    omega
  have hpad : ([0, 0, 0, 0] : List UInt8).length = 4 := rfl
  refine ⟨⟨f, ([0, 0, 0, 0] : List UInt8).take (recordSize f.bytes.length - recHdr -
    f.bytes.length), ?_⟩, rfl, ?_⟩
  · rw [List.length_take, hpad]
    omega
  · have hhdr : (header f.bytes).length ≤ recordSize f.bytes.length := by
      rw [Record.length_header]
      omega
    unfold hostRecord Record.bytes
    rw [List.take_append, List.take_of_length_le hhdr, Record.length_header, List.take_append,
      List.take_of_length_le (by omega : f.bytes.length ≤ recordSize f.bytes.length - recHdr)]

theorem length_hostRecord (f : Frame) :
    (hostRecord f.bytes).length = recordSize f.bytes.length := by
  obtain ⟨r, rfl, hr⟩ := exists_hostRecord f
  rw [← hr, r.length_bytes]

/-! ## the invariant -/

/-- How far the host is with a record that fits beside `n` bytes. -/
inductive Sending.Right (g : Geometry) (n : Nat) : Sending → Producer → Prop where
  | idle : Right g n .idle .idle
  | checked {f : Frame} (hfit : n + recordSize f.bytes.length ≤ g.size.toNat) :
      Right g n (.checked f.bytes) .idle
  | loaded {f : Frame} {head : W32} :
      Right g n (.pushing f.bytes) (.loaded head (hostRecord f.bytes))
  | copied {f : Frame} {head : W32} :
      Right g n (.pushing f.bytes) (.copied head (hostRecord f.bytes))

/-- Less in the ring leaves it right. -/
theorem Sending.Right.mono {g : Geometry} {n m : Nat} {x : Sending} {p : Producer}
    (h : x.Right g n p) (hm : m ≤ n) : x.Right g m p := by
  cases h with
  | idle => exact .idle
  | checked hfit => exact .checked (by omega)
  | loaded => exact .loaded
  | copied => exact .copied

/-- How far the card is: the records it took in this poll, and those that follow
in the ring, of which it has seen some. -/
inductive Poll.Right (T : Nat) (done : List Record) : List Record → Poll → Prop where
  | idle {queue} (hdone : done = []) : Right T done queue .idle
  | scanning {seen later : List Record} {budget : Nat} : Right T done (seen ++ later)
      (.scanning (BitVec.ofNat 32 (T + (stream done).length))
        (BitVec.ofNat 32 (T + (stream (done ++ seen)).length)) budget)
  | reading {r seen later budget} : Right T done (r :: (seen ++ later))
      (.reading (BitVec.ofNat 32 (T + (stream done).length))
        (BitVec.ofNat 32 (T + (stream (done ++ r :: seen)).length)) budget r.frame.bytes.length)
  | leaving {queue} : Right T done queue (.leaving (BitVec.ofNat 32 (T + (stream done).length)))

theorem Poll.Right.done_nil {T : Nat} {done queue : List Record}
    (h : Poll.idle.Right T done queue) : done = [] := by
  cases h with
  | idle hdone => exact hdone

/-- More in the ring leaves it right. -/
theorem Poll.Right.append {T : Nat} {done queue : List Record} {x : Poll}
    (h : x.Right T done queue) (r : Record) : x.Right T done (queue ++ [r]) := by
  cases h with
  | idle hdone => exact .idle hdone
  | scanning =>
      rw [List.append_assoc]
      exact .scanning
  | reading =>
      rw [List.cons_append, List.append_assoc]
      exact .reading
  | leaving => exact .leaving

/-- A frame and the bytes of its record. -/
def Record.entry (r : Record) : List UInt8 × List UInt8 := (r.frame.bytes, r.bytes)

/-- The ring holds the records taken in this poll and those not taken yet. -/
structure ToCard.Tied (g : Geometry) (s : ToCard) (T : Nat) (gone done queue : List Record) :
    Prop where
  link : s.link.Tied g T (stream (done ++ queue))
  consumer : s.link.consumer = .idle
  sending : s.sending.Right g (stream (done ++ queue)).length s.link.producer
  poll : s.poll.Right T done queue
  written : s.written = (gone ++ (done ++ queue)).map Record.entry ∧
    s.link.pushed = stream (gone ++ (done ++ queue))
  taken : s.taken.map Prod.fst = (gone ++ done).map fun r => r.frame.bytes
  errors : s.errors = 0

/-! ## the host keeps it -/

section host

variable {g : Geometry} {s : ToCard} {T : Nat} {gone done queue : List Record}

theorem ToCard.Tied.offer (h : s.Tied g T gone done queue) (hidle : s.sending = .idle)
    (f : Frame) : (s.offer g f.bytes).Tied g T gone done queue := by
  have hright := h.sending
  rw [hidle] at hright
  have hfits := h.link.fits
  have hfree : ringFree g.size s.link.head s.link.tail =
      g.size.toNat - (stream (done ++ queue)).length := by
    rw [h.link.head_eq, h.link.tail_eq, ringFree_eq g hfits]
  unfold ToCard.offer
  rw [hfree]
  split
  · exact h
  · next hroom =>
      generalize hp : s.link.producer = p at hright
      cases hright with
      | idle =>
          have hchecked : Sending.Right g (stream (done ++ queue)).length (.checked f.bytes)
              s.link.producer := by
            rw [hp]
            exact .checked (by omega)
          exact ⟨h.link, h.consumer, hchecked, h.poll, h.written, h.taken, h.errors⟩

theorem ToCard.Tied.push (h : s.Tied g T gone done queue) :
    (s.push g).Tied g T gone done queue := by
  have hright := h.sending
  unfold ToCard.push
  generalize hp : s.link.producer = p at hright
  generalize hx : s.sending = x at hright
  cases hright with
  | idle | loaded | copied => exact h
  | @checked f hfit =>
      have hload := h.link.pushLoad .host (hostRecord f.bytes)
      -- the record goes in whole
      have hcount : pushCount g.size s.link.head s.link.tail (hostRecord f.bytes).length =
          (hostRecord f.bytes).length := by
        rw [h.link.head_eq, h.link.tail_eq]
        exact pushCount_eq g (by rw [length_hostRecord]; exact hfit)
      have hpos : (hostRecord f.bytes).length ≠ 0 := by
        rw [length_hostRecord]
        unfold recordSize recHdr
        omega
      have hprod : (s.link.pushLoad g .host (hostRecord f.bytes)).producer =
          .loaded s.link.head (hostRecord f.bytes) := by
        unfold Link.pushLoad Link.ownHead
        dsimp only
        rw [hcount, if_neg hpos, List.take_length]
      have hloaded : Sending.Right g (stream (done ++ queue)).length (.pushing f.bytes)
          (s.link.pushLoad g .host (hostRecord f.bytes)).producer := by
        rw [hprod]
        exact .loaded
      dsimp only
      rw [hprod]
      exact ⟨hload, h.consumer, hloaded, h.poll, h.written, h.taken, h.errors⟩

theorem ToCard.Tied.copy (h : s.Tied g T gone done queue) :
    (s.copy g).Tied g T gone done queue := by
  have hright := h.sending
  unfold ToCard.copy
  generalize hp : s.link.producer = p at hright
  generalize hx : s.sending = x at hright
  cases hright with
  | idle | checked => exact h
  | @loaded f head =>
      have hcopy := h.link.pushCopy hp
      unfold Link.step
      dsimp only
      rw [hp]
      exact ⟨hcopy, h.consumer, .copied, h.poll, h.written, h.taken, h.errors⟩
  | @copied f head =>
      have hstay : s.link.step g .host .card .pushCopy = s.link := by
        unfold Link.step
        dsimp only
        rw [hp]
      dsimp only
      rw [hstay, ← hx]
      exact h

/-- The record appears whole. -/
theorem ToCard.Tied.publish (h : s.Tied g T gone done queue) :
    ∃ new, (s.publish g).Tied g T gone done (queue ++ new) := by
  have hright := h.sending
  unfold ToCard.publish
  generalize hp : s.link.producer = p at hright
  generalize hx : s.sending = x at hright
  have hstay : ∃ new, s.Tied g T gone done (queue ++ new) :=
    ⟨[], by rw [List.append_nil]; exact h⟩
  cases hright with
  | idle | checked | loaded => exact hstay
  | @copied f head =>
      obtain ⟨r, rfl, hr⟩ := exists_hostRecord f
      have hlink := h.link.pushPublish hp
      have hlive : stream (done ++ queue) ++ hostRecord r.frame.bytes =
          stream (done ++ (queue ++ [r])) := by
        rw [← hr, ← List.append_assoc, stream_append (done ++ queue), stream_cons, stream_nil,
          List.append_nil]
      rw [hlive] at hlink
      unfold Link.step
      dsimp only
      rw [hp]
      refine ⟨[r], hlink, h.consumer, .idle, h.poll.append r, ⟨?_, ?_⟩, h.taken, h.errors⟩
      · dsimp only
        rw [h.written.1, ← hr]
        simp [Record.entry]
      · dsimp only
        rw [h.written.2, ← hr]
        simp

end host

/-! ## the card keeps it -/

/-- What the card reads inside the part of the ring that is in use. -/
theorem kncRingRead_eq {g : Geometry} {data : Nat → UInt8} {T k n : Nat} {live : List UInt8}
    (hholds : Holds data g.size.toNat T live) (hfits : live.length ≤ g.size.toNat)
    (hkn : k + n ≤ live.length) :
    kncRingRead g.size (BitVec.ofNat 32 (T + k)) data n = (live.drop k).take n := by
  have hdrop : n ≤ (live.drop k).length := by
    rw [List.length_drop]
    omega
  rw [kncRingRead, copyOut_eq_readWrap]
  exact hholds.drop.readWrap g.size_pos hdrop (by omega)

section card

variable {g : Geometry} {s : ToCard} {T : Nat} {gone done queue : List Record}

theorem ToCard.Tied.enter (h : s.Tied g T gone done queue) :
    s.enter.Tied g T gone done queue := by
  have hright := h.poll
  unfold ToCard.enter
  generalize hx : s.poll = x at hright
  cases hright with
  | scanning | reading | leaving => exact h
  | idle hdone =>
      subst hdone
      have hall : (ToCard.Tied g { s with poll := .scanning s.link.rxTail s.link.head rxBudget } T
          gone [] (queue ++ [])) := by
        rw [h.link.rxTail_eq, h.link.tail_eq, h.link.head_eq]
        refine ⟨?_, h.consumer, ?_, ?_, ?_, h.taken, h.errors⟩
        · rw [List.append_nil]
          exact h.link
        · rw [List.append_nil]
          exact h.sending
        · have hscanning : Poll.Right T [] (queue ++ []) (.scanning
              (BitVec.ofNat 32 (T + (stream []).length))
              (BitVec.ofNat 32 (T + (stream ([] ++ queue)).length)) rxBudget) := .scanning
          exact hscanning
        · rw [List.append_nil]
          exact h.written
      rwa [List.append_nil] at hall

/-- The header of the next record is what the host wrote. -/
theorem ToCard.Tied.scan (h : s.Tied g T gone done queue) :
    (s.scan g).Tied g T gone done queue := by
  have hright := h.poll
  unfold ToCard.scan
  generalize hx : s.poll = x at hright
  cases hright with
  | idle | reading | leaving => exact h
  | @scanning seen later budget =>
      have hfits := h.link.fits
      have hsize := g.size.isLt
      rw [stream_append, List.length_append, stream_append, List.length_append] at hfits
      have havail : (BitVec.ofNat 32 (T + (stream (done ++ seen)).length) -
          BitVec.ofNat 32 (T + (stream done).length)).toNat = (stream seen).length := by
        rw [stream_append, List.length_append, toNat_ofNat_sub 32 (by omega) (by omega)]
        omega
      have hleave : ToCard.Tied g { s with
          poll := .leaving (BitVec.ofNat 32 (T + (stream done).length)) } T gone done
          (seen ++ later) :=
        ⟨h.link, h.consumer, h.sending, .leaving, h.written, h.taken, h.errors⟩
      dsimp only
      rw [havail]
      split
      · next hmore =>
          cases seen with
          | nil => exact absurd hmore.1 (by decide)
          | cons r seen =>
              have hlive : (stream (done ++ (r :: seen ++ later))).drop (stream done).length =
                  r.bytes ++ stream (seen ++ later) := by
                rw [stream_append, List.drop_left' rfl, List.cons_append, stream_cons]
              have hpos := r.length_pos
              have hread : ofLe (kncRingRead g.size (BitVec.ofNat 32 (T + (stream done).length))
                  s.link.data recHdr) = r.frame.bytes.length := by
                rw [kncRingRead_eq h.link.producer_ok.holds h.link.fits, hlive, r.take_hdr]
                rw [stream_append, List.length_append, List.cons_append, stream_cons,
                  List.length_append]
                omega
              have hgood : ¬ (r.frame.bytes.length = 0 ∨ maxEthFrame < r.frame.bytes.length ∨
                  (stream (r :: seen)).length < recordSize r.frame.bytes.length) := by
                have hnonempty := r.frame.nonempty
                have hframe := r.frame.fits
                rw [stream_cons, List.length_append, r.length_bytes]
                omega
              rw [hread, if_neg hgood]
              exact ⟨h.link, h.consumer, h.sending, .reading, h.written, h.taken, h.errors⟩
      · exact hleave

/-- The frame taken is the one the host wrote. -/
theorem ToCard.Tied.take (h : s.Tied g T gone done queue) (skb : Bool) :
    ∃ done' queue', done ++ queue = done' ++ queue' ∧ queue'.length ≤ queue.length ∧
      (s.take g skb).Tied g T gone done' queue' := by
  have hright := h.poll
  unfold ToCard.take
  generalize hx : s.poll = x at hright
  cases hright with
  | idle | scanning | leaving => exact ⟨done, _, rfl, Nat.le_refl _, h⟩
  | @reading r seen later budget =>
      have hsplit : done ++ r :: (seen ++ later) = (done ++ [r]) ++ (seen ++ later) := by simp
      have hlive : (stream (done ++ r :: (seen ++ later))).drop ((stream done).length + recHdr) =
          (r.bytes ++ stream (seen ++ later)).drop recHdr := by
        rw [← List.drop_drop, stream_append, List.drop_left' rfl, stream_cons]
      have hread : kncRingRead g.size
          (BitVec.ofNat 32 (T + (stream done).length) + BitVec.ofNat 32 recHdr) s.link.data
          r.frame.bytes.length = r.frame.bytes := by
        rw [← BitVec.ofNat_add, Nat.add_assoc,
          kncRingRead_eq h.link.producer_ok.holds h.link.fits, hlive, r.take_frame]
        have haligned := r.aligned
        have hbytes := r.length_bytes
        rw [stream_append, List.length_append, stream_cons, List.length_append]
        omega
      have htail : BitVec.ofNat 32 (T + (stream done).length) +
          BitVec.ofNat 32 (recordSize r.frame.bytes.length) =
          BitVec.ofNat 32 (T + (stream (done ++ [r])).length) := by
        rw [← BitVec.ofNat_add, stream_append, List.length_append, stream_cons, stream_nil,
          List.append_nil, r.length_bytes, Nat.add_assoc]
      have hhead : done ++ r :: seen = (done ++ [r]) ++ seen := by simp
      refine ⟨done ++ [r], seen ++ later, hsplit, by simp, ?_⟩
      dsimp only
      rw [hread, htail, hhead]
      have hlink := h.link
      have hsending := h.sending
      have hwritten := h.written
      rw [hsplit] at hlink hsending hwritten
      refine ⟨hlink, h.consumer, hsending, .scanning, hwritten, ?_, h.errors⟩
      dsimp only
      rw [List.map_append, h.taken]
      simp

/-- Only what was taken is released. -/
theorem ToCard.Tied.leave (h : s.Tied g T gone done queue) :
    ∃ T' gone' done', gone ++ done = gone' ++ done' ∧
      (s.leave g).Tied g T' gone' done' queue := by
  have hright := h.poll
  unfold ToCard.leave
  generalize hx : s.poll = x at hright
  cases hright with
  | idle | scanning | reading => exact ⟨T, gone, done, rfl, h⟩
  | leaving =>
      have hfits := h.link.fits
      have hsize := g.size.isLt
      rw [stream_append, List.length_append] at hfits
      have hown : s.link.rxTail = BitVec.ofNat 32 T := h.link.rxTail_eq.trans h.link.tail_eq
      dsimp only
      split
      · next hsame =>
          -- nothing was taken
          rw [hown, ofNat_inj_of_lt 32 (by omega) (by omega)] at hsame
          have hdone : done = [] := by
            cases done with
            | nil => rfl
            | cons r done =>
                have hpos := r.length_pos
                rw [stream_cons, List.length_append] at hsame
                unfold recHdr at hpos
                omega
          exact ⟨T, gone, done, rfl, h.link, h.consumer, h.sending, .idle hdone, h.written,
            h.taken, h.errors⟩
      · have hcount : (BitVec.ofNat 32 (T + (stream done).length) - s.link.rxTail).toNat =
            (stream done).length := by
          rw [hown, toNat_ofNat_sub 32 (by omega) (by omega)]
          omega
        have hread : kncRingRead g.size s.link.rxTail s.link.data (stream done).length =
            stream done := by
          have hholds := h.link.producer_ok.holds
          have hstart := kncRingRead_eq (k := 0) hholds h.link.fits
            (by rw [stream_append, List.length_append]; omega : 0 + (stream done).length ≤ _)
          rw [Nat.add_zero, List.drop_zero, stream_append, List.take_left' rfl] at hstart
          rw [hown]
          exact hstart
        have hcopied : Link.Tied g { s.link with
            consumer := .copied s.link.rxTail (stream done) } T (stream (done ++ queue)) :=
          { h.link with
            consumer_ok := ⟨hown, by rw [stream_append]; exact List.prefix_append _ _⟩ }
        have hpop := hcopied.popPublish rfl
        have hleft : (stream (done ++ queue)).drop (stream done).length = stream queue := by
          rw [stream_append, List.drop_left' rfl]
        have htail : s.link.rxTail + BitVec.ofNat 32 (stream done).length =
            BitVec.ofNat 32 (T + (stream done).length) := by
          rw [hown, ← BitVec.ofNat_add]
        rw [hleft, htail, ← h.consumer] at hpop
        rw [hcount, hread]
        refine ⟨T + (stream done).length, gone ++ done, [], by simp, hpop, h.consumer, ?_,
          .idle rfl, ?_, by rw [List.append_nil]; exact h.taken, h.errors⟩
        · refine h.sending.mono ?_
          rw [List.nil_append, stream_append, List.length_append]
          omega
        · rw [List.nil_append, List.append_assoc]
          exact h.written

end card

/-! ## runs -/

/-- **One step of either end.** -/
theorem ToCard.Tied.step {g : Geometry} {s : ToCard} {T : Nat} {gone done queue : List Record}
    (h : s.Tied g T gone done queue) (e : ToCard.Event) :
    ∃ T' gone' done' queue', (s.step g e).Tied g T' gone' done' queue' := by
  cases e with
  | netSend f =>
      unfold ToCard.step
      cases hidle : s.sending with
      | idle =>
          dsimp only
          unfold ToCard.netSend
          split
          · exact ⟨T, gone, done, queue, h⟩
          · exact ⟨T, gone, done, queue, h.offer hidle f⟩
      | checked _ | pushing _ => exact ⟨T, gone, done, queue, h⟩
  | tapRead f =>
      unfold ToCard.step
      cases hidle : s.sending with
      | idle =>
          dsimp only
          unfold ToCard.tapRead
          split
          · exact ⟨T, gone, done, queue, h⟩
          · exact ⟨T, gone, done, queue, h.offer hidle f⟩
      | checked _ | pushing _ => exact ⟨T, gone, done, queue, h⟩
  | push => exact ⟨T, gone, done, queue, h.push⟩
  | copy => exact ⟨T, gone, done, queue, h.copy⟩
  | publish =>
      obtain ⟨new, h'⟩ := h.publish
      exact ⟨T, gone, done, queue ++ new, h'⟩
  | enter => exact ⟨T, gone, done, queue, h.enter⟩
  | scan => exact ⟨T, gone, done, queue, h.scan⟩
  | take skb =>
      obtain ⟨done', queue', -, -, h'⟩ := h.take skb
      exact ⟨T, gone, done', queue', h'⟩
  | leave =>
      obtain ⟨T', gone', done', -, h'⟩ := h.leave
      exact ⟨T', gone', done', queue, h'⟩

/-- An empty ring, whatever its indices. -/
theorem emptyLink_tied (g : Geometry) (index : W32) (area : Nat → UInt8) :
    (emptyLink index area).Tied g index.toNat [] where
  tail_eq := by rw [BitVec.ofNat_toNat, BitVec.setWidth_eq]; rfl
  head_eq := by rw [List.length_nil, Nat.add_zero, BitVec.ofNat_toNat, BitVec.setWidth_eq]; rfl
  rxTail_eq := rfl
  txHead_eq := rfl
  fits := Nat.zero_le _
  pushed_eq := rfl
  producer_ok := holds_nil _ _ _
  consumer_ok := trivial

/-- **A run.** -/
theorem ToCard.run_tied (g : Geometry) (index : W32) (area : Nat → UInt8)
    (es : List ToCard.Event) : ∃ T gone done queue,
    (run (ToCard.step g) (.start index area) es).Tied g T gone done queue := by
  have hstart : (ToCard.start index area).Tied g index.toNat [] [] [] :=
    ⟨emptyLink_tied g index area, rfl, .idle, .idle rfl, ⟨rfl, rfl⟩, rfl, rfl⟩
  have hstep : ∀ (s : ToCard) (e : ToCard.Event),
      (∃ T gone done queue, s.Tied g T gone done queue) →
      ∃ T gone done queue, (s.step g e).Tied g T gone done queue :=
    fun s e ⟨_, _, _, _, h⟩ => h.step e
  exact run_inv_all hstep ⟨_, _, _, _, hstart⟩ es

/-! ## the card reads everything -/

/-- One round of the card by itself. -/
def ToCard.round (skb : Bool) : List ToCard.Event := [.enter, .scan, .take skb, .leave]

/-- The rounds in which it takes nothing: the one that ends a poll. -/
def Poll.wasted : Poll → Nat
  | .scanning tail head budget => if recHdr ≤ (head - tail).toNat ∧ budget ≠ 0 then 0 else 1
  | .leaving _ => 1
  | .idle | .reading .. => 0

theorem Poll.wasted_scanning (tail head : W32) (budget : Nat) :
    (Poll.scanning tail head budget).wasted =
      if recHdr ≤ (head - tail).toNat ∧ budget ≠ 0 then 0 else 1 := rfl

theorem Poll.wasted_le (x : Poll) : x.wasted ≤ 1 := by
  cases x with
  | scanning tail head budget =>
      rw [Poll.wasted_scanning]
      split
      · exact Nat.zero_le _
      · exact Nat.le_refl _
  | leaving _ => exact Nat.le_refl _
  | idle | reading _ _ _ _ => exact Nat.zero_le _

section rounds

variable {g : Geometry} {s : ToCard} {T : Nat} {gone done queue : List Record}

/-- Past the header, one more is taken. -/
theorem ToCard.Tied.takes (h : s.Tied g T gone done queue) (skb : Bool)
    {tail head : W32} {budget len : Nat} (hx : s.poll = .reading tail head budget len) :
    ∃ T' gone' done' queue', ((s.take g skb).leave g).Tied g T' gone' done' queue' ∧
      queue'.length < queue.length := by
  have hright := h.poll
  obtain ⟨done', queue', hsplit, -, h'⟩ := h.take skb
  rw [hx] at hright
  cases hright with
  | @reading r seen later _ =>
      have htaken : ((s.take g skb).taken.map Prod.fst).length = (gone ++ done').length := by
        rw [h'.taken, List.length_map]
      have hmore : ((s.take g skb).taken.map Prod.fst).length = (gone ++ done).length + 1 := by
        unfold ToCard.take
        rw [hx]
        dsimp only
        rw [List.map_append, h.taken, List.length_append, List.length_map]
        rfl
      have hlen := congrArg List.length hsplit
      rw [htaken, List.length_append, List.length_append] at hmore
      rw [List.length_append, List.length_append] at hlen
      obtain ⟨T', gone'', done'', -, hleft⟩ := h'.leave
      exact ⟨T', gone'', done'', queue', hleft, by omega⟩

/-- At the end of a poll, nothing is. -/
theorem ToCard.Tied.ends (h : s.Tied g T gone done queue) (skb : Bool) {tail : W32}
    (hx : s.poll = .leaving tail) :
    ∃ T' gone' done', ((s.take g skb).leave g).Tied g T' gone' done' queue ∧
      ((s.take g skb).leave g).poll.wasted = 0 := by
  have htake : s.take g skb = s := by
    unfold ToCard.take
    rw [hx]
  obtain ⟨T', gone', done', -, h'⟩ := h.leave
  rw [htake]
  refine ⟨T', gone', done', h', ?_⟩
  unfold ToCard.leave
  rw [hx]
  dsimp only
  split
  · rfl
  · rfl

/-- At the loop it does one or the other. -/
theorem ToCard.Tied.scans (h : s.Tied g T gone done queue) (skb : Bool) {tail head : W32}
    {budget : Nat} (hx : s.poll = .scanning tail head budget) :
    ∃ T' gone' done' queue', (((s.scan g).take g skb).leave g).Tied g T' gone' done' queue' ∧
      (queue'.length < queue.length ∨ queue'.length = queue.length ∧
        (((s.scan g).take g skb).leave g).poll.wasted < s.poll.wasted) := by
  have hscan := h.scan
  by_cases hmore : recHdr ≤ (head - tail).toNat ∧ budget ≠ 0
  · -- an error would have been counted
    have hread : ∃ len, (s.scan g).poll = .reading tail head (budget - 1) len := by
      have herrors := hscan.errors
      unfold ToCard.scan at herrors ⊢
      rw [hx] at herrors ⊢
      dsimp only at herrors ⊢
      rw [if_pos hmore] at herrors ⊢
      split at herrors
      · exact absurd herrors (Nat.succ_ne_zero _)
      · next hgood =>
          rw [if_neg hgood]
          exact ⟨_, rfl⟩
    obtain ⟨len, hread⟩ := hread
    obtain ⟨T', gone', done', queue', h', hlt⟩ := hscan.takes skb hread
    exact ⟨T', gone', done', queue', h', .inl hlt⟩
  · have hleave : (s.scan g).poll = .leaving tail := by
      unfold ToCard.scan
      rw [hx]
      dsimp only
      rw [if_neg hmore]
    obtain ⟨T', gone', done', h', hwasted⟩ := hscan.ends skb hleave
    refine ⟨T', gone', done', queue, h', .inr ⟨rfl, ?_⟩⟩
    rw [hwasted, hx, Poll.wasted_scanning, if_neg hmore]
    exact Nat.zero_lt_one

/-- **A round** takes a record, or is the one that ends a poll. -/
theorem ToCard.Tied.round (h : s.Tied g T gone done queue) (skb : Bool) :
    ∃ T' gone' done' queue',
      (run (ToCard.step g) s (ToCard.round skb)).Tied g T' gone' done' queue' ∧
      2 * queue'.length + (run (ToCard.step g) s (ToCard.round skb)).poll.wasted ≤
        2 * queue.length + s.poll.wasted - 1 := by
  have hturn : run (ToCard.step g) s (ToCard.round skb) =
      (((s.enter.scan g).take g skb).leave g) := rfl
  rw [hturn]
  have hle := Poll.wasted_le (((s.enter.scan g).take g skb).leave g).poll
  cases hx : s.poll with
  | idle =>
      have henter : s.enter.poll = .scanning s.link.rxTail s.link.head rxBudget := by
        unfold ToCard.enter
        rw [hx]
      obtain ⟨T', gone', done', queue', h', hcase⟩ := h.enter.scans skb henter
      refine ⟨T', gone', done', queue', h', ?_⟩
      rw [show Poll.idle.wasted = 0 from rfl]
      have hlast := Poll.wasted_le s.enter.poll
      cases queue with
      | nil =>
          simp only [List.length_nil] at hcase ⊢
          omega
      | cons r rest =>
          -- the record is seen
          have hfresh : s.enter.poll.wasted = 0 := by
            have hright := h.poll
            rw [hx] at hright
            obtain rfl := hright.done_nil
            have hlen : recHdr ≤ (stream ([] ++ r :: rest)).length := by
              have hpos := r.length_pos
              rw [List.nil_append, stream_cons, List.length_append]
              omega
            have hfits := h.link.fits
            have hsize := g.size.isLt
            rw [henter, Poll.wasted_scanning, h.link.rxTail_eq, h.link.tail_eq, h.link.head_eq,
              toNat_ofNat_sub 32 (by omega) (by omega), Nat.add_sub_cancel_left,
              if_pos ⟨hlen, by decide⟩]
          omega
  | scanning tail head budget =>
      have henter : s.enter = s := by
        unfold ToCard.enter
        rw [hx]
      rw [henter] at hle ⊢
      obtain ⟨T', gone', done', queue', h', hcase⟩ := h.scans skb hx
      rw [hx] at hcase
      exact ⟨T', gone', done', queue', h', by omega⟩
  | reading tail head budget len =>
      have hscan : s.enter.scan g = s := by
        have henter : s.enter = s := by
          unfold ToCard.enter
          rw [hx]
        rw [henter]
        unfold ToCard.scan
        rw [hx]
      rw [hscan] at hle ⊢
      obtain ⟨T', gone', done', queue', h', hlt⟩ := h.takes skb hx
      exact ⟨T', gone', done', queue', h', by omega⟩
  | leaving tail =>
      have hscan : s.enter.scan g = s := by
        have henter : s.enter = s := by
          unfold ToCard.enter
          rw [hx]
        rw [henter]
        unfold ToCard.scan
        rw [hx]
      rw [hscan] at hle ⊢
      obtain ⟨T', gone', done', h', hwasted⟩ := h.ends skb hx
      rw [show (Poll.leaving tail).wasted = 1 from rfl]
      exact ⟨T', gone', done', queue, h', by omega⟩

/-- Nothing is left after enough rounds. -/
theorem ToCard.Tied.rounds (h : s.Tied g T gone done queue) (skbs : List Bool)
    (henough : 2 * queue.length + s.poll.wasted ≤ skbs.length) :
    ∃ T' gone' done',
      (run (ToCard.step g) s (skbs.flatMap ToCard.round)).Tied g T' gone' done' [] := by
  induction skbs generalizing s T gone done queue with
  | nil =>
      have hnil : queue = [] := by
        rw [← List.length_eq_zero_iff]
        rw [List.length_nil] at henough
        omega
      subst hnil
      exact ⟨T, gone, done, h⟩
  | cons skb skbs ih =>
      obtain ⟨T', gone', done', queue', h', hless⟩ := h.round skb
      rw [List.flatMap_cons, run_append]
      rw [List.length_cons] at henough
      exact ih h' (by omega)

end rounds

/-- The card's steps write nothing. -/
theorem ToCard.rounds_written (g : Geometry) (s : ToCard) (skbs : List Bool) :
    (run (ToCard.step g) s (skbs.flatMap ToCard.round)).written = s.written := by
  have henter : ∀ s : ToCard, s.enter.written = s.written := fun s => by
    unfold ToCard.enter
    split
    · rfl
    · rfl
  have hscan : ∀ s : ToCard, (s.scan g).written = s.written := fun s => by
    unfold ToCard.scan
    split
    · dsimp only
      split
      · split
        · rfl
        · rfl
      · rfl
    · rfl
  have htake : ∀ (s : ToCard) skb, (s.take g skb).written = s.written := fun s skb => by
    unfold ToCard.take
    split
    · rfl
    · rfl
  have hleave : ∀ s : ToCard, (s.leave g).written = s.written := fun s => by
    unfold ToCard.leave
    split
    · split
      · rfl
      · rfl
    · rfl
  induction skbs generalizing s with
  | nil => rfl
  | cons skb skbs ih =>
      rw [List.flatMap_cons, run_append, ih]
      show (((s.enter.scan g).take g skb).leave g).written = s.written
      rw [hleave, htake, hscan, henter]

end Phi.Net
