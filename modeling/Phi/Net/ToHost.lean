import Phi.Net.ToCard

/-!
# Phi.Net.ToHost

Frames from the card to the host.

`knc_net_xmit` writes the header and the frame into the ring and publishes the
head past the padding.  `net_recv`, for the port forwarder, and the second half
of `net_step`, for the TAP bridge, append what `ring_pop` gives them, wherever
it breaks off, and cut it into records.
-/

namespace Phi.Net

open Circular Phi.Modular Ring

/-! ## state -/

/-- Where `knc_net_xmit` is with a frame there is room for. -/
inductive Xmit where
  | idle
  | header (frame : List UInt8) (head : W32)
  | body (frame : List UInt8) (head : W32)
  | ready (frame : List UInt8) (head : W32)

/-- Who reads on the host. -/
inductive Reader where
  | forwarder
  | bridge
deriving DecidableEq, Repr

/-- Where the reader is: outside, cutting what it has, about to ask `ring_avail`,
about to call `ring_pop`, or in it. -/
inductive Recv where
  | out
  | cutting
  | looking
  | popping
  | pulling
deriving DecidableEq, Repr

/-- The ring with its two ends, and the bytes the reader has not cut yet.
`written` are the frames sent, with the bytes that became visible to the host;
`read` the frames handed on; `bad` counts the times the buffer was dropped. -/
structure ToHost where
  link : Link
  xmit : Xmit
  recv : Recv
  inbound : List UInt8
  written : List (List UInt8 × List UInt8)
  read : List (List UInt8)
  bad : Nat

def ToHost.start (index : W32) (area : Nat → UInt8) : ToHost :=
  ⟨emptyLink index area, .idle, .out, [], [], [], 0⟩

/-- The buffer of the reader: two read chunks. -/
def inboundCap : Nat := 2 * 65536

namespace ToHost

variable (g : Geometry)

/-! ## the card -/

/-- `knc_net_xmit` up to the copies. -/
def kncNetXmit (frame : List UInt8) (s : ToHost) : ToHost :=
  let head := s.link.txHead
  if maxEthFrame < frame.length then s
  else if (g.size - (head - s.link.tail)).toNat < recordSize frame.length then s
  else { s with xmit := .header frame head }

/-- The header is written. -/
def writeHeader (s : ToHost) : ToHost :=
  match s.xmit with
  | .header frame head => { s with
      link := { s.link with data := kncRingWrite g.size head s.link.data (header frame) }
      xmit := .body frame head }
  | _ => s

/-- The frame is written. -/
def writeFrame (s : ToHost) : ToHost :=
  match s.xmit with
  | .body frame head => { s with
      link := { s.link with
        data := kncRingWrite g.size (head + BitVec.ofNat 32 recHdr) s.link.data frame }
      xmit := .ready frame head }
  | _ => s

/-- The head is published. -/
def publish (s : ToHost) : ToHost :=
  match s.xmit with
  | .ready frame head =>
      let head' := head + BitVec.ofNat 32 (recordSize frame.length)
      let bs := kncRingRead g.size head s.link.data (recordSize frame.length)
      { s with
        link := { s.link with head := head', txHead := head', pushed := s.link.pushed ++ bs }
        xmit := .idle
        written := s.written ++ [(frame, bs)] }
  | _ => s

/-! ## the host -/

/-- `net_recv` starts with what it has, `net_step` with the ring. -/
def call (reader : Reader) (s : ToHost) : ToHost :=
  match s.recv with
  | .out => { s with recv := match reader with
      | .forwarder => .cutting
      | .bridge => .looking }
  | _ => s

/-- What was read is cut: `net_recv` returns with the first record, `net_step`
goes on until none is whole. -/
def cutNext (reader : Reader) (s : ToHost) : ToHost :=
  match s.recv with
  | .cutting => match cut s.inbound, reader with
      | .record frame rest, .forwarder =>
          { s with inbound := rest, read := s.read ++ [frame], recv := .out }
      | .record frame rest, .bridge => { s with inbound := rest, read := s.read ++ [frame] }
      | .bad, .forwarder => { s with inbound := [], bad := s.bad + 1, recv := .looking }
      | .bad, .bridge => { s with inbound := [], bad := s.bad + 1, recv := .out }
      | .short, .forwarder => { s with recv := .looking }
      | .short, .bridge => { s with recv := .out }
  | _ => s

/-- `ring_avail`, and the room left. -/
def look (s : ToHost) : ToHost :=
  match s.recv with
  | .looking => { s with
      recv := if ringAvail g.size s.link.head s.link.tail = 0 ∨ s.inbound.length = inboundCap
        then .out else .popping }
  | _ => s

/-- `ring_pop`: the indices are read. -/
def load (s : ToHost) : ToHost :=
  match s.recv with
  | .popping =>
      let link := s.link.popLoad g .host (inboundCap - s.inbound.length)
      { s with
        link
        recv := match link.consumer with
          | .idle => .out
          | _ => .pulling }
  | _ => s

/-- `ring_pop`: the bytes are copied. -/
def copy (s : ToHost) : ToHost :=
  match s.recv with
  | .pulling => { s with link := s.link.step g .card .host .popCopy }
  | _ => s

/-- `ring_pop`: the tail is published; inconsistent indices leave nothing. -/
def finish (s : ToHost) : ToHost :=
  match s.recv, s.link.consumer with
  | .pulling, .copied _ bs => { s with
      link := s.link.step g .card .host .popPublish
      inbound := s.inbound ++ bs
      recv := .cutting }
  | .pulling, .resync _ => { s with link := s.link.step g .card .host .popPublish, recv := .out }
  | _, _ => s

/-! ## steps -/

inductive Event where
  | xmit (f : Frame)
  | writeHeader
  | writeFrame
  | publish
  | call
  | cut
  | look
  | load
  | copy
  | finish

/-- One step of one end; one that does not fit where that end is does nothing. -/
def step (reader : Reader) (s : ToHost) : Event → ToHost
  | .xmit f => match s.xmit with
      | .idle => s.kncNetXmit g f.bytes
      | _ => s
  | .writeHeader => s.writeHeader g
  | .writeFrame => s.writeFrame g
  | .publish => s.publish g
  | .call => s.call reader
  | .cut => s.cutNext reader
  | .look => s.look g
  | .load => s.load g
  | .copy => s.copy g
  | .finish => s.finish g

end ToHost

/-! ## the invariant -/

/-- How far the card is with a record that fits after the bytes in use. -/
inductive Xmit.Right (g : Geometry) (data : Nat → UInt8) (T : Nat) (live : List UInt8) :
    Xmit → Prop where
  | idle (hholds : Holds data g.size.toNat T live) : Right g data T live .idle
  | header {f : Frame} (hholds : Holds data g.size.toNat T live)
      (hfit : live.length + recordSize f.bytes.length ≤ g.size.toNat) :
      Right g data T live (.header f.bytes (BitVec.ofNat 32 (T + live.length)))
  | body {f : Frame} (hholds : Holds data g.size.toNat T (live ++ Net.header f.bytes))
      (hfit : live.length + recordSize f.bytes.length ≤ g.size.toNat) :
      Right g data T live (.body f.bytes (BitVec.ofNat 32 (T + live.length)))
  | ready {f : Frame}
      (hholds : Holds data g.size.toNat T (live ++ (Net.header f.bytes ++ f.bytes)))
      (hfit : live.length + recordSize f.bytes.length ≤ g.size.toNat) :
      Right g data T live (.ready f.bytes (BitVec.ofNat 32 (T + live.length)))

/-- Bytes taken from the front leave it right. -/
theorem Xmit.Right.drop {g : Geometry} {data : Nat → UInt8} {T n : Nat} {live : List UInt8}
    {x : Xmit} (h : x.Right g data T live) (hn : n ≤ live.length) :
    x.Right g data (T + n) (live.drop n) := by
  have hend : T + live.length = T + n + (live.drop n).length := by
    rw [List.length_drop]
    omega
  have hless : (live.drop n).length ≤ live.length := by
    rw [List.length_drop]
    exact Nat.sub_le _ _
  cases h with
  | idle hholds => exact .idle hholds.drop
  | header hholds hfit =>
      rw [hend]
      exact .header hholds.drop (by omega)
  | body hholds hfit =>
      rw [hend]
      refine .body ?_ (by omega)
      rw [← List.drop_append_of_le_length hn]
      exact hholds.drop
  | ready hholds hfit =>
      rw [hend]
      refine .ready ?_ (by omega)
      rw [← List.drop_append_of_le_length hn]
      exact hholds.drop

/-- The reader has no whole record where it goes to the ring. -/
def Recv.Short (reader : Reader) (inbound : List UInt8) : Recv → Prop
  | .out => reader = .bridge → cut inbound = .short
  | .cutting => True
  | .looking | .popping | .pulling => cut inbound = .short

/-- Inside `ring_pop` there is something to pop. -/
def Pulls : Consumer → Prop
  | .loaded _ n => n ≠ 0
  | .copied _ bs => bs ≠ []
  | .idle | .resync _ => False

theorem pulls_cases {c : Consumer} (h : Pulls c) :
    (∃ tail n, c = .loaded tail n ∧ n ≠ 0) ∨ ∃ tail bs, c = .copied tail bs ∧ bs ≠ [] := by
  cases c with
  | idle | resync _ => exact False.elim h
  | loaded tail n => exact .inl ⟨tail, n, rfl, h⟩
  | copied tail bs => exact .inr ⟨tail, bs, rfl, h⟩

/-- The bytes not cut yet and those in the ring are the records not read yet. -/
structure ToHost.Tied (g : Geometry) (reader : Reader) (s : ToHost) (T : Nat)
    (live : List UInt8) (gone rest : List Record) : Prop where
  link : s.link.Tied g T live
  producer : s.link.producer = .idle
  consumer : s.recv ≠ .pulling → s.link.consumer = .idle
  pulling : s.recv = .pulling → Pulls s.link.consumer
  xmit : s.xmit.Right g s.link.data T live
  short : s.recv.Short reader s.inbound
  stream : stream rest = s.inbound ++ live
  written : s.written = (gone ++ rest).map Record.entry ∧
    s.link.pushed = Net.stream (gone ++ rest)
  read : s.read = gone.map fun r => r.frame.bytes
  bad : s.bad = 0

/-! ## the card keeps it -/

section card

variable {g : Geometry} {reader : Reader} {s : ToHost} {T : Nat} {live : List UInt8}
  {gone rest : List Record}

theorem ToHost.Tied.kncNetXmit (h : s.Tied g reader T live gone rest) (hidle : s.xmit = .idle)
    (f : Frame) : (s.kncNetXmit g f.bytes).Tied g reader T live gone rest := by
  have hright := h.xmit
  rw [hidle] at hright
  have hfits := h.link.fits
  have hfree : (g.size - (s.link.txHead - s.link.tail)).toNat = g.size.toNat - live.length := by
    have hsize := g.size.isLt
    have hused : (s.link.txHead - s.link.tail).toNat = live.length := by
      rw [h.link.txHead_eq, h.link.head_eq, h.link.tail_eq,
        toNat_ofNat_sub 32 (by omega) (by omega), Nat.add_sub_cancel_left]
    rw [BitVec.toNat_sub_of_le (by rw [BitVec.le_def, hused]; exact hfits), hused]
  unfold ToHost.kncNetXmit
  dsimp only
  rw [hfree]
  split
  · exact h
  · split
    · exact h
    · next hroom =>
        cases hright with
        | idle hholds =>
            have hheader : Xmit.Right g s.link.data T live (.header f.bytes s.link.txHead) := by
              rw [h.link.txHead_eq, h.link.head_eq]
              exact .header hholds (by omega)
            exact ⟨h.link, h.producer, h.consumer, h.pulling, hheader, h.short, h.stream,
              h.written, h.read, h.bad⟩

/-- The area written past the bytes in use. -/
theorem ToHost.Tied.data (h : s.Tied g reader T live gone rest) {data : Nat → UInt8} {x : Xmit}
    (hright : x.Right g data T live) (hholds : Holds data g.size.toNat T live) :
    ToHost.Tied g reader { s with link := { s.link with data }, xmit := x } T live gone rest := by
  have hlink : Link.Tied g { s.link with data } T live := by
    refine { h.link with producer_ok := ?_ }
    show s.link.producer.Ok g data T live
    rw [h.producer]
    exact hholds
  exact ⟨hlink, h.producer, h.consumer, h.pulling, hright, h.short, h.stream, h.written, h.read,
    h.bad⟩

theorem size_record (f : Frame) : recHdr + f.bytes.length ≤ recordSize f.bytes.length := by
  unfold recordSize recHdr
  omega

theorem ToHost.Tied.writeHeader (h : s.Tied g reader T live gone rest) :
    (s.writeHeader g).Tied g reader T live gone rest := by
  have hright := h.xmit
  unfold ToHost.writeHeader
  generalize hx : s.xmit = x at hright
  cases hright with
  | idle | body | ready => exact h
  | @header f hholds hfit =>
      have hsize := size_record f
      have hroom : live.length + (Net.header f.bytes).length ≤ g.size.toNat := by
        rw [Record.length_header]
        omega
      have hwrite := hholds.writeWrap hroom
      rw [← copyIn_eq_writeWrap] at hwrite
      exact h.data (.body hwrite hfit) hwrite.left

theorem ToHost.Tied.writeFrame (h : s.Tied g reader T live gone rest) :
    (s.writeFrame g).Tied g reader T live gone rest := by
  have hright := h.xmit
  unfold ToHost.writeFrame
  generalize hx : s.xmit = x at hright
  cases hright with
  | idle | header | ready => exact h
  | @body f hholds hfit =>
      have hsize := size_record f
      have hroom : (live ++ Net.header f.bytes).length + f.bytes.length ≤ g.size.toNat := by
        rw [List.length_append, Record.length_header]
        omega
      have hwrite := hholds.writeWrap hroom
      have hpos : T + (live ++ Net.header f.bytes).length = T + live.length + recHdr := by
        rw [List.length_append, Record.length_header, Nat.add_assoc]
      rw [hpos, ← copyIn_eq_writeWrap, BitVec.ofNat_add, List.append_assoc] at hwrite
      exact h.data (.ready hwrite hfit) hwrite.left

/-- What the card publishes is a record, whatever its padding holds. -/
theorem exists_record {data : Nat → UInt8} {f : Frame}
    (hholds : Holds data g.size.toNat T (live ++ (Net.header f.bytes ++ f.bytes)))
    (hfit : live.length + recordSize f.bytes.length ≤ g.size.toNat) :
    ∃ r : Record, r.frame = f ∧
      kncRingRead g.size (BitVec.ofNat 32 (T + live.length)) data (recordSize f.bytes.length) =
        r.bytes ∧
      Holds data g.size.toNat T (live ++ r.bytes) := by
  have hsize := size_record f
  have hbs : Holds data g.size.toNat (T + live.length)
      (readWrap data g.size.toNat (T + live.length) (recordSize f.bytes.length)) :=
    holds_readWrap data g.size_pos (by omega)
  have hread : kncRingRead g.size (BitVec.ofNat 32 (T + live.length)) data
      (recordSize f.bytes.length) =
      readWrap data g.size.toNat (T + live.length) (recordSize f.bytes.length) := by
    rw [kncRingRead, copyOut_eq_readWrap]
  have hlen := length_copyOut g (T + live.length) data (recordSize f.bytes.length)
  rw [copyOut_eq_readWrap] at hlen
  rw [hread]
  generalize readWrap data g.size.toNat (T + live.length) (recordSize f.bytes.length) = bs
    at hbs hlen
  have hstart : Holds data g.size.toNat (T + live.length) (Net.header f.bytes ++ f.bytes) := by
    have hdrop := hholds.drop (n := live.length)
    rwa [List.drop_left' rfl] at hdrop
  have hframe : (Net.header f.bytes ++ f.bytes).length = recHdr + f.bytes.length := by
    rw [List.length_append, Record.length_header]
  have htake := hstart.agree hbs (by rw [hframe, hlen]; exact hsize)
  have hpad : bs = Net.header f.bytes ++ (f.bytes ++
      bs.drop (Net.header f.bytes ++ f.bytes).length) := by
    rw [← List.append_assoc, ← htake, List.length_take, Nat.min_eq_left (by omega),
      List.take_append_drop]
  refine ⟨⟨f, bs.drop (Net.header f.bytes ++ f.bytes).length, ?_⟩, rfl, hpad, ?_⟩
  · rw [List.length_drop, hframe, hlen]
    omega
  · show Holds data g.size.toNat T (live ++ (Net.header f.bytes ++ (f.bytes ++ _)))
    rw [← hpad]
    exact hholds.left.append hbs

theorem ToHost.Tied.publish (h : s.Tied g reader T live gone rest) :
    ∃ live' rest', (s.publish g).Tied g reader T live' gone rest' := by
  have hright := h.xmit
  unfold ToHost.publish
  generalize hx : s.xmit = x at hright
  cases hright with
  | idle | header | body => exact ⟨live, rest, h⟩
  | @ready f hholds hfit =>
      obtain ⟨r, rfl, hread, hnew⟩ := exists_record hholds hfit
      have hcopied : Link.Tied g { s.link with
          producer := .copied (BitVec.ofNat 32 (T + live.length)) r.bytes } T live :=
        { h.link with
          producer_ok := ⟨hnew, rfl, by rw [r.length_bytes]; exact hfit⟩ }
      have hlink := hcopied.pushPublish rfl
      dsimp only at hlink ⊢
      rw [r.length_bytes, ← h.producer] at hlink
      rw [hread]
      refine ⟨live ++ r.bytes, rest ++ [r], hlink, h.producer, h.consumer, h.pulling, .idle hnew,
        h.short, ?_, ⟨?_, ?_⟩, h.read, h.bad⟩
      · rw [stream_append, h.stream, stream_cons, stream_nil, List.append_nil, List.append_assoc]
      · dsimp only
        rw [h.written.1]
        simp [Record.entry]
      · dsimp only
        rw [h.written.2]
        simp

end card

/-! ## the host keeps it -/

section host

variable {g : Geometry} {reader : Reader} {s : ToHost} {T : Nat} {live : List UInt8}
  {gone rest : List Record}

theorem ToHost.Tied.call (h : s.Tied g reader T live gone rest) :
    (s.call reader).Tied g reader T live gone rest := by
  unfold ToHost.call
  cases hx : s.recv with
  | cutting | looking | popping | pulling => exact h
  | out =>
      have hconsumer := h.consumer (by rw [hx]; exact nofun)
      have hshort := h.short
      rw [hx] at hshort
      cases reader with
      | forwarder =>
          exact ⟨h.link, h.producer, fun _ => hconsumer, nofun, h.xmit, trivial, h.stream,
            h.written, h.read, h.bad⟩
      | bridge =>
          exact ⟨h.link, h.producer, fun _ => hconsumer, nofun, h.xmit, hshort rfl, h.stream,
            h.written, h.read, h.bad⟩

/-- Only whole records are cut, and they are the frames the card sent. -/
theorem ToHost.Tied.cutNext (h : s.Tied g reader T live gone rest) :
    ∃ gone' rest', gone ++ rest = gone' ++ rest' ∧ rest'.length ≤ rest.length ∧
      (s.cutNext reader).Tied g reader T live gone' rest' := by
  unfold ToHost.cutNext
  cases hx : s.recv with
  | out | looking | popping | pulling => exact ⟨gone, rest, rfl, Nat.le_refl _, h⟩
  | cutting =>
      have hconsumer := h.consumer (by rw [hx]; exact nofun)
      obtain ⟨hcut, -⟩ | ⟨r, rest', left, rfl, hcut, -, hleft⟩ := cut_of_stream h.stream
      · rw [hcut]
        refine ⟨gone, rest, rfl, Nat.le_refl _, ?_⟩
        cases reader with
        | forwarder =>
            exact ⟨h.link, h.producer, fun _ => hconsumer, nofun, h.xmit, hcut, h.stream,
              h.written, h.read, h.bad⟩
        | bridge =>
            exact ⟨h.link, h.producer, fun _ => hconsumer, nofun, h.xmit, fun _ => hcut,
              h.stream, h.written, h.read, h.bad⟩
      · rw [hcut]
        have hsplit : gone ++ r :: rest' = (gone ++ [r]) ++ rest' := by simp
        have hwritten := h.written
        rw [hsplit] at hwritten
        have hread : s.read ++ [r.frame.bytes] =
            (gone ++ [r]).map fun r => r.frame.bytes := by
          rw [h.read, List.map_append]
          rfl
        refine ⟨gone ++ [r], rest', hsplit, Nat.le_succ _, ?_⟩
        cases reader with
        | forwarder =>
            exact ⟨h.link, h.producer, fun _ => hconsumer, nofun, h.xmit, nofun, hleft, hwritten,
              hread, h.bad⟩
        | bridge =>
            exact ⟨h.link, h.producer, fun _ => hconsumer, nofun, h.xmit, trivial, hleft,
              hwritten, hread, h.bad⟩

theorem ToHost.Tied.look (h : s.Tied g reader T live gone rest) :
    (s.look g).Tied g reader T live gone rest := by
  unfold ToHost.look
  cases hx : s.recv with
  | out | cutting | popping | pulling => exact h
  | looking =>
      have hconsumer := h.consumer (by rw [hx]; exact nofun)
      have hshort := h.short
      rw [hx] at hshort
      dsimp only
      split
      · exact ⟨h.link, h.producer, fun _ => hconsumer, nofun, h.xmit, fun _ => hshort, h.stream,
          h.written, h.read, h.bad⟩
      · exact ⟨h.link, h.producer, fun _ => hconsumer, nofun, h.xmit, hshort, h.stream,
          h.written, h.read, h.bad⟩

/-- What `ring_pop` finds. -/
theorem popLoad_eq (h : s.Tied g reader T live gone rest) (cap : Nat) :
    s.link.popLoad g .host cap = { s.link with
      consumer := if min live.length cap = 0 then .idle
        else .loaded s.link.tail (min live.length cap) } := by
  have hcount : popCount g.size s.link.head s.link.tail cap = some (min live.length cap) := by
    rw [h.link.head_eq, h.link.tail_eq]
    exact popCount_eq g h.link.fits cap
  unfold Link.popLoad Link.ownTail
  dsimp only
  rw [hcount]

theorem ToHost.Tied.load (h : s.Tied g reader T live gone rest) :
    (s.load g).Tied g reader T live gone rest := by
  have hlink := h.link.popLoad .host (inboundCap - s.inbound.length)
  have heq := popLoad_eq h (inboundCap - s.inbound.length)
  unfold ToHost.load
  cases hx : s.recv with
  | out | cutting | looking | pulling => exact h
  | popping =>
      have hshort := h.short
      rw [hx] at hshort
      dsimp only
      rw [heq] at hlink ⊢
      by_cases hzero : min live.length (inboundCap - s.inbound.length) = 0
      · rw [if_pos hzero] at hlink ⊢
        exact ⟨hlink, h.producer, fun _ => rfl, nofun, h.xmit, fun _ => hshort, h.stream,
          h.written, h.read, h.bad⟩
      · rw [if_neg hzero] at hlink ⊢
        exact ⟨hlink, h.producer, fun hp => absurd rfl hp, fun _ => hzero, h.xmit, hshort,
          h.stream, h.written, h.read, h.bad⟩

theorem ToHost.Tied.copy (h : s.Tied g reader T live gone rest) :
    (s.copy g).Tied g reader T live gone rest := by
  unfold ToHost.copy
  cases hx : s.recv with
  | out | cutting | looking | popping => exact h
  | pulling =>
      have hshort := h.short
      rw [hx] at hshort
      have hpulls := h.pulling hx
      obtain ⟨tail, n, hc, hn⟩ | ⟨tail, bs, hc, -⟩ := pulls_cases hpulls
      · have hcopy := h.link.popCopy hc
        have hstep : s.link.step g .card .host .popCopy = { s.link with
            consumer := .copied tail (copyOut g.size tail s.link.data n) } := by
          unfold Link.step
          dsimp only
          rw [hc]
        have hsome : copyOut g.size tail s.link.data n ≠ [] := by
          obtain ⟨htail, -⟩ : (Consumer.loaded tail n).Ok T live := hc ▸ h.link.consumer_ok
          rw [htail, ← List.length_pos_iff, length_copyOut]
          exact Nat.pos_of_ne_zero hn
        dsimp only
        rw [hstep]
        exact ⟨hcopy, h.producer, fun hp => absurd rfl hp, fun _ => hsome, h.xmit, hshort,
          h.stream, h.written, h.read, h.bad⟩
      · have hstay : s.link.step g .card .host .popCopy = s.link := by
          unfold Link.step
          dsimp only
          rw [hc]
        dsimp only
        rw [hstay]
        exact ⟨h.link, h.producer, fun hp => absurd rfl hp, fun _ => hpulls, h.xmit, hshort,
          h.stream, h.written, h.read, h.bad⟩

/-- The bytes popped are those that follow what the reader has. -/
theorem ToHost.Tied.finish (h : s.Tied g reader T live gone rest) :
    ∃ T' live', live'.length ≤ live.length ∧
      (s.finish g).Tied g reader T' live' gone rest := by
  unfold ToHost.finish
  cases hx : s.recv with
  | out | cutting | looking | popping => exact ⟨T, live, Nat.le_refl _, h⟩
  | pulling =>
      obtain ⟨tail, n, hc, -⟩ | ⟨tail, bs, hc, -⟩ := pulls_cases (h.pulling hx)
      · rw [hc]
        exact ⟨T, live, Nat.le_refl _, h⟩
      · obtain ⟨-, hpre⟩ : (Consumer.copied tail bs).Ok T live := hc ▸ h.link.consumer_ok
        have hpop := h.link.popPublish hc
        have hstep : s.link.step g .card .host .popPublish = { s.link with
            tail := tail + BitVec.ofNat 32 bs.length, rxTail := tail + BitVec.ofNat 32 bs.length,
            consumer := .idle, popped := s.link.popped ++ bs } := by
          unfold Link.step
          dsimp only
          rw [hc]
        have hsplit : bs ++ live.drop bs.length = live := List.prefix_iff_eq_append.mp hpre
        rw [hc]
        dsimp only
        rw [hstep]
        refine ⟨T + bs.length, live.drop bs.length, ?_, hpop, h.producer, fun _ => rfl, nofun,
          h.xmit.drop hpre.length_le, trivial, ?_, h.written, h.read, h.bad⟩
        · rw [List.length_drop]
          exact Nat.sub_le _ _
        · rw [h.stream, List.append_assoc, hsplit]

end host

/-! ## runs -/

/-- **One step of either end.** -/
theorem ToHost.Tied.step {g : Geometry} {reader : Reader} {s : ToHost} {T : Nat}
    {live : List UInt8} {gone rest : List Record} (h : s.Tied g reader T live gone rest)
    (e : ToHost.Event) :
    ∃ T' live' gone' rest', (s.step g reader e).Tied g reader T' live' gone' rest' := by
  cases e with
  | xmit f =>
      unfold ToHost.step
      cases hidle : s.xmit with
      | idle => exact ⟨T, live, gone, rest, h.kncNetXmit hidle f⟩
      | header _ _ | body _ _ | ready _ _ => exact ⟨T, live, gone, rest, h⟩
  | writeHeader => exact ⟨T, live, gone, rest, h.writeHeader⟩
  | writeFrame => exact ⟨T, live, gone, rest, h.writeFrame⟩
  | publish =>
      obtain ⟨live', rest', h'⟩ := h.publish
      exact ⟨T, live', gone, rest', h'⟩
  | call => exact ⟨T, live, gone, rest, h.call⟩
  | cut =>
      obtain ⟨gone', rest', -, -, h'⟩ := h.cutNext
      exact ⟨T, live, gone', rest', h'⟩
  | look => exact ⟨T, live, gone, rest, h.look⟩
  | load => exact ⟨T, live, gone, rest, h.load⟩
  | copy => exact ⟨T, live, gone, rest, h.copy⟩
  | finish =>
      obtain ⟨T', live', -, h'⟩ := h.finish
      exact ⟨T', live', gone, rest, h'⟩

/-- **A run.** -/
theorem ToHost.run_tied (g : Geometry) (reader : Reader) (index : W32) (area : Nat → UInt8)
    (es : List ToHost.Event) : ∃ T live gone rest,
    (run (ToHost.step g reader) (.start index area) es).Tied g reader T live gone rest := by
  have hstart : (ToHost.start index area).Tied g reader index.toNat [] [] [] :=
    ⟨emptyLink_tied g index area, rfl, fun _ => rfl, nofun, .idle (holds_nil _ _ _),
      fun _ => rfl, rfl, ⟨rfl, rfl⟩, rfl, rfl⟩
  have hstep : ∀ (s : ToHost) (e : ToHost.Event),
      (∃ T live gone rest, s.Tied g reader T live gone rest) →
      ∃ T live gone rest, (s.step g reader e).Tied g reader T live gone rest :=
    fun s e ⟨_, _, _, _, h⟩ => h.step e
  exact run_inv_all hstep ⟨_, _, _, _, hstart⟩ es

/-! ## the host reads everything -/

/-- One round of the host by itself. -/
def ToHost.round : List ToHost.Event := [.call, .cut, .look, .load, .copy, .finish]

/-- The rounds in which it gets no further: `net_step` at its end. -/
def Recv.wasted : Recv → Nat
  | .cutting => 1
  | .out | .looking | .popping | .pulling => 0

theorem Recv.wasted_le (x : Recv) : x.wasted ≤ 1 := by
  cases x <;> decide

section rounds

variable {g : Geometry} {reader : Reader} {s : ToHost} {T : Nat} {live : List UInt8}
  {gone rest : List Record}

/-- In `ring_pop` something is popped. -/
theorem ToHost.Tied.pulls (h : s.Tied g reader T live gone rest) (hx : s.recv = .pulling) :
    ∃ T' live', live'.length < live.length ∧
      ((s.copy g).finish g).Tied g reader T' live' gone rest := by
  have hcopy := h.copy
  have hrecv : (s.copy g).recv = .pulling := by
    unfold ToHost.copy
    rw [hx]
  obtain ⟨T', live', -, hfinish⟩ := hcopy.finish
  refine ⟨T', live', ?_, hfinish⟩
  -- after the copy there are bytes to move to the reader
  have hcopied : ∃ tail bs, (s.copy g).link.consumer = .copied tail bs ∧ bs ≠ [] := by
    obtain ⟨tail, n, hc, -⟩ | hcopied := pulls_cases (hcopy.pulling hrecv)
    · exfalso
      unfold ToHost.copy at hc
      rw [hx] at hc
      dsimp only at hc
      unfold Link.step at hc
      obtain ⟨tail', n', hc', -⟩ | ⟨tail', bs', hc', -⟩ := pulls_cases (h.pulling hx)
      · rw [hc'] at hc
        cases hc
      · rw [hc'] at hc
        exact absurd (hc'.symm.trans hc) nofun
    · exact hcopied
  obtain ⟨tail, bs, hc, hbs⟩ := hcopied
  have hgrown : ((s.copy g).finish g).inbound = (s.copy g).inbound ++ bs := by
    unfold ToHost.finish
    rw [hrecv, hc]
  have hlen := congrArg List.length (hfinish.stream.symm.trans hcopy.stream)
  have hpos := List.length_pos_iff.mpr hbs
  rw [hgrown] at hlen
  simp only [List.length_append] at hlen
  omega

theorem ToHost.Tied.pops (h : s.Tied g reader T live gone rest) (hx : s.recv = .popping)
    (hrest : rest ≠ []) :
    ∃ T' live', live'.length < live.length ∧
      (((s.load g).copy g).finish g).Tied g reader T' live' gone rest := by
  have hshort := h.short
  rw [hx] at hshort
  have hsome : min live.length (inboundCap - s.inbound.length) ≠ 0 := by
    obtain ⟨-, hless, hmore⟩ | ⟨r, rest', left, -, hcut, -, -⟩ := cut_of_stream h.stream
    · have hlive := List.length_pos_iff.mpr (hmore hrest)
      have hcap : recordSize maxEthFrame < inboundCap := by decide
      omega
    · exact absurd (hshort.symm.trans hcut) nofun
  have hrecv : (s.load g).recv = .pulling := by
    unfold ToHost.load
    rw [hx]
    dsimp only
    rw [popLoad_eq h, if_neg hsome]
  exact h.load.pulls hrecv

theorem ToHost.Tied.looks (h : s.Tied g reader T live gone rest) (hx : s.recv = .looking)
    (hrest : rest ≠ []) :
    ∃ T' live', live'.length < live.length ∧
      ((((s.look g).load g).copy g).finish g).Tied g reader T' live' gone rest := by
  have hshort := h.short
  rw [hx] at hshort
  have hrecv : (s.look g).recv = .popping := by
    obtain ⟨-, hless, hmore⟩ | ⟨r, rest', left, -, hcut, -, -⟩ := cut_of_stream h.stream
    · have hlive := List.length_pos_iff.mpr (hmore hrest)
      have hcap : recordSize maxEthFrame < inboundCap := by decide
      have havail : ringAvail g.size s.link.head s.link.tail = live.length := by
        rw [h.link.head_eq, h.link.tail_eq, ringAvail_eq g h.link.fits]
      unfold ToHost.look
      rw [hx]
      dsimp only
      rw [havail, if_neg (by omega)]
    · exact absurd (hshort.symm.trans hcut) nofun
  exact h.look.pops hrecv hrest

/-- Outside it goes no further without a call. -/
theorem ToHost.rest_of_out (hx : s.recv = .out) :
    ((((s.look g).load g).copy g).finish g) = s := by
  have hlook : s.look g = s := by
    unfold ToHost.look
    rw [hx]
  have hload : s.load g = s := by
    unfold ToHost.load
    rw [hx]
  have hcopy : s.copy g = s := by
    unfold ToHost.copy
    rw [hx]
  rw [hlook, hload, hcopy]
  unfold ToHost.finish
  rw [hx]

theorem ToHost.rest_of_cutting (hx : s.recv = .cutting) :
    ((((s.look g).load g).copy g).finish g) = s := by
  have hlook : s.look g = s := by
    unfold ToHost.look
    rw [hx]
  have hload : s.load g = s := by
    unfold ToHost.load
    rw [hx]
  have hcopy : s.copy g = s := by
    unfold ToHost.copy
    rw [hx]
  rw [hlook, hload, hcopy]
  unfold ToHost.finish
  rw [hx]

/-- From the cut on: a record is handed on, or bytes are popped, or `net_step` is
at its end. -/
theorem ToHost.Tied.cuts (h : s.Tied g reader T live gone rest) (hx : s.recv = .cutting)
    (hrest : rest ≠ []) :
    ∃ T' live' gone' rest', gone ++ rest = gone' ++ rest' ∧
      (((((s.cutNext reader).look g).load g).copy g).finish g).Tied g reader T' live' gone' rest' ∧
      (rest'.length + live'.length < rest.length + live.length ∨
        reader = .bridge ∧ rest'.length + live'.length = rest.length + live.length ∧
          (((((s.cutNext reader).look g).load g).copy g).finish g).recv = .out) := by
  obtain ⟨hcut, -⟩ | ⟨r, rest', left, rfl, hcut, -, -⟩ := cut_of_stream h.stream
  · obtain ⟨gone', rest', hsplit, -, hcutNext⟩ := h.cutNext
    cases reader with
    | forwarder =>
        have hnext : s.cutNext .forwarder = { s with recv := .looking } := by
          unfold ToHost.cutNext
          rw [hx, hcut]
        have hlooking : ({ s with recv := .looking } : ToHost).Tied g .forwarder T live gone rest :=
          ⟨h.link, h.producer, fun _ => h.consumer (by rw [hx]; exact nofun), nofun, h.xmit, hcut,
            h.stream, h.written, h.read, h.bad⟩
        obtain ⟨T', live', hless, h'⟩ := hlooking.looks rfl hrest
        rw [hnext]
        exact ⟨T', live', gone, rest, rfl, h', .inl (by omega)⟩
    | bridge =>
        have hout : (s.cutNext .bridge).recv = .out := by
          unfold ToHost.cutNext
          rw [hx, hcut]
        have hnext : s.cutNext .bridge = { s with recv := .out } := by
          unfold ToHost.cutNext
          rw [hx, hcut]
        have houtside : ({ s with recv := .out } : ToHost).Tied g .bridge T live gone rest :=
          ⟨h.link, h.producer, fun _ => h.consumer (by rw [hx]; exact nofun), nofun, h.xmit,
            fun _ => hcut, h.stream, h.written, h.read, h.bad⟩
        rw [ToHost.rest_of_out hout, hnext]
        exact ⟨T, live, gone, rest, rfl, houtside, .inr ⟨rfl, rfl, rfl⟩⟩
  · obtain ⟨gone', rest'', hsplit, -, hcutNext⟩ := h.cutNext
    have hgone : gone' = gone ++ [r] := by
      have hread := hcutNext.read
      unfold ToHost.cutNext at hread
      rw [hx, hcut] at hread
      have hlen : gone'.length = gone.length + 1 := by
        have hcount := congrArg List.length hread
        rw [List.length_map] at hcount
        rw [← hcount]
        have hbefore := congrArg List.length h.read
        rw [List.length_map] at hbefore
        cases reader with
        | forwarder | bridge =>
            dsimp only
            rw [List.length_append, hbefore]
            rfl
      have hstart : gone ++ [r] <+: gone' ++ rest'' := by
        rw [← hsplit]
        exact ⟨rest', by simp⟩
      have htake := List.prefix_of_prefix_length_le hstart (List.prefix_append gone' rest'')
        (by rw [List.length_append, hlen]; exact Nat.le_refl _)
      exact (htake.eq_of_length (by rw [List.length_append, hlen]; rfl)).symm
    subst hgone
    have hrest' : rest'' = rest' := by
      rw [List.append_assoc] at hsplit
      exact (List.cons.inj (List.append_cancel_left hsplit)).2.symm
    subst hrest'
    refine ⟨T, live, gone ++ [r], rest'', hsplit, ?_, .inl (by rw [List.length_cons]; omega)⟩
    cases reader with
    | forwarder =>
        have hout : (s.cutNext .forwarder).recv = .out := by
          unfold ToHost.cutNext
          rw [hx, hcut]
        rw [ToHost.rest_of_out hout]
        exact hcutNext
    | bridge =>
        have hcutting : (s.cutNext .bridge).recv = .cutting := by
          unfold ToHost.cutNext
          rw [hx, hcut]
        rw [ToHost.rest_of_cutting hcutting]
        exact hcutNext

/-- **A round** hands a record on or pops some bytes, or is the one that ends
`net_step`. -/
theorem ToHost.Tied.round (h : s.Tied g reader T live gone rest) (hrest : rest ≠ []) :
    ∃ T' live' gone' rest', gone ++ rest = gone' ++ rest' ∧
      (run (ToHost.step g reader) s ToHost.round).Tied g reader T' live' gone' rest' ∧
      2 * (rest'.length + live'.length) + (run (ToHost.step g reader) s ToHost.round).recv.wasted <
        2 * (rest.length + live.length) + s.recv.wasted := by
  have hturn : run (ToHost.step g reader) s ToHost.round =
      ((((((s.call reader).cutNext reader).look g).load g).copy g).finish g) := rfl
  rw [hturn]
  have hle := Recv.wasted_le
    ((((((s.call reader).cutNext reader).look g).load g).copy g).finish g).recv
  -- past the cut nothing changes until the reader is where it was
  have hcall : s.recv ≠ .out → s.call reader = s := by
    intro hne
    unfold ToHost.call
    cases hx : s.recv with
    | out => exact absurd hx hne
    | cutting | looking | popping | pulling => rfl
  have hskip : ∀ s : ToHost, s.recv ≠ .cutting → s.cutNext reader = s := by
    intro s hne
    unfold ToHost.cutNext
    cases hx : s.recv with
    | cutting => exact absurd hx hne
    | out | looking | popping | pulling => rfl
  cases hx : s.recv with
  | out =>
      have hsame : (s.call reader).Tied g reader T live gone rest := h.call
      cases reader with
      | forwarder =>
          have hcutting : (s.call .forwarder).recv = .cutting := by
            unfold ToHost.call
            rw [hx]
          obtain ⟨T', live', gone', rest', hsplit, h', hless⟩ := hsame.cuts hcutting hrest
          refine ⟨T', live', gone', rest', hsplit, h', ?_⟩
          obtain hless | ⟨hbridge, -⟩ := hless
          · omega
          · cases hbridge
      | bridge =>
          have hlooking : (s.call .bridge).recv = .looking := by
            unfold ToHost.call
            rw [hx]
          rw [hskip _ (by rw [hlooking]; exact nofun)] at hle ⊢
          obtain ⟨T', live', hless, h'⟩ := hsame.looks hlooking hrest
          exact ⟨T', live', gone, rest, rfl, h', by omega⟩
  | cutting =>
      rw [hcall (by rw [hx]; exact nofun)] at hle ⊢
      obtain ⟨T', live', gone', rest', hsplit, h', hless⟩ := h.cuts hx hrest
      refine ⟨T', live', gone', rest', hsplit, h', ?_⟩
      rw [show Recv.cutting.wasted = 1 from rfl]
      obtain hless | ⟨-, hsame, hout⟩ := hless
      · omega
      · rw [hout, hsame]
        exact Nat.lt_succ_self _
  | looking =>
      rw [hcall (by rw [hx]; exact nofun), hskip _ (by rw [hx]; exact nofun)] at hle ⊢
      obtain ⟨T', live', hless, h'⟩ := h.looks hx hrest
      exact ⟨T', live', gone, rest, rfl, h', by omega⟩
  | popping =>
      have hlook : s.look g = s := by
        unfold ToHost.look
        rw [hx]
      rw [hcall (by rw [hx]; exact nofun), hskip _ (by rw [hx]; exact nofun), hlook] at hle ⊢
      obtain ⟨T', live', hless, h'⟩ := h.pops hx hrest
      exact ⟨T', live', gone, rest, rfl, h', by omega⟩
  | pulling =>
      have hlook : s.look g = s := by
        unfold ToHost.look
        rw [hx]
      have hload : s.load g = s := by
        unfold ToHost.load
        rw [hx]
      rw [hcall (by rw [hx]; exact nofun), hskip _ (by rw [hx]; exact nofun), hlook, hload] at hle ⊢
      obtain ⟨T', live', hless, h'⟩ := h.pulls hx
      exact ⟨T', live', gone, rest, rfl, h', by omega⟩

/-- A round of a reader that has everything. -/
theorem ToHost.Tied.idles (h : s.Tied g reader T live gone []) :
    ∃ T' live', (run (ToHost.step g reader) s ToHost.round).Tied g reader T' live' gone [] := by
  obtain ⟨gone', rest', hsplit, hlen, hcut⟩ := h.call.cutNext
  obtain rfl : rest' = [] := List.length_eq_zero_iff.mp (Nat.le_zero.mp hlen)
  rw [List.append_nil, List.append_nil] at hsplit
  subst hsplit
  obtain ⟨T', live', -, hfinish⟩ := hcut.look.load.copy.finish
  exact ⟨T', live', hfinish⟩

/-- Nothing is left after enough rounds. -/
theorem ToHost.Tied.rounds (h : s.Tied g reader T live gone rest) (n : Nat)
    (henough : 2 * (rest.length + live.length) + s.recv.wasted ≤ n) :
    ∃ T' live', (run (ToHost.step g reader) s (List.replicate n ToHost.round).flatten).Tied
      g reader T' live' (gone ++ rest) [] := by
  induction n generalizing s T live gone rest with
  | zero =>
      have hnil : rest = [] := by
        rw [← List.length_eq_zero_iff]
        omega
      subst hnil
      rw [List.append_nil]
      exact ⟨T, live, h⟩
  | succ n ih =>
      rw [List.replicate_succ, List.flatten_cons, run_append]
      by_cases hrest : rest = []
      · subst hrest
        obtain ⟨T', live', h'⟩ := h.idles
        have hempty := h'.stream
        obtain ⟨-, rfl⟩ := List.append_eq_nil_iff.mp hempty.symm
        by_cases hn : (run (ToHost.step g reader) s ToHost.round).recv.wasted ≤ n
        · exact ih h' (by simpa using hn)
        · -- the last round
          have hle := Recv.wasted_le (run (ToHost.step g reader) s ToHost.round).recv
          obtain rfl : n = 0 := by omega
          rw [List.append_nil]
          exact ⟨T', [], h'⟩
      · obtain ⟨T', live', gone', rest', hsplit, h', hless⟩ := h.round hrest
        rw [hsplit]
        exact ih h' (by omega)

end rounds

end Phi.Net
