import Phi.Rpc.Decoders
import Phi.Serve.Relay

/-!
# Phi.Serve.Control

The control socket's way to the card, byte by byte (`serve.S`).

A client's bytes go through its decoder; its frames then wait in its pending
buffer or go to `to_card`, a flat buffer in front of the card's ring.  `Relay`
has the same routines on frames; here are the buffers.  What is copied past the
end of `to_card` lands in its neighbours and is lost to it.

Each frame in `to_card` is logged with the client it is from; the daemon keeps
no such log.
-/

namespace Phi.Serve

open Rpc

/-! ## state -/

def toCardCap : Nat := 4 * maxFrame

/-- A client's slot, with its pending buffer and its decoder. -/
structure Peer where
  id : Nat
  dead : Bool
  pending : List UInt8
  dec : Dec

/-- A frame that went to the card: whose it is, and its bytes. -/
structure Entry where
  owner : Nat
  tag : UInt8
  bytes : List UInt8
deriving DecidableEq

/-- What the agent is busy with, for whom, and whether the input has ended. -/
structure Job where
  task : Task
  owner : Nat
  ended : Bool
deriving DecidableEq

structure Control where
  serveOwner : Nat
  slots : List (Option Peer)
  nclients : Nat
  nextId : Nat
  holder : Nat
  session : Session
  statQ : Nat → Nat
  statQh : Nat
  statQt : Nat
  toCard : Window UInt8
  /-- Bytes were copied past the end of `toCard`. -/
  overrun : Bool
  /-- What the ring took. -/
  pushed : List UInt8
  /-- The frames that went to `toCard`, and of them those since the holder got
  the card. -/
  log : List Entry
  tenure : List Entry
  /-- The frames that clients sent for the card. -/
  received : List Entry
  /-- How many of the logged frames the agent has taken. -/
  taken : Nat
  agent : Option Job
  fromCard : List Reply

/-- The daemon before its first client. -/
def Control.opened (serveOwner : Nat) (cells : Nat → UInt8) : Control where
  serveOwner := serveOwner
  slots := List.replicate maxClients none
  nclients := 0
  nextId := 0
  holder := 0
  session := .none
  statQ := fun _ => 0
  statQh := 0
  statQt := 0
  toCard := ⟨cells, 0, 0⟩
  overrun := false
  pushed := []
  log := []
  tenure := []
  received := []
  taken := 0
  agent := none
  fromCard := []

namespace Control

/-! ## clients -/

def setSlot (i : Nat) (c : Option Peer) (s : Control) : Control :=
  { s with slots := s.slots.set i c }

/-- `client_by_id`. -/
def clientById (id : Nat) (s : Control) : Option Nat :=
  s.slots.findIdx? fun x => x.any fun c => c.id = id

def markDead (i : Nat) (s : Control) : Control :=
  match s.slots[i]? with
  | some (some c) => s.setSlot i (some { c with dead := true })
  | _ => s

/-- One connection of `accept_clients`. -/
def acceptClient (uid : Nat) (s : Control) : Control :=
  if uid ≠ 0 ∧ uid ≠ s.serveOwner then s
  else if maxClients ≤ s.nclients then s
  else match s.slots.findIdx? Option.isNone with
    | none => s
    | some i =>
        { s with
          nextId := s.nextId + 1
          slots := s.slots.set i (some ⟨s.nextId + 1, false, [], .init fun _ => 0⟩)
          nclients := s.nclients + 1 }

/-! ## the buffer to the card -/

/-- `to_card_append`: what is held moved to the front when the frame would not
fit at the tail; nothing is checked after that. -/
def toCardAppend (e : Entry) (s : Control) : Control :=
  let w := if toCardCap < s.toCard.tail + e.bytes.length then s.toCard.compact else s.toCard
  let copied := w.append e.bytes
  { s with
    toCard := { copied with cells := fun k => if k < toCardCap then copied.cells k else w.cells k }
    overrun := s.overrun || toCardCap < w.tail + e.bytes.length
    log := s.log ++ [e]
    tenure := s.tenure ++ [e] }

/-- `push_to_card`, the ring taking at most `n` bytes. -/
def pushToCard (n : Nat) (s : Control) : Control :=
  if s.toCard.size = 0 then s
  else
    let n := min n s.toCard.size
    let w := s.toCard.advance n
    { s with
      toCard := if w.head = w.tail then w.clear else w
      pushed := s.pushed ++ s.toCard.content.take n }

/-! ## clients to the card -/

/-- The session after a frame of the holder. -/
def follow (session : Session) : Option Tag → Session
  | some .exec => .execOpen
  | some .stdinEof => if session = .execOpen then .execClosed else session
  | some .putOpen => .putOpen
  | some .putClose => if session = .putOpen then .putClosed else session
  | some .get => .other
  | some .ping => .other
  | _ => session

/-- `forward_frame`: a session frame to the card, the session following it. -/
def forwardFrame (e : Entry) (s : Control) : Control :=
  ({ s with session := follow s.session (Tag.ofByte e.tag) } : Control).toCardAppend e

/-- `client_wants_read`. -/
def wantsRead (c : Peer) (s : Control) : Bool :=
  c.dead = false ∧ (c.pending = [] ∨ c.id = s.holder) ∧ readChunk ≤ c.dec.space ∧
    s.toCard.size < toCardCap - 2 * maxFrame

/-- The bytes of the frame that the decoder has just cut, its header included. -/
def frameBytes (d : Dec) (body : List UInt8) : List UInt8 :=
  Circular.read d.win.cells (d.win.head - (body.length + 5)) (body.length + 5)

/-- A frame for the card has come. -/
def receive (e : Entry) (s : Control) : Control := { s with received := s.received ++ [e] }

/-- `handle_frame` for the frame just cut for slot `i`: answered here, which may
fail, sent past the session with the requester remembered, forwarded, or held. -/
def handleFrame (i : Nat) (answered : Bool) (tag : UInt8) (body : List UInt8) (s : Control) :
    Control :=
  match s.slots[i]? with
  | some (some c) =>
      let e : Entry := ⟨c.id, tag, frameBytes c.dec body⟩
      if Tag.ofByte tag = some .sensors ∨ Tag.ofByte tag = some .traffic then
        if answered then s else s.markDead i
      else
        let s := s.receive e
        if Tag.ofByte tag = some .stat then
          { s.toCardAppend e with
            statQ := fun k => if k = s.statQt % statSlots then c.id else s.statQ k
            statQt := s.statQt + 1 }
        else if c.id = s.holder then s.forwardFrame e
        else if pendCap < c.pending.length + (body.length + 5) then
          s.setSlot i (some { c with dead := true })
        else s.setSlot i (some { c with pending := c.pending ++ e.bytes })
  | _ => s

/-- The loop of `clients_to_card` over the frames of one read, until none is
whole or one is rejected. -/
def handleFrames (i : Nat) (answered : Nat → Bool) : Nat → Control → Control
  | 0, s => s
  | n + 1, s =>
      match s.slots[i]? with
      | some (some c) => match c.dec.next with
          | none => s
          | some (.frame tag body, d) =>
              handleFrames i answered n
                ((s.setSlot i (some { c with dec := d })).handleFrame i (answered n) tag body)
          | some (_, d) => s.setSlot i (some { c with dec := d, dead := true })
      | _ => s

/-- One client's turn in `clients_to_card`: a read of its socket, which brings a
piece of its bytes or its end. -/
def clientToCard (i : Nat) (answered : Nat → Bool) (chunk : Option (List UInt8)) (s : Control) :
    Control :=
  match s.slots[i]? with
  | some (some c) =>
      if s.wantsRead c then
        match chunk with
        | none => s.markDead i
        | some bytes =>
            let d := c.dec.push (bytes.take readChunk)
            (s.setSlot i (some { c with dec := d })).handleFrames i answered d.win.size
      else s
  | _ => s

/-- `f_begin` and `f_finish` of a frame that is its tag only. -/
def tagFrame (owner : Nat) (t : Tag) : Entry := ⟨owner, t.toByte, putU32 1 ++ [t.toByte]⟩

/-- What a departed holder left open is closed. -/
def abandon (owner : Nat) (s : Control) : Control :=
  match s.session with
  | .execOpen => { s.toCardAppend (tagFrame owner .stdinEof) with session := .execClosed }
  | .putOpen => { s.toCardAppend (tagFrame owner .putClose) with session := .putClosed }
  | _ => s

/-- A slot freed. -/
def leave (i : Nat) (s : Control) : Control :=
  { s with slots := s.slots.set i none, nclients := s.nclients - 1 }

/-- One slot's turn in `reap_clients`: a dead holder gives up the card. -/
def reapClient (i : Nat) (s : Control) : Control :=
  match s.slots[i]? with
  | some (some c) =>
      if c.dead = false then s
      else if c.id = s.holder then (({ s with holder := 0 } : Control).abandon c.id).leave i
      else s.leave i
  | _ => s

/-- The walk of `pick_holder` over a pending buffer: the length and the tag of
each frame read from its header. -/
def forwardPending (owner : Nat) : Nat → List UInt8 → Control → Control
  | 0, _, s => s
  | n + 1, bs, s =>
      if bs = [] then s
      else
        let len := ofLe (bs.take 4)
        forwardPending owner n (bs.drop (4 + len))
          (s.forwardFrame ⟨owner, bs.getD 4 0, bs.take (4 + len)⟩)

/-- A client with frames waiting. -/
def waits (x : Option Peer) : Bool := x.any fun c => c.pending ≠ []

/-- `pick_holder`: with no session, the first client with frames waiting gets
the card. -/
def pickHolder (s : Control) : Control :=
  if s.session ≠ .none ∨ s.holder ≠ 0 then s
  else match s.slots.findIdx? waits with
    | none => s
    | some i => match s.slots[i]? with
      | some (some c) =>
          (forwardPending c.id c.pending.length c.pending
            { s with holder := c.id, tenure := [] }).setSlot i (some { c with pending := [] })
      | _ => s

/-! ## the card to clients -/

/-- `client_send_card_frame` to the client with this id, if there is one; a
failed write marks it dead. -/
def sendTo (id : Nat) (ok : Bool) (s : Control) : Control :=
  match s.clientById id with
  | none => s
  | some i => if ok then s else s.markDead i

/-- `deliver`. -/
def deliver (ok : Bool) (s : Control) : Control :=
  match s.fromCard with
  | [] => s
  | r :: rest =>
      let s := { s with fromCard := rest }
      if r.tag = .statReply then
        if s.statQt ≤ s.statQh then s
        else
          ({ s with statQh := s.statQh + 1 } : Control).sendTo (s.statQ (s.statQh % statSlots)) ok
      else
        let s := if s.holder = 0 then s else s.sendTo s.holder ok
        if r.tag.terminal then { s with session := .none, holder := 0 } else s

/-! ## the card's agent -/

def emit (tag : Tag) (owner : Nat) (s : Control) : Control :=
  { s with fromCard := s.fromCard ++ [⟨tag, owner⟩] }

/-- A session starts, or fails at once. -/
def startTask (task : Task) (owner : Nat) (ok : Bool) (s : Control) : Control :=
  if ok then { s with agent := some ⟨task, owner, false⟩ } else s.emit .error owner

/-- The frames on their way to the agent. -/
def inFlight (s : Control) : List Entry := s.log.drop s.taken

/-- The agent takes a frame: `main_loop` outside a session, `ex_frame`,
`run_put` or `run_get` inside. -/
def takeFrame (ok : Bool) (e : Entry) (s : Control) : Control :=
  match s.agent with
  | none => match Tag.ofByte e.tag with
      | some .exec => s.startTask .exec e.owner ok
      | some .putOpen => s.startTask .put e.owner ok
      | some .get => s.startTask .get e.owner ok
      | some .ping => s.emit .pong e.owner
      | some .stat => s.emit .statReply e.owner
      | some .stdin => s
      | some .stdinEof => s
      | some .putData => s
      | some .putClose => s
      | _ => s.emit .error e.owner
  | some b =>
      if Tag.ofByte e.tag = some .stat then s.emit .statReply e.owner
      else if b.task = .exec ∧ Tag.ofByte e.tag = some .stdinEof then
        { s with agent := some { b with ended := true } }
      else if b.task = .put ∧ Tag.ofByte e.tag = some .putData then
        if ok then s else ({ s with agent := none } : Control).emit .error b.owner
      else if b.task = .put ∧ Tag.ofByte e.tag = some .putClose then
        ({ s with agent := none } : Control).emit (if ok then .exit else .error) b.owner
      else s

/-- The agent's frame loop on the next frame, once the ring has all of it. -/
def agentTake (ok : Bool) (s : Control) : Control :=
  match s.inFlight with
  | [] => s
  | e :: _ =>
      if ((s.log.take (s.taken + 1)).flatMap Entry.bytes).length ≤ s.pushed.length then
        ({ s with taken := s.taken + 1 } : Control).takeFrame ok e
      else s

/-- What a running session sends of itself. -/
def agentOutput (tag : Tag) (s : Control) : Control :=
  match s.agent with
  | some ⟨.exec, owner, _⟩ =>
      if tag = .stdout ∨ tag = .stderr then s.emit tag owner
      else if tag = .exit then ({ s with agent := none } : Control).emit tag owner
      else s
  | some ⟨.get, owner, _⟩ =>
      if tag = .getData then s.emit tag owner
      else if tag = .getEnd ∨ tag = .error then ({ s with agent := none } : Control).emit tag owner
      else s
  | _ => s

/-! ## runs -/

end Control

/-- The daemon's routines, one connection, client or slot at a time, and the
agent's.  `serve_step` goes through the daemon's in this order; here they come
in any order. -/
inductive Move where
  | accept (uid : Nat)
  | read (i : Nat) (answered : Nat → Bool) (chunk : Option (List UInt8))
  | reap (i : Nat)
  | pick
  | push (n : Nat)
  | deliver (ok : Bool)
  | agentTake (ok : Bool)
  | agentOutput (tag : Tag)

def Control.step (s : Control) : Move → Control
  | .accept uid => s.acceptClient uid
  | .read i answered chunk => s.clientToCard i answered chunk
  | .reap i => s.reapClient i
  | .pick => s.pickHolder
  | .push n => s.pushToCard n
  | .deliver ok => s.deliver ok
  | .agentTake ok => s.agentTake ok
  | .agentOutput tag => s.agentOutput tag

/-! ## one frame's bytes -/

/-- The bytes are those of one frame that decodes, with this tag. -/
def Entry.Whole (e : Entry) : Prop := ∃ body, cut e.bytes = some (.frame e.tag body, [])

/-- What is known of a frame cut off the front. -/
structure CutsFrame (bs rest : List UInt8) (tag : UInt8) (body : List UInt8) : Prop where
  length : 4 + ofLe (bs.take 4) = body.length + 5
  le : body.length + 5 ≤ bs.length
  small : body.length + 1 ≤ Rpc.maxFrame
  rest_eq : rest = bs.drop (body.length + 5)
  tag_eq : bs.getD 4 0 = tag
  body_eq : (bs.take (body.length + 5)).drop 5 = body
  valid : validate tag body = 0

theorem cutsFrame {bs rest : List UInt8} {tag : UInt8} {body : List UInt8}
    (h : cut bs = some (.frame tag body, rest)) : CutsFrame bs rest tag body := by
  unfold cut at h
  split at h
  · cases h
  · dsimp only at h
    split at h
    · cases h
    · next hgood =>
        split at h
        · cases h
        · next hwhole =>
            obtain ⟨hof, hrest⟩ := Prod.mk.inj (Option.some.inj h)
            obtain ⟨hvalid, htag, hbody⟩ := outcome_of_frame hof
            rw [not_or, Nat.not_lt] at hgood
            have hlen : body.length + 1 = ofLe (bs.take 4) := by
              rw [← hbody, List.length_drop, List.length_take]
              omega
            have hn : body.length + 5 = 4 + ofLe (bs.take 4) := by omega
            exact
              { length := hn.symm
                le := by omega
                small := by omega
                rest_eq := by rw [hn, hrest]
                tag_eq := htag
                body_eq := by rw [hn, hbody]
                valid := by rw [← htag, ← hbody, hvalid] }

theorem CutsFrame.cut {bs rest : List UInt8} {tag : UInt8} {body : List UInt8}
    (h : CutsFrame bs rest tag body) : cut bs = some (.frame tag body, rest) := by
  obtain ⟨hlen, hle, hsmall, hrest, htag, hbody, hvalid⟩ := h
  have hn : body.length + 5 = 4 + ofLe (bs.take 4) := hlen.symm
  unfold Rpc.cut
  rw [if_neg (by omega)]
  dsimp only
  rw [if_neg (by omega), if_neg (by omega), ← hn, htag, hbody, hvalid, ← hrest]
  rfl

/-- The front that a frame is cut from is that frame whole, whatever follows. -/
theorem CutsFrame.front {bs rest : List UInt8} {tag : UInt8} {body : List UInt8}
    (h : CutsFrame bs rest tag body) (more : List UInt8) :
    CutsFrame (bs.take (body.length + 5) ++ more) more tag body := by
  have hfront : (bs.take (body.length + 5)).length = body.length + 5 := by
    rw [List.length_take, Nat.min_eq_left h.le]
  have htake : ∀ k ≤ body.length + 5,
      (bs.take (body.length + 5) ++ more).take k = bs.take k := by
    intro k hk
    rw [List.take_append_of_le_length (by omega), List.take_take, Nat.min_eq_left hk]
  exact
    { length := by rw [htake 4 (by omega), h.length]
      le := by simp only [List.length_append, hfront]; omega
      small := h.small
      rest_eq := by rw [List.drop_append_of_le_length (by omega), List.drop_of_length_le (by omega),
        List.nil_append]
      tag_eq := by
        rw [← h.tag_eq, List.getD_eq_getElem?_getD, List.getD_eq_getElem?_getD,
          List.getElem?_append_left (by omega), List.getElem?_take_of_lt (by omega)]
      body_eq := by
        rw [List.take_append_of_le_length (by omega), List.take_take, Nat.min_self, h.body_eq]
      valid := h.valid }

section

variable {e : Entry}

theorem Entry.Whole.cutsFrame (h : e.Whole) (more : List UInt8) :
    ∃ body, e.bytes.length = body.length + 5 ∧ CutsFrame (e.bytes ++ more) more e.tag body := by
  obtain ⟨body, hcut⟩ := h
  have hf := Phi.Serve.cutsFrame hcut
  have hlen : e.bytes.length = body.length + 5 := by
    have hnil := List.drop_eq_nil_iff.mp hf.rest_eq.symm
    have hle := hf.le
    omega
  have hfront := hf.front more
  rw [← hlen, List.take_length] at hfront
  exact ⟨body, hlen, hfront⟩

/-- The frame that a client's decoder has cut, as its bytes. -/
theorem decNext_frame {d d' : Dec} {tag : UInt8} {body : List UInt8}
    (hd : d.win.head ≤ d.win.tail) (h : d.next = some (.frame tag body, d')) :
    d'.win.head ≤ d'.win.tail ∧ d'.win.size + (body.length + 5) = d.win.size ∧
      d.win.content = Control.frameBytes d' body ++ d'.win.content ∧
      (Control.frameBytes d' body).length = body.length + 5 ∧
      ∀ owner, Entry.Whole ⟨owner, tag, Control.frameBytes d' body⟩ := by
  rw [Dec.next_eq] at h
  obtain ⟨⟨o, w⟩, hturn, heq⟩ := Option.map_eq_some_iff.mp h
  cases heq
  have hcut : cut d.win.content = some (.frame tag body, w.content) := by
    rw [← rxTurn_content, hturn]
    rfl
  have hf := cutsFrame hcut
  have hle := hf.le
  rw [Window.length_content] at hle
  have hw := rxTurn_frame hturn
  have hbytes : Control.frameBytes { d with win := w } body =
      d.win.content.take (body.length + 5) := by
    unfold Control.frameBytes Window.content
    rw [Circular.take_read _ hle, hw]
    show Circular.read d.win.cells (d.win.head + (body.length + 5) - (body.length + 5)) _ = _
    rw [Nat.add_sub_cancel]
  refine ⟨rxTurn_ordered hd hturn, ?_, ?_, ?_, fun owner => ⟨body, ?_⟩⟩
  · rw [hw]
    unfold Window.size Window.advance
    unfold Window.size at hle
    dsimp only
    omega
  · rw [hbytes]
    show d.win.content = d.win.content.take _ ++ w.content
    rw [hf.rest_eq, List.take_append_drop]
  · rw [hbytes, List.length_take, Window.length_content, Nat.min_eq_left hle]
  · have hfront := (hf.front []).cut
    rwa [List.append_nil, ← hbytes] at hfront

end

/-! ## the buffer to the card -/

namespace Control

section

variable {s : Control} {e : Entry}

/-- The head is not past the tail, and the tail not past the end unless bytes
were copied there. -/
structure Buffered (s : Control) : Prop where
  ordered : s.toCard.head ≤ s.toCard.tail
  inside : s.overrun = false → s.toCard.tail ≤ toCardCap

/-- Where a frame is appended: behind what is held, moved to the front if that
makes room. -/
def appendTo (e : Entry) (s : Control) : Window UInt8 :=
  if toCardCap < s.toCard.tail + e.bytes.length then s.toCard.compact else s.toCard

theorem appendTo_ordered (h : s.toCard.head ≤ s.toCard.tail) :
    (s.appendTo e).head ≤ (s.appendTo e).tail ∧ (s.appendTo e).size = s.toCard.size ∧
      (s.appendTo e).content = s.toCard.content := by
  unfold appendTo
  split
  · exact ⟨Nat.zero_le _, rfl, Window.content_compact _⟩
  · exact ⟨h, rfl, rfl⟩

theorem toCard_toCardAppend (s : Control) (e : Entry) :
    (s.toCardAppend e).toCard.head = (s.appendTo e).head ∧
      (s.toCardAppend e).toCard.tail = (s.appendTo e).tail + e.bytes.length := ⟨rfl, rfl⟩

theorem size_toCardAppend (h : s.toCard.head ≤ s.toCard.tail) :
    (s.toCardAppend e).toCard.size = s.toCard.size + e.bytes.length := by
  obtain ⟨hordered, hsize, -⟩ := appendTo_ordered (e := e) h
  obtain ⟨hhead, htail⟩ := toCard_toCardAppend s e
  rw [← hsize]
  unfold Window.size
  rw [hhead, htail]
  omega

theorem ordered_toCardAppend (h : s.toCard.head ≤ s.toCard.tail) :
    (s.toCardAppend e).toCard.head ≤ (s.toCardAppend e).toCard.tail := by
  obtain ⟨hordered, -, -⟩ := appendTo_ordered (e := e) h
  obtain ⟨hhead, htail⟩ := toCard_toCardAppend s e
  rw [hhead, htail]
  omega

theorem Buffered.append (h : s.Buffered) (e : Entry) : (s.toCardAppend e).Buffered := by
  obtain ⟨hhead, htail⟩ := toCard_toCardAppend s e
  constructor
  · exact ordered_toCardAppend h.ordered
  · intro hrun
    have hno : (s.overrun || decide (toCardCap < (s.appendTo e).tail + e.bytes.length)) = false :=
      hrun
    rw [Bool.or_eq_false_iff, decide_eq_false_iff_not, Nat.not_lt] at hno
    rw [htail]
    exact hno.2

/-- A frame stays inside the buffer exactly when the buffer has room for it. -/
theorem overrun_toCardAppend (h : s.Buffered) : (s.toCardAppend e).overrun = false ↔
    s.overrun = false ∧ s.toCard.size + e.bytes.length ≤ toCardCap := by
  have hdef : (s.toCardAppend e).overrun =
      (s.overrun || decide (toCardCap < (s.appendTo e).tail + e.bytes.length)) := rfl
  have hordered := h.ordered
  rw [hdef, Bool.or_eq_false_iff, decide_eq_false_iff_not, Nat.not_lt]
  refine and_congr_right fun hrun => ?_
  have hinside := h.inside hrun
  unfold appendTo
  split
  · exact Iff.rfl
  · next hfits =>
      unfold Window.size
      omega

theorem content_toCardAppend (h : s.Buffered) (hrun : (s.toCardAppend e).overrun = false) :
    (s.toCardAppend e).toCard.content = s.toCard.content ++ e.bytes := by
  obtain ⟨hordered, hsize, hcontent⟩ := appendTo_ordered (e := e) h.ordered
  rw [← hcontent, ← Window.content_append hordered]
  have hafter := (h.append e).inside hrun
  refine Circular.read_congr fun k hk => ?_
  have hbefore := (h.append e).ordered
  have hk' : (s.toCardAppend e).toCard.head + k < toCardCap := by
    unfold Window.size at hk
    omega
  exact if_pos hk'

/-- The ring takes bytes from the front. -/
theorem Buffered.pushToCard (h : s.Buffered) (n : Nat) : (s.pushToCard n).Buffered := by
  have hordered := h.ordered
  unfold Control.pushToCard
  split
  · exact h
  · constructor
    · dsimp only
      split
      · exact Nat.le_refl 0
      · unfold Window.advance Window.size
        dsimp only
        omega
    · intro hrun
      dsimp only
      split
      · exact Nat.zero_le _
      · exact h.inside hrun

/-! ## a frame handled -/

/-- The client that a slot holds is there. -/
def At (s : Control) (i : Nat) (c : Peer) : Prop := s.slots[i]? = some (some c)

theorem at_inj {i : Nat} {c d : Peer} (hc : s.At i c) (hd : s.At i d) : c = d :=
  Option.some.inj (Option.some.inj (hc.symm.trans hd))

/-- No client is there at first. -/
theorem not_at_opened (serveOwner : Nat) (cells : Nat → UInt8) (i : Nat) (c : Peer) :
    ¬ (opened serveOwner cells).At i c := by
  intro hc
  have hmem : some c ∈ List.replicate maxClients (none : Option Peer) := List.mem_of_getElem? hc
  cases (List.mem_replicate.mp hmem).2

theorem at_setSlot {i j : Nat} {c d : Peer} (h : (s.setSlot i (some d)).At j c) :
    (j = i ∧ c = d) ∨ (j ≠ i ∧ s.At j c) := by
  unfold At setSlot at h
  rw [List.getElem?_set] at h
  split at h
  · next heq =>
      split at h
      · cases h
        exact .inl ⟨heq.symm, rfl⟩
      · cases h
  · next hne => exact .inr ⟨fun heq => hne heq.symm, h⟩

theorem at_setSlot_none {i j : Nat} {c : Peer} (h : (s.setSlot i none).At j c) :
    j ≠ i ∧ s.At j c := by
  unfold At setSlot at h
  rw [List.getElem?_set] at h
  split at h
  · split at h
    · cases h
    · cases h
  · next hne => exact ⟨fun heq => hne heq.symm, h⟩

theorem at_setSlot_self {i : Nat} {c : Peer} (h : s.At i c) (d : Peer) :
    (s.setSlot i (some d)).At i d := by
  obtain ⟨hlt, -⟩ := List.getElem?_eq_some_iff.mp h
  unfold At setSlot
  rw [List.getElem?_set_self hlt]

/-- What handling a frame comes to: it is answered here, or goes to the card past
the session or with it, or is held, or its client is given up. -/
theorem handleFrame_cases {i : Nat} {c : Peer} (hc : s.At i c) (answered : Bool) (tag : UInt8)
    (body : List UInt8) :
    let e : Entry := ⟨c.id, tag, frameBytes c.dec body⟩
    let t := s.handleFrame i answered tag body
    ((Tag.ofByte tag = some .sensors ∨ Tag.ofByte tag = some .traffic) ∧
        (t = s ∨ t = s.setSlot i (some { c with dead := true }))) ∨
      (Tag.ofByte tag = some .stat ∧ ∃ q n,
        t = { (s.receive e).toCardAppend e with statQ := q, statQt := n }) ∨
      (Tag.ofByte tag ≠ some .stat ∧ c.id = s.holder ∧ t = (s.receive e).forwardFrame e) ∨
      (Tag.ofByte tag ≠ some .stat ∧ c.id ≠ s.holder ∧
        (pendCap < c.pending.length + (body.length + 5) ∧
            t = (s.receive e).setSlot i (some { c with dead := true }) ∨
          c.pending.length + (body.length + 5) ≤ pendCap ∧
            t = (s.receive e).setSlot i (some { c with pending := c.pending ++ e.bytes }))) := by
  unfold At at hc
  intro e t
  have ht : t = s.handleFrame i answered tag body := rfl
  unfold handleFrame markDead at ht
  rw [hc] at ht
  dsimp only at ht
  by_cases hlocal : Tag.ofByte tag = some .sensors ∨ Tag.ofByte tag = some .traffic
  · rw [if_pos hlocal] at ht
    by_cases hans : answered = true
    · rw [if_pos hans] at ht
      exact .inl ⟨hlocal, .inl ht⟩
    · rw [if_neg hans] at ht
      exact .inl ⟨hlocal, .inr ht⟩
  · rw [if_neg hlocal] at ht
    by_cases hstat : Tag.ofByte tag = some .stat
    · rw [if_pos hstat] at ht
      exact .inr (.inl ⟨hstat, _, _, ht⟩)
    · rw [if_neg hstat] at ht
      by_cases hholder : c.id = s.holder
      · have hmine : c.id = (s.receive e).holder := hholder
        rw [if_pos hmine] at ht
        exact .inr (.inr (.inl ⟨hstat, hholder, ht⟩))
      · have hnot : ¬ c.id = (s.receive e).holder := hholder
        rw [if_neg hnot] at ht
        refine .inr (.inr (.inr ⟨hstat, hholder, ?_⟩))
        split at ht
        · next hfull => exact .inl ⟨hfull, ht⟩
        · next hfits => exact .inr ⟨Nat.le_of_not_lt hfits, ht⟩

/-! ## pending frames forwarded -/

/-- The walk over a pending buffer forwards the frames it is made of. -/
theorem forwardPending_eq {owner : Nat} {es : List Entry}
    (hes : ∀ e ∈ es, e.Whole ∧ e.owner = owner) {n : Nat}
    (hn : (es.flatMap Entry.bytes).length ≤ n) :
    forwardPending owner n (es.flatMap Entry.bytes) s =
      es.foldl (fun t e => t.forwardFrame e) s := by
  induction es generalizing n s with
  | nil =>
      cases n with
      | zero => rfl
      | succ n => rfl
  | cons e es ih =>
      obtain ⟨⟨hwhole, rfl⟩, hrest⟩ := List.forall_mem_cons.mp hes
      obtain ⟨body, hlen, hcuts⟩ := hwhole.cutsFrame (es.flatMap Entry.bytes)
      rw [List.flatMap_cons] at hn ⊢
      rw [List.length_append] at hn
      obtain ⟨n, rfl⟩ : ∃ m, n = m + 1 := ⟨n - 1, by omega⟩
      have hne : e.bytes ++ es.flatMap Entry.bytes ≠ [] := by
        intro hnil
        have := congrArg List.length hnil
        rw [List.length_append, List.length_nil] at this
        omega
      unfold forwardPending
      rw [if_neg hne]
      dsimp only
      rw [hcuts.length, hcuts.tag_eq, ← hlen, List.take_left, List.drop_left, List.foldl_cons]
      have hmore : (es.flatMap Entry.bytes).length ≤ n := by omega
      exact ih hrest hmore

/-! ## the holder comes and goes -/

theorem at_leave {i j : Nat} {c : Peer} (h : (s.leave i).At j c) : j ≠ i ∧ s.At j c :=
  at_setSlot_none h

/-- What reaping a slot comes to. -/
theorem reapClient_cases (s : Control) (i : Nat) :
    (s.reapClient i = s ∧ ∀ c, s.At i c → c.dead = false) ∨
      ∃ c, s.At i c ∧ c.dead = true ∧
        ((c.id ≠ s.holder ∧ s.reapClient i = s.leave i) ∨
          (c.id = s.holder ∧
            s.reapClient i = (({ s with holder := 0 } : Control).abandon c.id).leave i)) := by
  unfold reapClient At
  split
  · next c hc =>
      by_cases hdead : c.dead = false
      · rw [if_pos hdead]
        refine .inl ⟨rfl, fun d hd => ?_⟩
        obtain rfl : c = d := at_inj hc hd
        exact hdead
      · rw [if_neg hdead]
        refine .inr ⟨c, hc, by simpa using hdead, ?_⟩
        by_cases hholder : c.id = s.holder
        · rw [if_pos hholder]
          exact .inr ⟨hholder, rfl⟩
        · rw [if_neg hholder]
          exact .inl ⟨hholder, rfl⟩
  · next hnone => exact .inl ⟨rfl, fun c hc => absurd hc (hnone c)⟩

/-- A client's session is closed with the frame it needs, if it is open. -/
theorem abandon_cases (s : Control) (owner : Nat) :
    (s.session = .execOpen ∧ s.abandon owner =
      { s.toCardAppend (tagFrame owner .stdinEof) with session := .execClosed }) ∨
    (s.session = .putOpen ∧ s.abandon owner =
      { s.toCardAppend (tagFrame owner .putClose) with session := .putClosed }) ∨
    (s.session ≠ .execOpen ∧ s.session ≠ .putOpen ∧ s.abandon owner = s) := by
  unfold abandon
  cases s.session with
  | execOpen => exact .inl ⟨rfl, rfl⟩
  | putOpen => exact .inr (.inl ⟨rfl, rfl⟩)
  | _ => exact .inr (.inr ⟨nofun, nofun, rfl⟩)

/-- The client that gets the card, if any does. -/
def Picks (s : Control) (i : Nat) (c : Peer) : Prop :=
  s.session = .none ∧ s.holder = 0 ∧ s.slots.findIdx? waits = some i ∧ s.At i c

/-- What giving the card away comes to. -/
theorem pickHolder_cases (s : Control) :
    (s.pickHolder = s ∧ ∀ i c, ¬ s.Picks i c) ∨
      ∃ i c, s.Picks i c ∧
        s.pickHolder = (forwardPending c.id c.pending.length c.pending
          { s with holder := c.id, tenure := [] }).setSlot i (some { c with pending := [] }) := by
  unfold pickHolder Picks
  by_cases hbusy : s.session ≠ .none ∨ s.holder ≠ 0
  · rw [if_pos hbusy]
    refine .inl ⟨rfl, fun i c ⟨hsession, hholder, _, _⟩ => ?_⟩
    obtain hs | hh := hbusy
    · exact hs hsession
    · exact hh hholder
  · rw [if_neg hbusy]
    rw [not_or, not_not, not_not] at hbusy
    cases hfind : s.slots.findIdx? waits with
    | none => exact .inl ⟨rfl, fun i c ⟨_, _, hi, _⟩ => by cases hi⟩
    | some i =>
        dsimp only
        split
        · next c hc => exact .inr ⟨i, c, ⟨hbusy.1, hbusy.2, rfl, hc⟩, rfl⟩
        · next hnone =>
            refine .inl ⟨rfl, fun j c ⟨_, _, hj, hc⟩ => ?_⟩
            cases hj
            exact hnone c hc

/-! ## the agent's part -/

/-- All that the agent changes. -/
def Agents (s t : Control) : Prop :=
  ∃ a r n, t = { s with agent := a, fromCard := r, taken := n }

theorem agents_takeFrame (s : Control) (ok : Bool) (e : Entry) : s.Agents (s.takeFrame ok e) := by
  have hstart : ∀ task, s.Agents (s.startTask task e.owner ok) := by
    intro task
    cases ok with
    | true => exact ⟨_, _, _, rfl⟩
    | false => exact ⟨_, _, _, rfl⟩
  unfold takeFrame
  split
  · split
    · exact hstart .exec
    · exact hstart .put
    · exact hstart .get
    all_goals exact ⟨_, _, _, rfl⟩
  · split
    · exact ⟨_, _, _, rfl⟩
    · split
      · exact ⟨_, _, _, rfl⟩
      · split
        · split
          · exact ⟨_, _, _, rfl⟩
          · exact ⟨_, _, _, rfl⟩
        · split
          · exact ⟨_, _, _, rfl⟩
          · exact ⟨_, _, _, rfl⟩

theorem agents_agentTake (s : Control) (ok : Bool) : s.Agents (s.agentTake ok) := by
  unfold agentTake
  split
  · exact ⟨_, _, _, rfl⟩
  · next e _ _ =>
      split
      · obtain ⟨a, r, n, heq⟩ := agents_takeFrame { s with taken := s.taken + 1 } ok e
        rw [heq]
        exact ⟨_, _, _, rfl⟩
      · exact ⟨_, _, _, rfl⟩

theorem agents_agentOutput (s : Control) (tag : Tag) : s.Agents (s.agentOutput tag) := by
  unfold agentOutput
  split
  · split
    · exact ⟨_, _, _, rfl⟩
    · split
      · exact ⟨_, _, _, rfl⟩
      · exact ⟨_, _, _, rfl⟩
  · split
    · exact ⟨_, _, _, rfl⟩
    · split
      · exact ⟨_, _, _, rfl⟩
      · exact ⟨_, _, _, rfl⟩
  · exact ⟨_, _, _, rfl⟩

end

end Control

end Phi.Serve
