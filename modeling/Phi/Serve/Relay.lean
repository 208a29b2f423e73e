import Mathlib.Algebra.GroupWithZero.Nat
import Mathlib.Data.List.Basic
import Phi.Serve.Tag

/-!
# Phi.Serve.Relay

The control socket's relay (`serve.S`) between local clients and the card.

Up to 16 clients share the card's agent, one session at a time.  The daemon
keeps one holder and one session kind: frames of the holder go to the card,
those of other clients wait, and what the card sends goes to the holder until a
frame ends the session.  The bytes on their way, in `to_card`, the rings and the
agent's buffer, are two queues of frames here.

Each frame carries the client it is from, and each answer the client it is for;
the program keeps neither.
-/

namespace Phi.Serve

/-! ## frames -/

/-- A client's frame: its tag and the length of its body. -/
structure Frame where
  tag : Tag
  len : Nat
deriving DecidableEq, Repr

/-- A frame on its way to the card, with the client it is from. -/
structure Sent where
  tag : Tag
  owner : Nat
deriving DecidableEq, Repr

/-- A frame on its way from the card, with the client it is for. -/
structure Reply where
  tag : Tag
  owner : Nat
deriving DecidableEq, Repr

/-! ## the daemon's state -/

def maxClients : Nat := 16
def maxFrame : Nat := 1048576
def pendCap : Nat := 2 * maxFrame
def statSlots : Nat := 64

structure Client where
  id : Nat
  dead : Bool
  pending : List Frame
deriving DecidableEq, Repr

/-- Bytes in the client's pending buffer. -/
def Client.pendingBytes (c : Client) : Nat := (c.pending.map fun f => f.len + 5).sum

inductive Session where
  | none
  | execOpen
  | execClosed
  | putOpen
  | putClosed
  | other
deriving DecidableEq, Repr

/-- What the agent is busy with. -/
inductive Task where
  | exec
  | put
  | get
deriving DecidableEq, Repr

/-- A frame of the card as `deliver` disposed of it: whom it was for, who got
it, and whether the one it was for was still there. -/
structure Delivery where
  tag : Tag
  owner : Nat
  recipient : Option Nat
  present : Bool
deriving DecidableEq, Repr

structure Relay where
  serveOwner : Nat
  slots : List (Option Client)
  nclients : Nat
  nextId : Nat
  holder : Nat
  session : Session
  statQ : Nat → Nat
  statQh : Nat
  statQt : Nat
  toCard : List Sent
  agent : Option (Task × Nat)
  fromCard : List Reply
  delivered : List Delivery

/-- The daemon before its first client. -/
def Relay.opened (serveOwner : Nat) : Relay where
  serveOwner := serveOwner
  slots := List.replicate maxClients none
  nclients := 0
  nextId := 0
  holder := 0
  session := .none
  statQ := fun _ => 0
  statQh := 0
  statQt := 0
  toCard := []
  agent := none
  fromCard := []
  delivered := []

/-! ## clients -/

def Relay.setSlot (i : Nat) (c : Option Client) (s : Relay) : Relay :=
  { s with slots := s.slots.set i c }

def hasId (id : Nat) : Option Client → Bool
  | some c => c.id = id
  | none => false

/-- `client_by_id`. -/
def Relay.clientById (id : Nat) (s : Relay) : Option Nat := s.slots.findIdx? (hasId id)

def Relay.markDead (i : Nat) (s : Relay) : Relay :=
  match s.slots[i]? with
  | some (some c) => s.setSlot i (some { c with dead := true })
  | _ => s

/-- One connection of `accept_clients`: the owner's or root's, refused past the
last slot. -/
def Relay.acceptClient (uid : Nat) (s : Relay) : Relay :=
  if uid ≠ 0 ∧ uid ≠ s.serveOwner then s
  else if maxClients ≤ s.nclients then s
  else match s.slots.findIdx? Option.isNone with
    | none => s
    | some i =>
        { s with
          nextId := s.nextId + 1
          slots := s.slots.set i (some ⟨s.nextId + 1, false, []⟩)
          nclients := s.nclients + 1 }

/-! ## clients to the card -/

/-- `frame_to_card`. -/
def Relay.frameToCard (owner : Nat) (tag : Tag) (s : Relay) : Relay :=
  { s with toCard := s.toCard ++ [⟨tag, owner⟩] }

/-- `forward_frame`: a session frame to the card, the session following it. -/
def Relay.forwardFrame (owner : Nat) (tag : Tag) (s : Relay) : Relay :=
  let session := match tag with
    | .exec => .execOpen
    | .stdinEof => if s.session = .execOpen then .execClosed else s.session
    | .putOpen => .putOpen
    | .putClose => if s.session = .putOpen then .putClosed else s.session
    | .get => .other
    | .ping => .other
    | _ => s.session
  ({ s with session := session } : Relay).frameToCard owner tag

/-- `handle_frame` for the client in slot `i`: answered here, sent past the
session with the requester remembered, forwarded, or held. -/
def Relay.handleFrame (i : Nat) (s : Relay) (f : Frame) : Relay :=
  match s.slots[i]? with
  | some (some c) =>
      if f.tag = .sensors ∨ f.tag = .traffic then s
      else if f.tag = .stat then
        { s.frameToCard c.id .stat with
          statQ := fun k => if k = s.statQt % statSlots then c.id else s.statQ k
          statQt := s.statQt + 1 }
      else if c.id = s.holder then s.forwardFrame c.id f.tag
      else if pendCap < c.pendingBytes + (f.len + 5) then
        s.setSlot i (some { c with dead := true })
      else s.setSlot i (some { c with pending := c.pending ++ [f] })
  | _ => s

/-- `client_wants_read`, as far as the session decides it. -/
def Relay.wantsRead (c : Client) (s : Relay) : Bool :=
  c.dead = false ∧ (c.pending = [] ∨ c.id = s.holder)

/-- One client's turn in `clients_to_card`: the frames of one read, then its
end or a frame that does not decode. -/
def Relay.clientToCard (i : Nat) (frames : List Frame) (bad : Bool) (s : Relay) : Relay :=
  match s.slots[i]? with
  | some (some c) =>
      if s.wantsRead c then
        let s := frames.foldl (Relay.handleFrame i) s
        if bad then s.markDead i else s
      else s
  | _ => s

/-- One slot's turn in `reap_clients`: a dead holder gives up the card, and
what it left open is closed. -/
def Relay.reapClient (i : Nat) (s : Relay) : Relay :=
  match s.slots[i]? with
  | some (some c) =>
      if c.dead = false then s
      else
        let s :=
          if c.id = s.holder then
            let s := { s with holder := 0 }
            match s.session with
            | .execOpen =>
                { s.frameToCard c.id .stdinEof with session := .execClosed }
            | .putOpen => { s.frameToCard c.id .putClose with session := .putClosed }
            | _ => s
          else s
        { s.setSlot i none with nclients := s.nclients - 1 }
  | _ => s

/-- A client with frames waiting. -/
def waits : Option Client → Bool
  | some c => c.pending ≠ []
  | none => false

/-- `pick_holder`: with no session, the first client with frames waiting gets
the card. -/
def Relay.pickHolder (s : Relay) : Relay :=
  if s.session ≠ .none ∨ s.holder ≠ 0 then s
  else match s.slots.findIdx? waits with
    | none => s
    | some i => match s.slots[i]? with
      | some (some c) =>
          (c.pending.foldl (fun (s : Relay) f => s.forwardFrame c.id f.tag)
            { s with holder := c.id }).setSlot i (some { c with pending := [] })
      | _ => s

/-! ## the card to clients -/

/-- A frame that ends the session. -/
def Tag.terminal (t : Tag) : Bool := t = .exit ∨ t = .error ∨ t = .getEnd ∨ t = .pong

def Relay.record (r : Reply) (recipient : Option Nat) (s : Relay) : Relay :=
  { s with
    delivered := s.delivered ++ [⟨r.tag, r.owner, recipient, (s.clientById r.owner).isSome⟩] }

/-- `client_send_card_frame` to the client with this id, if there is one; a
failed write marks it dead. -/
def Relay.sendTo (id : Nat) (r : Reply) (ok : Bool) (s : Relay) : Relay :=
  match s.clientById id with
  | none => s.record r none
  | some i => let s := s.record r (some id); if ok then s else s.markDead i

/-- `deliver`. -/
def Relay.deliver (ok : Bool) (s : Relay) : Relay :=
  match s.fromCard with
  | [] => s
  | r :: rest =>
      let s := { s with fromCard := rest }
      if r.tag = .statReply then
        if s.statQt ≤ s.statQh then s.record r none
        else
          let id := s.statQ (s.statQh % statSlots)
          ({ s with statQh := s.statQh + 1 } : Relay).sendTo id r ok
      else
        let s := if s.holder = 0 then s.record r none else s.sendTo s.holder r ok
        if r.tag.terminal then { s with session := .none, holder := 0 } else s

/-! ## the card's agent -/

def Relay.emit (tag : Tag) (owner : Nat) (s : Relay) : Relay :=
  { s with fromCard := s.fromCard ++ [⟨tag, owner⟩] }

/-- A session starts, or fails at once. -/
def Relay.startTask (task : Task) (owner : Nat) (ok : Bool) (s : Relay) : Relay :=
  if ok then { s with agent := some (task, owner) } else s.emit .error owner

/-- The agent's frame loop on the next frame: `main_loop` outside a session,
`ex_frame`, `run_put` or `run_get` inside; `ok` is how the files and processes
it touches fare. -/
def Relay.agentTake (ok : Bool) (s : Relay) : Relay :=
  match s.toCard with
  | [] => s
  | f :: rest =>
      let s := { s with toCard := rest }
      match s.agent with
      | none => match f.tag with
          | .exec => s.startTask .exec f.owner ok
          | .putOpen => s.startTask .put f.owner ok
          | .get => s.startTask .get f.owner ok
          | .ping => s.emit .pong f.owner
          | .stat => s.emit .statReply f.owner
          | .stdin => s
          | .stdinEof => s
          | .putData => s
          | .putClose => s
          | _ => s.emit .error f.owner
      | some (task, owner) =>
          if f.tag = .stat then s.emit .statReply f.owner
          else if task = .put ∧ f.tag = .putData then
            if ok then s else ({ s with agent := none } : Relay).emit .error owner
          else if task = .put ∧ f.tag = .putClose then
            ({ s with agent := none } : Relay).emit (if ok then .exit else .error) owner
          else s

/-- What a running session sends of itself: a command's output and exit, a
file's pieces and end. -/
def Relay.agentOutput (tag : Tag) (s : Relay) : Relay :=
  match s.agent with
  | some (.exec, owner) =>
      if tag = .stdout ∨ tag = .stderr then s.emit tag owner
      else if tag = .exit then ({ s with agent := none } : Relay).emit tag owner
      else s
  | some (.get, owner) =>
      if tag = .getData then s.emit tag owner
      else if tag = .getEnd ∨ tag = .error then ({ s with agent := none } : Relay).emit tag owner
      else s
  | _ => s

/-! ## runs -/

/-- The daemon's routines, one connection, client, slot or frame at a time, and
the agent's.  `serve_step` goes through the daemon's in this order; here they
come in any order. -/
inductive Event where
  | accept (uid : Nat)
  | read (i : Nat) (frames : List Frame) (bad : Bool)
  | reap (i : Nat)
  | pick
  | deliver (ok : Bool)
  | agentTake (ok : Bool)
  | agentOutput (tag : Tag)
deriving DecidableEq, Repr

def Relay.step (s : Relay) : Event → Relay
  | .accept uid => s.acceptClient uid
  | .read i frames bad => s.clientToCard i frames bad
  | .reap i => s.reapClient i
  | .pick => s.pickHolder
  | .deliver ok => s.deliver ok
  | .agentTake ok => s.agentTake ok
  | .agentOutput tag => s.agentOutput tag

end Phi.Serve
