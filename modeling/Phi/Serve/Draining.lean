import Phi.Lib.Run
import Phi.Serve.Control

/-!
# Phi.Serve.Draining

The daemon's decoders between its passes (`clients_to_card` and
`card_to_clients` of `serve.S`).

A read is followed by a drain: every whole frame is cut off, whoever the frame
makes an enemy of, and only a rejected one ends the drain early.  What is left
then is less than a frame, and the buffer is a frame and a read long, so there
is always room for the next read.
-/

namespace Phi.Serve

open Rpc

/-! ## the daemon -/

/-- The control socket's side, and the decoder of what the card sends. -/
structure Daemon where
  control : Control
  card : Dec

namespace Daemon

/-- The daemon before its first client. -/
def opened (serveOwner : Nat) (cells buffer : Nat → UInt8) : Daemon :=
  ⟨.opened serveOwner cells, .init buffer⟩

/-- `deliver`, of the frame in the card's decoder. -/
def deliverFrame (tag : UInt8) (ok : Bool) (s : Control) : Control :=
  match Tag.ofByte tag with
  | some t => ({ s with fromCard := ⟨t, s.holder⟩ :: s.fromCard } : Control).deliver ok
  | none => s

/-- The loop of `card_to_clients` over the frames; a rejected one makes it forget
the rest. -/
def deliverFrames (ok : Nat → Bool) : Nat → Daemon → Daemon
  | 0, s => s
  | n + 1, s => match s.card.next with
      | none => s
      | some (.frame tag _, d) => deliverFrames ok n ⟨deliverFrame tag (ok n) s.control, d⟩
      | some (_, d) => { s with card := { d with win := d.win.clear } }

/-- `card_to_clients`, with the bytes that are in the ring. -/
def cardToClients (ok : Nat → Bool) (avail : List UInt8) (s : Daemon) : Daemon :=
  if avail = [] then s
  else
    let room := s.card.room
    let popped := avail.take (min (room.cap - room.win.tail) readChunk)
    if popped = [] then { s with card := room }
    else
      let d := s.card.push popped
      deliverFrames ok d.win.size { s with card := d }

end Daemon

/-- The routines of a pass, one connection, client or slot at a time; here they
come in any order, and the card may send anything. -/
inductive Turn where
  | accept (uid : Nat)
  | client (i : Nat) (answered : Nat → Bool) (chunk : Option (List UInt8))
  | reap (i : Nat)
  | pick
  | push (n : Nat)
  | card (ok : Nat → Bool) (avail : List UInt8)

def Daemon.step (s : Daemon) : Turn → Daemon
  | .accept uid => { s with control := s.control.acceptClient uid }
  | .client i answered chunk => { s with control := s.control.clientToCard i answered chunk }
  | .reap i => { s with control := s.control.reapClient i }
  | .pick => { s with control := s.control.pickHolder }
  | .push n => { s with control := s.control.pushToCard n }
  | .card ok avail => s.cardToClients ok avail

/-! ## a decoder -/

/-- Turns of `dec_next`. -/
inductive Drains : Dec → Dec → Prop where
  | stay (d : Dec) : Drains d d
  | next {d e f : Dec} {o : Outcome} : d.next = some (o, e) → Drains e f → Drains d f

/-- The decoder holds less than a frame, a read fits, and what is appended into
its space stays in the buffer, as does all that is cut off then. -/
structure Roomy (d : Dec) : Prop where
  small : d.win.size < 4 + maxFrame
  space : readChunk ≤ d.space
  inside : ∀ chunk e, chunk.length ≤ d.space → Drains (d.push chunk) e →
    e.win.head ≤ e.win.tail ∧ e.win.tail ≤ e.cap ∧ e.cap = decCap

/-- The window lies in the buffer. -/
structure Inside (d : Dec) : Prop where
  cap : d.cap = decCap
  ordered : d.win.head ≤ d.win.tail
  within : d.win.tail ≤ d.cap

theorem inside_init (cells : Nat → UInt8) : Inside (.init cells) :=
  ⟨rfl, Nat.le_refl 0, Nat.zero_le _⟩

theorem Inside.space_eq {d : Dec} (h : Inside d) : d.space = d.cap - d.win.size := by
  have hordered := h.ordered
  have hwithin := h.within
  unfold Dec.space Window.size
  omega

theorem Inside.clear {d : Dec} (h : Inside d) : Inside { d with win := d.win.clear } :=
  ⟨h.cap, Nat.le_refl 0, Nat.zero_le _⟩

theorem Inside.next {d e : Dec} {o : Outcome} (h : Inside d) (hnext : d.next = some (o, e)) :
    Inside e := by
  have hordered := decNext_ordered h.ordered hnext
  rw [Dec.next_eq] at hnext
  obtain ⟨⟨o', w⟩, hturn, heq⟩ := Option.map_eq_some_iff.mp hnext
  cases heq
  exact ⟨h.cap, hordered, Nat.le_trans (rxTurn_tail hturn) h.within⟩

theorem Inside.drains {d e : Dec} (h : Inside d) (hdrains : Drains d e) : Inside e := by
  induction hdrains with
  | stay d => exact h
  | next hnext _ ih => exact ih (h.next hnext)

theorem Inside.room {d : Dec} (h : Inside d) : Inside d.room := by
  unfold Dec.room
  split
  · exact h
  · refine ⟨h.cap, Nat.zero_le _, ?_⟩
    show d.win.tail - d.win.head ≤ d.cap
    exact Nat.le_trans (Nat.sub_le _ _) h.within

/-- `dec_room` says what `dec_space` does. -/
theorem Inside.room_left {d : Dec} (h : Inside d) :
    d.room.cap - d.room.win.tail = d.space ∧ d.room.win.size = d.win.size := by
  have hordered := h.ordered
  rw [h.space_eq]
  unfold Dec.room
  split
  · next hhead =>
      refine ⟨?_, rfl⟩
      unfold Window.size
      rw [hhead, Nat.sub_zero]
  · exact ⟨rfl, rfl⟩

/-- `dec_push` with the room checked. -/
theorem Inside.push {d : Dec} (h : Inside d) {chunk : List UInt8} (hc : chunk.length ≤ d.space) :
    Inside (d.push chunk) := by
  have htail := Dec.push_tail h.ordered chunk
  have hcap : (d.push chunk).cap = d.cap := by
    unfold Dec.push Dec.room
    split
    · rfl
    · rfl
  refine ⟨hcap.trans h.cap, (Dec.push_content h.ordered chunk).2, ?_⟩
  have hsize : d.win.size ≤ d.cap := Nat.le_trans (Nat.sub_le _ _) h.within
  rw [htail, hcap]
  rw [h.space_eq] at hc
  omega

/-- A decoder with less than a frame has room. -/
theorem Inside.roomy {d : Dec} (h : Inside d) (hsmall : d.win.size < 4 + maxFrame) :
    Roomy d where
  small := hsmall
  space := by
    rw [h.space_eq, h.cap]
    have hsum : decCap = 4 + maxFrame + readChunk := rfl
    omega
  inside chunk e hc hdrains := by
    have he := (h.push hc).drains hdrains
    exact ⟨he.ordered, he.within, he.cap⟩

theorem cut_of_next {d e : Dec} {o : Outcome} (h : d.next = some (o, e)) :
    cut d.win.content = some (o, e.win.content) := by
  rw [Dec.next_eq] at h
  obtain ⟨⟨o', w⟩, hturn, heq⟩ := Option.map_eq_some_iff.mp h
  cases heq
  rw [← rxTurn_content, hturn]
  rfl

theorem next_eq_none_iff {d : Dec} : d.next = none ↔ cut d.win.content = none := by
  rw [Dec.next_eq, Option.map_eq_none_iff, ← rxTurn_content, Option.map_eq_none_iff]

theorem next_shrinks {d e : Dec} {o : Outcome} (h : d.next = some (o, e)) :
    e.win.size < d.win.size := by
  have hless := cut_shrinks (cut_of_next h)
  rwa [Window.length_content, Window.length_content] at hless

/-- The first frame that new bytes complete takes all the old ones with it. -/
theorem length_of_cut_append {bs chunk rest : List UInt8} {o : Outcome} (hnone : cut bs = none)
    (h : cut (bs ++ chunk) = some (o, rest)) : rest.length ≤ chunk.length := by
  unfold cut at h hnone
  dsimp only at h hnone
  have hlen : (bs ++ chunk).length = bs.length + chunk.length := List.length_append
  split at h
  · cases h
  · split at h
    · cases h
      exact Nat.zero_le _
    · next hgood =>
        split at h
        · cases h
        · cases h
          rw [List.length_drop]
          split at hnone
          · omega
          · next h4 =>
              have htake : (bs ++ chunk).take 4 = bs.take 4 :=
                List.take_append_of_le_length (by omega)
              rw [htake] at hgood ⊢
              rw [if_neg hgood] at hnone
              split at hnone
              · omega
              · cases hnone

/-- Between two reads: nothing whole is left. -/
structure Settled (d : Dec) : Prop extends Inside d where
  none : d.next = none

/-- Between two turns of the drain: whatever comes off next leaves less than a
frame. -/
structure Draining (d : Dec) : Prop extends Inside d where
  small : ∀ o e, d.next = some (o, e) → e.win.size < 4 + maxFrame

theorem Settled.small {d : Dec} (h : Settled d) : d.win.size < 4 + maxFrame :=
  Dec.size_lt_of_next_none h.none

theorem Settled.push {d : Dec} (h : Settled d) {chunk : List UInt8}
    (hc : chunk.length ≤ readChunk) : Draining (d.push chunk) where
  toInside := h.toInside.push (Nat.le_trans hc (h.toInside.roomy h.small).space)
  small o e hnext := by
    have hcut := cut_of_next hnext
    rw [(Dec.push_content h.ordered chunk).1] at hcut
    have hle := length_of_cut_append (next_eq_none_iff.1 h.none) hcut
    rw [Window.length_content] at hle
    have hread : readChunk < 4 + maxFrame := by decide
    omega

theorem Draining.next {d e : Dec} {o : Outcome} (h : Draining d) (hnext : d.next = some (o, e)) :
    Draining e where
  toInside := h.toInside.next hnext
  small _ _ hf := Nat.lt_trans (next_shrinks hf) (h.small o e hnext)

theorem next_of_empty {d : Dec} (h : d.win.size = 0) : d.next = none := by
  unfold Dec.next
  rw [if_pos (by omega)]

/-! ## the clients' decoders -/

namespace Control

variable {s t u : Control}

/-- Every client's decoder is as it was, and nobody came back to life. -/
def SameDecs (s t : Control) : Prop :=
  ∀ i c, t.At i c → ∃ d, s.At i d ∧ c.dec = d.dec ∧ (c.dead = false → d.dead = false)

theorem SameDecs.trans (h : s.SameDecs t) (h' : t.SameDecs u) : s.SameDecs u := by
  intro i c hc
  obtain ⟨d, hd, hdec, hlive⟩ := h' i c hc
  obtain ⟨e, he, hdec', hlive'⟩ := h i d hd
  exact ⟨e, he, hdec.trans hdec', hlive' ∘ hlive⟩

theorem sameDecs_of_slots (h : t.slots = s.slots) : s.SameDecs t := by
  intro i c hc
  refine ⟨c, ?_, rfl, id⟩
  rwa [At, h] at hc

theorem sameDecs_setSlot {i : Nat} {c d : Peer} (hc : s.At i c) (hdec : d.dec = c.dec)
    (hlive : d.dead = false → c.dead = false) : s.SameDecs (s.setSlot i (some d)) := by
  intro j x hx
  obtain ⟨rfl, rfl⟩ | ⟨-, hx⟩ := at_setSlot hx
  · exact ⟨c, hc, hdec, hlive⟩
  · exact ⟨x, hx, rfl, id⟩

theorem sameDecs_markDead (s : Control) (i : Nat) : s.SameDecs (s.markDead i) := by
  unfold markDead
  split
  · next c hc => exact sameDecs_setSlot hc rfl nofun
  · exact sameDecs_of_slots rfl

theorem sameDecs_leave (s : Control) (i : Nat) : s.SameDecs (s.leave i) := by
  intro j c hc
  exact ⟨c, (at_leave hc).2, rfl, id⟩

/-- Whatever a frame leads to. -/
theorem sameDecs_handleFrame {i : Nat} {c : Peer} (hc : s.At i c) (answered : Bool) (tag : UInt8)
    (body : List UInt8) : s.SameDecs (s.handleFrame i answered tag body) := by
  obtain ⟨-, ht | ht⟩ | ⟨-, q, n, ht⟩ | ⟨-, -, ht⟩ | ⟨-, -, ⟨-, ht⟩ | ⟨-, ht⟩⟩ :=
    handleFrame_cases hc answered tag body
  · rw [ht]
    exact sameDecs_of_slots rfl
  · rw [ht]
    exact sameDecs_setSlot hc rfl nofun
  · rw [ht]
    exact sameDecs_of_slots rfl
  · rw [ht]
    exact sameDecs_of_slots rfl
  · rw [ht]
    exact (sameDecs_of_slots rfl).trans (sameDecs_setSlot (s := s.receive _) hc rfl nofun)
  · rw [ht]
    exact (sameDecs_of_slots rfl).trans (sameDecs_setSlot (s := s.receive _) hc rfl id)

theorem sameDecs_abandon (s : Control) (owner : Nat) : s.SameDecs (s.abandon owner) := by
  obtain ⟨-, ht⟩ | ⟨-, ht⟩ | ⟨-, -, ht⟩ := abandon_cases s owner
  all_goals
    rw [ht]
    exact sameDecs_of_slots rfl

theorem sameDecs_reapClient (s : Control) (i : Nat) : s.SameDecs (s.reapClient i) := by
  obtain ⟨ht, -⟩ | ⟨c, -, -, ⟨-, ht⟩ | ⟨-, ht⟩⟩ := reapClient_cases s i
  · rw [ht]
    exact sameDecs_of_slots rfl
  · rw [ht]
    exact sameDecs_leave s i
  · rw [ht]
    have hfreed : s.SameDecs { s with holder := 0 } := sameDecs_of_slots rfl
    exact (hfreed.trans (sameDecs_abandon _ c.id)).trans (sameDecs_leave _ i)

theorem slots_forwardPending (owner n : Nat) (bs : List UInt8) (s : Control) :
    (forwardPending owner n bs s).slots = s.slots := by
  induction n generalizing bs s with
  | zero => rfl
  | succ n ih =>
      unfold forwardPending
      split
      · rfl
      · exact ih _ _

theorem sameDecs_pickHolder (s : Control) : s.SameDecs s.pickHolder := by
  obtain ⟨ht, -⟩ | ⟨i, c, ⟨-, -, -, hc⟩, ht⟩ := pickHolder_cases s
  · rw [ht]
    exact sameDecs_of_slots rfl
  · rw [ht]
    have hslots := slots_forwardPending c.id c.pending.length c.pending
      { s with holder := c.id, tenure := [] }
    have hself : (forwardPending c.id c.pending.length c.pending
        { s with holder := c.id, tenure := [] }).At i c := (congrArg (·[i]?) hslots).trans hc
    exact (sameDecs_of_slots hslots).trans (sameDecs_setSlot hself rfl id)

theorem sameDecs_sendTo (id : Nat) (ok : Bool) (s : Control) : s.SameDecs (s.sendTo id ok) := by
  unfold sendTo
  split
  · exact sameDecs_of_slots rfl
  · split
    · exact sameDecs_of_slots rfl
    · exact sameDecs_markDead s _

theorem sameDecs_deliver (s : Control) (ok : Bool) : s.SameDecs (s.deliver ok) := by
  unfold deliver
  split
  · exact sameDecs_of_slots rfl
  · next r rest _ =>
      have htaken : s.SameDecs { s with fromCard := rest } := sameDecs_of_slots rfl
      dsimp only
      split
      · split
        · exact htaken
        · exact (sameDecs_of_slots rfl).trans (sameDecs_sendTo _ ok _)
      · have hsent : s.SameDecs (if s.holder = 0 then { s with fromCard := rest }
            else ({ s with fromCard := rest } : Control).sendTo s.holder ok) := by
          split
          · exact htaken
          · exact htaken.trans (sameDecs_sendTo _ ok _)
        split
        · exact hsent.trans (sameDecs_of_slots rfl)
        · exact hsent

theorem sameDecs_pushToCard (n : Nat) (s : Control) : s.SameDecs (s.pushToCard n) := by
  unfold pushToCard
  split
  · exact sameDecs_of_slots rfl
  · exact sameDecs_of_slots rfl

/-! ## a client's drain -/

/-- A client between two passes: a live one has nothing whole left, and one that
was given up in the middle of a drain has less than a frame. -/
structure Ready (c : Peer) : Prop where
  inside : Inside c.dec
  small : c.dec.win.size < 4 + maxFrame
  live : c.dead = false → c.dec.next = none

theorem Ready.settled {c : Peer} (h : Ready c) (hlive : c.dead = false) : Settled c.dec :=
  ⟨h.inside, h.live hlive⟩

/-- Another client with the same decoder. -/
theorem Ready.moved {c d : Peer} (h : Ready d) (hdec : c.dec = d.dec)
    (hlive : c.dead = false → d.dead = false) : Ready c where
  inside := hdec ▸ h.inside
  small := hdec ▸ h.small
  live := hdec ▸ h.live ∘ hlive

/-- All are. -/
def AllReady (s : Control) : Prop := ∀ i c, s.At i c → Ready c

theorem AllReady.same (h : s.AllReady) (hst : s.SameDecs t) : t.AllReady := by
  intro i c hc
  obtain ⟨d, hd, hdec, hlive⟩ := hst i c hc
  exact (h i d hd).moved hdec hlive

theorem AllReady.fill {i : Nat} {c : Peer} (h : ∀ j d, s.At j d → j ≠ i → Ready d)
    (hc : Ready c) : (s.setSlot i (some c)).AllReady := by
  intro j d hd
  obtain ⟨-, rfl⟩ | ⟨hj, hd⟩ := at_setSlot hd
  · exact hc
  · exact h j d hd hj

/-- **The drain reaches its end**: it stops at a decoder without a whole frame, or
at a rejected one, which is the client's last. -/
theorem allReady_handleFrames {i : Nat} {answered : Nat → Bool} {n : Nat}
    (hothers : ∀ j d, s.At j d → j ≠ i → Ready d)
    (hdec : ∀ c, s.At i c → Draining c.dec ∧ c.dec.win.size ≤ n) :
    (s.handleFrames i answered n).AllReady := by
  have hstop : ∀ t : Control, (∀ j d, t.At j d → j ≠ i → Ready d) →
      (∀ c, t.At i c → Inside c.dec ∧ c.dec.next = none) → t.AllReady := by
    intro t hrest hnone j d hd
    by_cases hj : j = i
    · subst hj
      obtain ⟨hinside, hnext⟩ := hnone d hd
      exact ⟨hinside, Dec.size_lt_of_next_none hnext, fun _ => hnext⟩
    · exact hrest j d hd hj
  induction n generalizing s with
  | zero =>
      refine hstop s hothers fun c hc => ?_
      obtain ⟨hdraining, hempty⟩ := hdec c hc
      exact ⟨hdraining.toInside, next_of_empty (Nat.le_zero.1 hempty)⟩
  | succ n ih =>
      unfold handleFrames
      split
      · next c hc =>
          obtain ⟨hdraining, hn⟩ := hdec c hc
          split
          · next hnone =>
              refine hstop s hothers fun d hd => ?_
              obtain rfl : d = c := at_inj hd hc
              exact ⟨hdraining.toInside, hnone⟩
          · next tag body d hnext =>
              have hset := at_setSlot_self hc { c with dec := d }
              have hsame := sameDecs_handleFrame hset (answered n) tag body
              apply ih
              · intro j x hx hj
                obtain ⟨y, hy, hxy, hlive⟩ := hsame j x hx
                obtain ⟨hji, -⟩ | ⟨-, hy⟩ := at_setSlot hy
                · exact absurd hji hj
                · have hready := hothers j y hy hj
                  exact hready.moved hxy hlive
              · intro x hx
                obtain ⟨y, hy, hxy, -⟩ := hsame i x hx
                obtain rfl := at_inj hy hset
                have hless := next_shrinks hnext
                rw [hxy]
                exact ⟨hdraining.next hnext, Nat.le_of_lt_succ (Nat.lt_of_lt_of_le hless hn)⟩
          · next o d _ hnext =>
              exact AllReady.fill hothers
                ⟨(hdraining.next hnext).toInside, hdraining.small o d hnext, nofun⟩
      · next hempty => exact hstop s hothers fun c hc => absurd hc (hempty c)

theorem AllReady.clientToCard (h : s.AllReady) (i : Nat) (answered : Nat → Bool)
    (chunk : Option (List UInt8)) : (s.clientToCard i answered chunk).AllReady := by
  unfold Control.clientToCard
  split
  · next c hc =>
      split
      · next hwants =>
          cases chunk with
          | none => exact h.same (sameDecs_markDead s i)
          | some bytes =>
              unfold wantsRead at hwants
              rw [decide_eq_true_eq] at hwants
              have hsettled := (h i c hc).settled hwants.1
              have htaken : (bytes.take readChunk).length ≤ readChunk := List.length_take_le _ _
              apply allReady_handleFrames
              · intro j d hd hj
                obtain ⟨hji, -⟩ | ⟨-, hd⟩ := at_setSlot hd
                · exact absurd hji hj
                · exact h j d hd
              · intro d hd
                obtain rfl := at_inj hd (at_setSlot_self hc _)
                exact ⟨hsettled.push htaken, Nat.le_refl _⟩
      · exact h
  · exact h

/-- A new client's decoder is empty. -/
theorem AllReady.acceptClient (h : s.AllReady) (uid : Nat) : (s.acceptClient uid).AllReady := by
  unfold Control.acceptClient
  split
  · exact h
  · split
    · exact h
    · split
      · exact h
      · next i _ =>
          have hnew : Ready ⟨s.nextId + 1, false, [], .init fun _ => 0⟩ :=
            ⟨inside_init _, Nat.zero_lt_succ _, fun _ => next_of_empty rfl⟩
          have hfilled := AllReady.fill (i := i) (fun j d hd _ => h j d hd) hnew
          exact hfilled.same (sameDecs_of_slots rfl)

theorem allReady_opened (serveOwner : Nat) (cells : Nat → UInt8) :
    (opened serveOwner cells).AllReady :=
  fun i c hc => absurd hc (not_at_opened serveOwner cells i c)

end Control

/-! ## the card's drain -/

namespace Daemon

/-- Every decoder of the daemon is between two reads. -/
structure Ready (s : Daemon) : Prop where
  clients : s.control.AllReady
  card : Settled s.card

theorem sameDecs_deliverFrame (tag : UInt8) (ok : Bool) (s : Control) :
    s.SameDecs (deliverFrame tag ok s) := by
  unfold deliverFrame
  split
  · exact (Control.sameDecs_of_slots rfl).trans (Control.sameDecs_deliver _ ok)
  · exact Control.sameDecs_of_slots rfl

/-- The card's frames are all delivered, or the rest is forgotten. -/
theorem ready_deliverFrames {ok : Nat → Bool} {n : Nat} {s : Daemon}
    (hclients : s.control.AllReady) (hcard : Inside s.card) (hn : s.card.win.size ≤ n) :
    (deliverFrames ok n s).Ready := by
  induction n generalizing s with
  | zero => exact ⟨hclients, hcard, next_of_empty (Nat.le_zero.1 hn)⟩
  | succ n ih =>
      unfold deliverFrames
      split
      · next hnone => exact ⟨hclients, hcard, hnone⟩
      · next tag body d hnext =>
          have hless := next_shrinks hnext
          apply ih
          · exact hclients.same (sameDecs_deliverFrame tag (ok n) s.control)
          · exact hcard.next hnext
          · show d.win.size ≤ n
            omega
      · next o d _ hnext => exact ⟨hclients, (hcard.next hnext).clear, next_of_empty rfl⟩

theorem Ready.cardToClients {s : Daemon} (h : s.Ready) (ok : Nat → Bool) (avail : List UInt8) :
    (s.cardToClients ok avail).Ready := by
  obtain ⟨hleft, hsize⟩ := h.card.toInside.room_left
  unfold Daemon.cardToClients
  split
  · exact h
  · dsimp only
    split
    · next hsome hfull =>
        -- there is room, so the ring gave something
        have hroom := (h.card.toInside.roomy h.card.small).space
        have hpos : 0 < readChunk := by decide
        rw [hleft, List.take_eq_nil_iff] at hfull
        obtain hzero | hempty := hfull
        · omega
        · exact absurd hempty hsome
    · have hpopped : (avail.take (min (s.card.room.cap - s.card.room.win.tail) readChunk)).length ≤
          s.card.space := by
        rw [hleft, List.length_take]
        omega
      exact ready_deliverFrames h.clients (h.card.toInside.push hpopped) (Nat.le_refl _)

/-! ## whole runs -/

/-- **Step lemma**: every turn leaves every decoder between two reads. -/
theorem Ready.step {s : Daemon} (h : s.Ready) (t : Turn) : (s.step t).Ready := by
  have hsame : ∀ c : Control, s.control.SameDecs c → Ready { s with control := c } :=
    fun c hc => ⟨h.clients.same hc, h.card⟩
  cases t with
  | accept uid => exact ⟨h.clients.acceptClient uid, h.card⟩
  | client i answered chunk => exact ⟨h.clients.clientToCard i answered chunk, h.card⟩
  | reap i => exact hsame _ (Control.sameDecs_reapClient _ i)
  | pick => exact hsame _ (Control.sameDecs_pickHolder _)
  | push n => exact hsame _ (Control.sameDecs_pushToCard n _)
  | card ok avail => exact h.cardToClients ok avail

theorem ready_opened (serveOwner : Nat) (cells buffer : Nat → UInt8) :
    (opened serveOwner cells buffer).Ready where
  clients := Control.allReady_opened serveOwner cells
  card := ⟨inside_init buffer, next_of_empty rfl⟩

theorem ready_run (serveOwner : Nat) (cells buffer : Nat → UInt8) (ts : List Turn) :
    (run step (opened serveOwner cells buffer) ts).Ready :=
  run_inv_all (fun _ t hs => hs.step t) (ready_opened serveOwner cells buffer) ts

/-- **The decoders have room**: in every state of every run, whatever comes in and
in whatever pieces, each decoder holds less than a frame and nothing whole (but
for a client that was given up), and what is read into it stays in its buffer. -/
theorem decoders_have_room (serveOwner : Nat) (cells buffer : Nat → UInt8) (ts : List Turn) :
    let s := run step (opened serveOwner cells buffer) ts
    (∀ i c, s.control.At i c → Roomy c.dec ∧ (c.dead = false → c.dec.next = none)) ∧
      Roomy s.card ∧ s.card.next = none := by
  have h := ready_run serveOwner cells buffer ts
  refine ⟨fun i c hc => ?_, h.card.toInside.roomy h.card.small, h.card.none⟩
  have hready := h.clients i c hc
  exact ⟨hready.inside.roomy hready.small, hready.live⟩

end Daemon

end Phi.Serve
