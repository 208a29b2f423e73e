import Phi.Lib.Run
import Phi.Serve.Control

/-!
# Phi.Serve.Room

The room in the buffer to the card.

A client is read only while two frames' room is left, and one read brings less
than that, so reading never fills the buffer.  Giving the card away appends all
that the new holder has pending, though, and a departed holder's session is
closed with one more frame, and neither looks at the room.
-/

namespace Phi.Serve

open Rpc

namespace Control

/-! ## the property -/

/-- The buffer is as it should be, and nothing was copied past its end. -/
def Fits (s : Control) : Prop :=
  s.overrun = false ∧ s.toCard.head ≤ s.toCard.tail ∧ s.toCard.tail ≤ toCardCap

instance (s : Control) : Decidable s.Fits := inferInstanceAs (Decidable (_ ∧ _ ∧ _))

/-- There is room for what the new holder has pending, and for the frame that
closes a departed holder's session. -/
def HasRoom (s : Control) : Move → Prop
  | .pick => ∀ i c, s.Picks i c → s.toCard.size + c.pending.length ≤ toCardCap
  | .reap i => ∀ c, s.At i c → c.dead = true → c.id = s.holder →
      s.session = .execOpen ∨ s.session = .putOpen → s.toCard.size + 5 ≤ toCardCap
  | _ => True

/-! ## what a client's buffers hold -/

/-- Whole frames of one client. -/
def Framed (owner : Nat) (bs : List UInt8) : Prop :=
  ∃ es : List Entry, bs = es.flatMap Entry.bytes ∧ ∀ e ∈ es, e.Whole ∧ e.owner = owner

theorem framed_nil (owner : Nat) : Framed owner [] := ⟨[], rfl, nofun⟩

theorem Framed.append {owner : Nat} {bs : List UInt8} {e : Entry} (h : Framed owner bs)
    (he : e.Whole) (howner : e.owner = owner) : Framed owner (bs ++ e.bytes) := by
  obtain ⟨es, rfl, hes⟩ := h
  refine ⟨es ++ [e], by simp, ?_⟩
  intro x hx
  obtain hold | hnew := List.mem_append.mp hx
  · exact hes x hold
  · rw [List.mem_singleton.mp hnew]
    exact ⟨he, howner⟩

/-- A client's decoder and its pending frames. -/
structure Tidy (c : Peer) : Prop where
  ordered : c.dec.win.head ≤ c.dec.win.tail
  framed : Framed c.id c.pending

/-- Between two reads a decoder holds less than a frame. -/
def Drained (c : Peer) : Prop := c.dead = false → c.dec.win.size < 4 + maxFrame

/-- What every step keeps. -/
structure Sound (s : Control) : Prop where
  buffered : s.Buffered
  tidy : ∀ i c, s.At i c → Tidy c
  drained : ∀ i c, s.At i c → Drained c

section

variable {s : Control}

theorem Sound.fits (h : s.Sound) : s.Fits ↔ s.overrun = false :=
  ⟨And.left, fun hrun => ⟨hrun, h.buffered.ordered, h.buffered.inside hrun⟩⟩

/-- Slots that hold what they held, and the buffer as it was. -/
theorem Sound.same {t : Control} (h : s.Sound) (hslots : ∀ i c, t.At i c → s.At i c)
    (hcard : t.toCard = s.toCard) (hrun : t.overrun = s.overrun) : t.Sound where
  buffered := ⟨by rw [hcard]; exact h.buffered.ordered,
    by rw [hrun, hcard]; exact h.buffered.inside⟩
  tidy i c hc := h.tidy i c (hslots i c hc)
  drained i c hc := h.drained i c (hslots i c hc)

/-- A slot filled anew. -/
theorem Sound.fill {i : Nat} {d : Peer} (h : s.Sound) (htidy : Tidy d) (hdrained : Drained d) :
    (s.setSlot i (some d)).Sound where
  buffered := ⟨h.buffered.ordered, h.buffered.inside⟩
  tidy j c hc := by
    obtain ⟨-, rfl⟩ | ⟨-, hold⟩ := at_setSlot hc
    · exact htidy
    · exact h.tidy j c hold
  drained j c hc := by
    obtain ⟨-, rfl⟩ | ⟨-, hold⟩ := at_setSlot hc
    · exact hdrained
    · exact h.drained j c hold

theorem Sound.append (h : s.Sound) (e : Entry) : (s.toCardAppend e).Sound where
  buffered := h.buffered.append e
  tidy := h.tidy
  drained := h.drained

theorem Sound.markDead (h : s.Sound) (i : Nat) : (s.markDead i).Sound := by
  unfold Control.markDead
  split
  · next c hc => exact h.fill ⟨(h.tidy i c hc).ordered, (h.tidy i c hc).framed⟩ nofun
  · exact h

theorem overrun_markDead (s : Control) (i : Nat) : (s.markDead i).overrun = s.overrun := by
  unfold Control.markDead
  split
  · rfl
  · rfl

/-! ## reading -/

/-- In the middle of the frames of one read: the decoder of slot `i` may hold
more, and there is room for all it holds. -/
structure Reading (s : Control) (i : Nat) : Prop where
  buffered : s.Buffered
  tidy : ∀ j c, s.At j c → Tidy c
  drained : ∀ j c, s.At j c → j ≠ i → Drained c
  room : s.overrun = false → ∀ c, s.At i c →
    s.toCard.size + c.dec.win.size ≤ toCardCap

/-- The slot that is read has moved on, and the others are as they were. -/
structure Moved (s t : Control) (i : Nat) (x : Peer) : Prop where
  at_self : t.At i x
  tidy : Tidy x
  others : ∀ j y, t.At j y → j ≠ i → s.At j y

/-- Nothing was sent. -/
theorem Reading.keep {t : Control} {i : Nat} {c x : Peer} (h : s.Reading i) (hc : s.At i c)
    (hx : Moved s t i x) (hsize : x.dec.win.size ≤ c.dec.win.size) (hcard : t.toCard = s.toCard)
    (hrun : t.overrun = s.overrun) : t.Reading i where
  buffered := ⟨by rw [hcard]; exact h.buffered.ordered,
    by rw [hrun, hcard]; exact h.buffered.inside⟩
  tidy j y hy := by
    by_cases hj : j = i
    · subst hj
      obtain rfl : y = x := at_inj hy hx.at_self
      exact hx.tidy
    · exact h.tidy j y (hx.others j y hy hj)
  drained j y hy hj := h.drained j y (hx.others j y hy hj) hj
  room hno y hy := by
    obtain rfl : y = x := at_inj hy hx.at_self
    rw [hrun] at hno
    have hroom := h.room hno c hc
    rw [hcard]
    omega

/-- A frame was sent that the decoder held. -/
theorem Reading.send {t : Control} {i : Nat} {c x : Peer} {e : Entry} (h : s.Reading i)
    (hc : s.At i c) (hx : Moved s t i x)
    (hsize : x.dec.win.size + e.bytes.length ≤ c.dec.win.size)
    (hcard : t.toCard = (s.toCardAppend e).toCard)
    (hrun : t.overrun = (s.toCardAppend e).overrun) :
    t.Reading i ∧ (t.overrun = false ↔ s.overrun = false) := by
  have hover := overrun_toCardAppend (e := e) h.buffered
  have hfits : s.overrun = false → s.toCard.size + e.bytes.length ≤ toCardCap := by
    intro hno
    have hroom := h.room hno c hc
    omega
  constructor
  · have hkeep := h.keep (t := { t with toCard := s.toCard, overrun := s.overrun }) hc
      ⟨hx.at_self, hx.tidy, hx.others⟩ (by omega) rfl rfl
    have hbuffered := h.buffered.append e
    exact
      { buffered := ⟨by rw [hcard]; exact hbuffered.ordered,
          by rw [hrun, hcard]; exact hbuffered.inside⟩
        tidy := hkeep.tidy
        drained := hkeep.drained
        room := by
          intro hno y hy
          obtain rfl : y = x := at_inj hy hx.at_self
          rw [hrun] at hno
          have hroom := h.room (hover.mp hno).1 c hc
          rw [hcard, size_toCardAppend h.buffered.ordered]
          omega }
  · rw [hrun, hover]
    exact ⟨And.left, fun hno => ⟨hno, hfits hno⟩⟩

/-- A frame cut and handled leaves the room there was. -/
theorem Reading.handleFrame {i : Nat} {c : Peer} {d : Dec} {tag : UInt8} {body : List UInt8}
    (h : s.Reading i) (hc : s.At i c) (hnext : c.dec.next = some (.frame tag body, d))
    (answered : Bool) :
    let t := (s.setSlot i (some { c with dec := d })).handleFrame i answered tag body
    t.Reading i ∧ (t.overrun = false ↔ s.overrun = false) ∧
      ∃ x, t.At i x ∧ x.dec.win.size < c.dec.win.size := by
  obtain ⟨hordered, hsize, -, hbytes, hwhole⟩ := decNext_frame (h.tidy i c hc).ordered hnext
  have hsmaller : d.win.size < c.dec.win.size := by omega
  have hframed := (h.tidy i c hc).framed
  have hat := at_setSlot_self hc { c with dec := d }
  have hothers : ∀ x : Peer, ∀ j y,
      ((s.setSlot i (some { c with dec := d })).setSlot i (some x)).At j y → j ≠ i → s.At j y := by
    intro x j y hy hj
    obtain ⟨rfl, -⟩ | ⟨-, hy⟩ := at_setSlot hy
    · exact absurd rfl hj
    · obtain ⟨rfl, -⟩ | ⟨-, hy⟩ := at_setSlot hy
      · exact absurd rfl hj
      · exact hy
  have hstay : ∀ j y, (s.setSlot i (some { c with dec := d })).At j y → j ≠ i → s.At j y := by
    intro j y hy hj
    obtain ⟨rfl, -⟩ | ⟨-, hy⟩ := at_setSlot hy
    · exact absurd rfl hj
    · exact hy
  have hsend : ∀ t : Control, t.slots = (s.setSlot i (some { c with dec := d })).slots →
      t.toCard = (s.toCardAppend ⟨c.id, tag, frameBytes d body⟩).toCard →
      t.overrun = (s.toCardAppend ⟨c.id, tag, frameBytes d body⟩).overrun →
      t.Reading i ∧ (t.overrun = false ↔ s.overrun = false) ∧
        ∃ x, t.At i x ∧ x.dec.win.size < c.dec.win.size := by
    intro t hslots hcard hrun
    have hself : t.At i { c with dec := d } := (congrArg (·[i]?) hslots).trans hat
    have hstayed : ∀ j y, t.At j y → j ≠ i → s.At j y := fun j y hy =>
      hstay j y ((congrArg (·[j]?) hslots).symm.trans hy)
    obtain ⟨hreading, hiff⟩ := h.send hc ⟨hself, ⟨hordered, hframed⟩, hstayed⟩
      (by rw [hbytes]; exact Nat.le_of_eq hsize) hcard hrun
    exact ⟨hreading, hiff, _, hself, hsmaller⟩
  dsimp only
  obtain ⟨-, ht | ht⟩ | ⟨-, q, n, ht⟩ | ⟨-, -, ht⟩ | ⟨-, -, ⟨-, ht⟩ | ⟨-, ht⟩⟩ :=
    handleFrame_cases hat answered tag body
  · rw [ht]
    exact ⟨h.keep hc ⟨hat, ⟨hordered, hframed⟩, hstay⟩ (Nat.le_of_lt hsmaller) rfl rfl, Iff.rfl,
      _, hat, hsmaller⟩
  · rw [ht]
    have hself := at_setSlot_self hat { c with dec := d, dead := true }
    exact ⟨h.keep hc ⟨hself, ⟨hordered, hframed⟩, hothers _⟩ (Nat.le_of_lt hsmaller) rfl rfl,
      Iff.rfl, _, hself, hsmaller⟩
  · rw [ht]
    exact hsend _ rfl rfl rfl
  · rw [ht]
    exact hsend _ rfl rfl rfl
  · rw [ht]
    have hself := at_setSlot_self hat { c with dec := d, dead := true }
    exact ⟨h.keep hc ⟨hself, ⟨hordered, hframed⟩, hothers _⟩ (Nat.le_of_lt hsmaller) rfl rfl,
      Iff.rfl, _, hself, hsmaller⟩
  · rw [ht]
    have hself := at_setSlot_self hat { c with dec := d, pending := c.pending ++ frameBytes d body }
    exact ⟨h.keep hc ⟨hself, ⟨hordered, hframed.append (hwhole c.id) rfl⟩, hothers _⟩
      (Nat.le_of_lt hsmaller) rfl rfl, Iff.rfl, _, hself, hsmaller⟩

/-- All the frames of a read do, and the decoder is left with less than one. -/
theorem Reading.handleFrames {i : Nat} {answered : Nat → Bool} {n : Nat} {c : Peer}
    (h : s.Reading i) (hc : s.At i c) (hn : c.dec.win.size ≤ n) :
    (s.handleFrames i answered n).Sound ∧
      ((s.handleFrames i answered n).overrun = false ↔ s.overrun = false) := by
  induction n generalizing s c with
  | zero =>
      refine ⟨⟨h.buffered, h.tidy, fun j y hy => ?_⟩, Iff.rfl⟩
      by_cases hj : j = i
      · subst hj
        obtain rfl : y = c := at_inj hy hc
        intro _
        unfold maxFrame
        omega
      · exact h.drained j y hy hj
  | succ n ih =>
      unfold Control.handleFrames
      have hslot : s.slots[i]? = some (some c) := hc
      rw [hslot]
      dsimp only
      split
      · next hnone =>
          refine ⟨⟨h.buffered, h.tidy, fun j y hy => ?_⟩, Iff.rfl⟩
          by_cases hj : j = i
          · subst hj
            obtain rfl : y = c := at_inj hy hc
            intro _
            exact Dec.size_lt_of_next_none hnone
          · exact h.drained j y hy hj
      · next tag body d hnext =>
          obtain ⟨hreading, hiff, x, hx, hless⟩ := h.handleFrame hc hnext (answered n)
          obtain ⟨hsound, hrun⟩ := ih hreading hx (by omega)
          exact ⟨hsound, hrun.trans hiff⟩
      · next o d _ hnext =>
          have hordered := decNext_ordered (h.tidy i c hc).ordered hnext
          refine ⟨⟨⟨h.buffered.ordered, h.buffered.inside⟩, fun j y hy => ?_, fun j y hy => ?_⟩,
            Iff.rfl⟩
          · obtain ⟨-, rfl⟩ | ⟨-, hold⟩ := at_setSlot hy
            · exact ⟨hordered, (h.tidy i c hc).framed⟩
            · exact h.tidy j y hold
          · obtain ⟨-, rfl⟩ | ⟨hj, hold⟩ := at_setSlot hy
            · exact nofun
            · exact h.drained j y hold hj

/-- One read leaves less than two frames in a decoder, for which there is room. -/
theorem Sound.clientToCard (h : s.Sound) (i : Nat) (answered : Nat → Bool)
    (chunk : Option (List UInt8)) : (s.clientToCard i answered chunk).Sound ∧
      ((s.clientToCard i answered chunk).overrun = false ↔ s.overrun = false) := by
  unfold Control.clientToCard
  split
  · next c hc =>
      split
      · next hwants =>
          cases chunk with
          | none => exact ⟨h.markDead i, by rw [overrun_markDead]⟩
          | some bytes =>
              unfold wantsRead at hwants
              rw [decide_eq_true_eq] at hwants
              obtain ⟨halive, -, -, hgate⟩ := hwants
              have hdrained := h.drained i c hc halive
              have htidy := h.tidy i c hc
              obtain ⟨hcontent, hordered⟩ := Dec.push_content htidy.ordered (bytes.take readChunk)
              have hsize : (c.dec.push (bytes.take readChunk)).win.size ≤
                  c.dec.win.size + readChunk := by
                rw [← Window.length_content, hcontent, List.length_append, Window.length_content,
                  List.length_take]
                omega
              have hself := at_setSlot_self hc { c with dec := c.dec.push (bytes.take readChunk) }
              have hreading : (s.setSlot i
                  (some { c with dec := c.dec.push (bytes.take readChunk) })).Reading i := by
                refine ⟨⟨h.buffered.ordered, h.buffered.inside⟩, fun j y hy => ?_,
                  fun j y hy hj => ?_, fun _ y hy => ?_⟩
                · obtain ⟨-, rfl⟩ | ⟨-, hold⟩ := at_setSlot hy
                  · exact ⟨hordered, htidy.framed⟩
                  · exact h.tidy j y hold
                · obtain ⟨hj', -⟩ | ⟨-, hold⟩ := at_setSlot hy
                  · exact absurd hj' hj
                  · exact h.drained j y hold
                · obtain rfl := at_inj hy hself
                  show s.toCard.size + (c.dec.push (bytes.take readChunk)).win.size ≤ toCardCap
                  have hframe : maxFrame = 1048576 := rfl
                  have hread : readChunk = 65536 := rfl
                  unfold toCardCap at hgate ⊢
                  omega
              exact hreading.handleFrames hself (Nat.le_refl _)
      · exact ⟨h, Iff.rfl⟩
  · exact ⟨h, Iff.rfl⟩

/-! ## the ring takes bytes -/

theorem Sound.pushToCard (h : s.Sound) (n : Nat) : (s.pushToCard n).Sound ∧
    ((s.pushToCard n).overrun = false ↔ s.overrun = false) := by
  have hbuffered := h.buffered.pushToCard n
  unfold Control.pushToCard at hbuffered ⊢
  split
  · exact ⟨h, Iff.rfl⟩
  · next hsome =>
      rw [if_neg hsome] at hbuffered
      exact ⟨⟨hbuffered, h.tidy, h.drained⟩, Iff.rfl⟩

/-! ## the holder comes and goes -/

theorem Sound.leave (h : s.Sound) (i : Nat) : (s.leave i).Sound :=
  h.same (fun _ _ hc => (at_leave hc).2) rfl rfl

/-- The frame that closes a session takes five bytes. -/
theorem length_tagFrame (owner : Nat) (t : Tag) : (tagFrame owner t).bytes.length = 5 := rfl

theorem Sound.abandon (h : s.Sound) (owner : Nat) : (s.abandon owner).Sound ∧
    ((s.abandon owner).overrun = false ↔ s.overrun = false ∧
      (s.session = .execOpen ∨ s.session = .putOpen → s.toCard.size + 5 ≤ toCardCap)) := by
  have hclose : ∀ (t : Tag) (u : Session), s.session = .execOpen ∨ s.session = .putOpen →
      ({ s.toCardAppend (tagFrame owner t) with session := u } : Control).Sound ∧
        ((s.toCardAppend (tagFrame owner t)).overrun = false ↔ s.overrun = false ∧
          (s.session = .execOpen ∨ s.session = .putOpen → s.toCard.size + 5 ≤ toCardCap)) := by
    intro t u hopen
    refine ⟨(h.append (tagFrame owner t)).same (fun _ _ hx => hx) rfl rfl, ?_⟩
    rw [overrun_toCardAppend h.buffered, length_tagFrame]
    exact and_congr_right fun _ => ⟨fun hroom _ => hroom, fun hroom => hroom hopen⟩
  obtain ⟨hopen, heq⟩ | ⟨hopen, heq⟩ | ⟨hnexec, hnput, heq⟩ := abandon_cases s owner
  · rw [heq]
    exact hclose .stdinEof .execClosed (.inl hopen)
  · rw [heq]
    exact hclose .putClose .putClosed (.inr hopen)
  · rw [heq]
    refine ⟨h, ⟨fun hrun => ⟨hrun, fun hopen => ?_⟩, And.left⟩⟩
    obtain hexec | hput := hopen
    · exact absurd hexec hnexec
    · exact absurd hput hnput

theorem Sound.reapClient (h : s.Sound) (i : Nat) : (s.reapClient i).Sound ∧
    ((s.reapClient i).overrun = false ↔ s.overrun = false ∧ s.HasRoom (.reap i)) := by
  unfold HasRoom
  obtain ⟨heq, halive⟩ | ⟨c, hc, hdead, ⟨hne, heq⟩ | ⟨hholder, heq⟩⟩ := reapClient_cases s i
  · rw [heq]
    refine ⟨h, ⟨fun hrun => ⟨hrun, fun c hc hdead => ?_⟩, And.left⟩⟩
    rw [halive c hc] at hdead
    cases hdead
  · rw [heq]
    refine ⟨h.leave i, ⟨fun hrun => ⟨hrun, fun d hd _ hholder => ?_⟩, And.left⟩⟩
    obtain rfl : c = d := at_inj hc hd
    exact absurd hholder hne
  · have hfreed : ({ s with holder := 0 } : Control).Sound := h.same (fun _ _ hx => hx) rfl rfl
    obtain ⟨hsound, hiff⟩ := hfreed.abandon c.id
    rw [heq]
    refine ⟨hsound.leave i, hiff.trans (and_congr_right fun _ => ⟨fun hroom d hd _ _ => hroom, ?_⟩)⟩
    exact fun hall => hall c hc hdead hholder

/-- The frames of a new holder, one after the other. -/
theorem Sound.forwardAll (h : s.Sound) (es : List Entry) :
    (es.foldl (fun (t : Control) e => t.forwardFrame e) s).Sound ∧
      ((es.foldl (fun (t : Control) e => t.forwardFrame e) s).overrun = false ↔
        s.overrun = false ∧ s.toCard.size + (es.flatMap Entry.bytes).length ≤ toCardCap) := by
  induction es generalizing s with
  | nil =>
      refine ⟨h, ⟨fun hrun => ⟨hrun, ?_⟩, And.left⟩⟩
      have hinside := h.buffered.inside hrun
      show s.toCard.tail - s.toCard.head + 0 ≤ toCardCap
      omega
  | cons e es ih =>
      have hone : (s.forwardFrame e).Sound := (h.append e).same (fun _ _ hx => hx) rfl rfl
      obtain ⟨hsound, hiff⟩ := ih hone
      have hsize : (s.forwardFrame e).toCard.size = s.toCard.size + e.bytes.length :=
        size_toCardAppend h.buffered.ordered
      have hover : (s.forwardFrame e).overrun = false ↔
          s.overrun = false ∧ s.toCard.size + e.bytes.length ≤ toCardCap :=
        overrun_toCardAppend (s := { s with session := follow s.session (Tag.ofByte e.tag) })
          ⟨h.buffered.ordered, h.buffered.inside⟩
      refine ⟨hsound, hiff.trans ?_⟩
      rw [hover, hsize, List.flatMap_cons, List.length_append]
      constructor
      · rintro ⟨⟨hrun, -⟩, hroom⟩
        exact ⟨hrun, by omega⟩
      · rintro ⟨hrun, hroom⟩
        exact ⟨⟨hrun, by omega⟩, by omega⟩

theorem Sound.pickHolder (h : s.Sound) : s.pickHolder.Sound ∧
    (s.pickHolder.overrun = false ↔ s.overrun = false ∧ s.HasRoom .pick) := by
  unfold HasRoom
  obtain ⟨heq, hnone⟩ | ⟨i, c, hpicks, heq⟩ := pickHolder_cases s
  · rw [heq]
    exact ⟨h, ⟨fun hrun => ⟨hrun, fun i c hp => absurd hp (hnone i c)⟩, And.left⟩⟩
  · obtain ⟨hsession, hholder, hfind, hc⟩ := hpicks
    obtain ⟨hordered, es, hpending, hes⟩ := h.tidy i c hc
    have hgiven : ({ s with holder := c.id, tenure := [] } : Control).Sound :=
      h.same (fun _ _ hx => hx) rfl rfl
    obtain ⟨hsound, hiff⟩ := hgiven.forwardAll es
    have hwalk := forwardPending_eq (s := { s with holder := c.id, tenure := [] }) hes
      (Nat.le_refl _)
    rw [← hpending] at hwalk hiff
    rw [heq, hwalk]
    refine ⟨hsound.fill ⟨hordered, framed_nil _⟩ (h.drained i c hc), hiff.trans ?_⟩
    refine and_congr_right fun _ => ⟨fun hroom j d hd => ?_, fun hall =>
      hall i c ⟨hsession, hholder, hfind, hc⟩⟩
    obtain ⟨-, -, hfind', hd⟩ := hd
    rw [hfind] at hfind'
    cases hfind'
    obtain rfl : c = d := at_inj hc hd
    exact hroom

/-! ## the other routines -/

theorem Sound.acceptClient (h : s.Sound) (uid : Nat) : (s.acceptClient uid).Sound ∧
    ((s.acceptClient uid).overrun = false ↔ s.overrun = false) := by
  unfold Control.acceptClient
  split
  · exact ⟨h, Iff.rfl⟩
  · split
    · exact ⟨h, Iff.rfl⟩
    · split
      · exact ⟨h, Iff.rfl⟩
      · next i hi =>
          have hfresh : Tidy ⟨s.nextId + 1, false, [], .init fun _ => 0⟩ :=
            ⟨Nat.le_refl 0, framed_nil _⟩
          have hempty : Drained ⟨s.nextId + 1, false, [], .init fun _ => 0⟩ := by
            intro _
            exact Nat.zero_lt_succ _
          exact ⟨(h.fill (i := i) hfresh hempty).same (fun _ _ hx => hx) rfl rfl, Iff.rfl⟩

theorem Sound.sendTo (h : s.Sound) (id : Nat) (ok : Bool) : (s.sendTo id ok).Sound ∧
    (s.sendTo id ok).overrun = s.overrun := by
  unfold Control.sendTo
  split
  · exact ⟨h, rfl⟩
  · split
    · exact ⟨h, rfl⟩
    · exact ⟨h.markDead _, overrun_markDead s _⟩

theorem Sound.deliver (h : s.Sound) (ok : Bool) : (s.deliver ok).Sound ∧
    (s.deliver ok).overrun = s.overrun := by
  unfold Control.deliver
  split
  · exact ⟨h, rfl⟩
  · next r rest _ =>
      have hreceived : ({ s with fromCard := rest } : Control).Sound :=
        h.same (fun _ _ hx => hx) rfl rfl
      dsimp only
      split
      · split
        · exact ⟨hreceived, rfl⟩
        · have hnext : ({ s with fromCard := rest, statQh := s.statQh + 1 } : Control).Sound :=
            h.same (fun _ _ hx => hx) rfl rfl
          exact hnext.sendTo _ ok
      · have hsent : (if s.holder = 0 then { s with fromCard := rest }
            else ({ s with fromCard := rest } : Control).sendTo s.holder ok).Sound ∧
          (if s.holder = 0 then { s with fromCard := rest }
            else ({ s with fromCard := rest } : Control).sendTo s.holder ok).overrun =
              s.overrun := by
          split
          · exact ⟨hreceived, rfl⟩
          · exact hreceived.sendTo s.holder ok
        split
        · exact ⟨hsent.1.same (fun _ _ hx => hx) rfl rfl, hsent.2⟩
        · exact hsent

/-- The agent touches neither the slots nor the buffer. -/
theorem Sound.agents {t : Control} (h : s.Sound) (ht : s.Agents t) :
    t.Sound ∧ t.overrun = s.overrun := by
  obtain ⟨a, r, n, rfl⟩ := ht
  exact ⟨h.same (fun _ _ hx => hx) rfl rfl, rfl⟩

/-- **Step lemma**: every step keeps what the buffers need, and bytes are copied
past the end exactly by a step without the room for it. -/
theorem Sound.step (h : s.Sound) (m : Move) : (s.step m).Sound ∧
    ((s.step m).overrun = false ↔ s.overrun = false ∧ s.HasRoom m) := by
  have hfree : ∀ t : Control, t.Sound ∧ (t.overrun = false ↔ s.overrun = false) →
      t.Sound ∧ (t.overrun = false ↔ s.overrun = false ∧ True) := fun t ⟨hsound, hiff⟩ =>
    ⟨hsound, by rwa [and_true]⟩
  have hsame : ∀ t : Control, t.Sound ∧ t.overrun = s.overrun →
      t.Sound ∧ (t.overrun = false ↔ s.overrun = false ∧ True) := fun t ⟨hsound, heq⟩ =>
    hfree t ⟨hsound, by rw [heq]⟩
  cases m with
  | accept uid => exact hfree _ (h.acceptClient uid)
  | read i answered chunk => exact hfree _ (h.clientToCard i answered chunk)
  | reap i => exact h.reapClient i
  | pick => exact h.pickHolder
  | push n => exact hfree _ (h.pushToCard n)
  | deliver ok => exact hsame _ (h.deliver ok)
  | agentTake ok => exact hsame _ (h.agents (agents_agentTake s ok))
  | agentOutput tag => exact hsame _ (h.agents (agents_agentOutput s tag))

theorem sound_opened (serveOwner : Nat) (cells : Nat → UInt8) :
    (opened serveOwner cells).Sound where
  buffered := ⟨Nat.le_refl 0, fun _ => Nat.zero_le _⟩
  tidy i c hc := absurd hc (not_at_opened serveOwner cells i c)
  drained i c hc := absurd hc (not_at_opened serveOwner cells i c)

end

/-! ## whole runs -/

theorem sound_run (serveOwner : Nat) (cells : Nat → UInt8) (ms : List Move) :
    (run step (opened serveOwner cells) ms).Sound :=
  have hkeep : ∀ (s : Control) (m : Move), s.Sound → (s.step m).Sound := fun _ m hs => (hs.step m).1
  run_inv_all hkeep (sound_opened serveOwner cells) ms

/-- **The buffer to the card holds** through a run exactly when at every pick
there is room for what the new holder has pending, and at every departure of a
holder for the frame that closes its session: reading is held back in time. -/
theorem toCard_fits_iff (serveOwner : Nat) (cells : Nat → UInt8) (ms : List Move) :
    (run step (opened serveOwner cells) ms).Fits ↔
      Along step HasRoom (opened serveOwner cells) ms := by
  have hkeep : ∀ (s : Control) (m : Move), s.Sound → True → (s.step m).Sound :=
    fun s m hs _ => (hs.step m).1
  have hroom : ∀ (s : Control) (m : Move), s.Sound → True →
      ((s.step m).overrun = false ↔ s.overrun = false ∧ s.HasRoom m) :=
    fun s m hs _ => (hs.step m).2
  rw [(sound_run serveOwner cells ms).fits, @run_iff_along _ _ step _ HasRoom Sound
    (fun s => s.overrun = false) hkeep hroom _ ms (sound_opened serveOwner cells)
    (along_of_forall (fun _ _ => trivial) _ ms)]
  exact ⟨And.right, fun h => ⟨rfl, h⟩⟩

/-! ## reads of input -/

section

variable {s : Control}

/-- `Stdin` frames of the client with this id. -/
def Stdins (id : Nat) (es : List Entry) : Prop :=
  ∀ e ∈ es, e.Whole ∧ e.tag = Tag.stdin.toByte ∧ e.owner = id

/-- What a client's slot, the buffer and the session are after a read. -/
structure ReadTo (s t : Control) (i : Nat) (c : Peer) (fill : Nat) : Prop where
  at_self : t.At i c
  others : ∀ j, j ≠ i → t.slots[j]? = s.slots[j]?
  fill : t.toCard.size = fill
  ordered : t.toCard.head ≤ t.toCard.tail
  holder : t.holder = s.holder
  session : t.session = s.session
  agent : t.agent = s.agent
  fromCard : t.fromCard = s.fromCard

theorem ReadTo.trans {t u : Control} {i m n : Nat} {x y : Peer} (h : ReadTo s t i x m)
    (h' : ReadTo t u i y n) : ReadTo s u i y n where
  at_self := h'.at_self
  others j hj := (h'.others j hj).trans (h.others j hj)
  fill := h'.fill
  ordered := h'.ordered
  holder := h'.holder.trans h.holder
  session := h'.session.trans h.session
  agent := h'.agent.trans h.agent
  fromCard := h'.fromCard.trans h.fromCard

/-- With no frame whole, nothing is handled. -/
theorem handleFrames_none (answered : Nat → Bool) {i : Nat} {c : Peer} (hc : s.At i c)
    (hcut : cut c.dec.win.content = none) (n : Nat) : s.handleFrames i answered n = s := by
  have hnone : c.dec.next = none := by
    rw [Dec.next_eq, Option.map_eq_none_iff, ← Option.map_eq_none_iff (f := fun x =>
      (x.1, x.2.content)), rxTurn_content]
    exact hcut
  cases n with
  | zero => rfl
  | succ n =>
      unfold handleFrames
      rw [show s.slots[i]? = some (some c) from hc]
      dsimp only
      rw [hnone]

/-- What one `Stdin` frame at the front of a decoder comes to: the holder's is
forwarded, that of another held. -/
theorem handleFrames_stdin (answered : Nat → Bool) {i n : Nat} {e : Entry} {rest : List UInt8}
    {c : Peer} (hc : s.At i c) (he : e.Whole) (htag : e.tag = Tag.stdin.toByte)
    (hordered : c.dec.win.head ≤ c.dec.win.tail) (hcontent : c.dec.win.content = e.bytes ++ rest)
    (hn : c.dec.win.size ≤ n) (hcard : s.toCard.head ≤ s.toCard.tail)
    (hcap : c.pending.length + e.bytes.length ≤ pendCap) :
    ∃ (m : Nat) (d : Dec) (t : Control), d.cap = c.dec.cap ∧ d.win.content = rest ∧
      d.win.head ≤ d.win.tail ∧ d.win.size ≤ m ∧
      s.handleFrames i answered n = t.handleFrames i answered m ∧
      (c.id = s.holder → ReadTo s t i { c with dec := d } (s.toCard.size + e.bytes.length)) ∧
      (c.id ≠ s.holder →
        ReadTo s t i { c with dec := d, pending := c.pending ++ e.bytes } s.toCard.size) := by
  obtain ⟨body, hlen, hcuts⟩ := he.cutsFrame rest
  rw [← hcontent] at hcuts
  obtain ⟨d, hnext, hleft, hdcap⟩ := decNext_of_cut hcuts.cut
  obtain ⟨hdord, hdsize, hdcontent, hdlen, -⟩ := decNext_frame hordered hnext
  have hbytes : frameBytes d body = e.bytes := by
    rw [hcontent, hleft] at hdcontent
    exact (List.append_inj_left hdcontent (by rw [hdlen, hlen])).symm
  obtain ⟨m, rfl⟩ : ∃ m, n = m + 1 := ⟨n - 1, by omega⟩
  have hself := at_setSlot_self hc { c with dec := d }
  have hset : ∀ (u : Control) x j, j ≠ i → (u.setSlot i x).slots[j]? = u.slots[j]? :=
    fun u x j hj => List.getElem?_set_ne (fun h => hj h.symm)
  have hstay := hset s (some { c with dec := d })
  refine ⟨m, d, (s.setSlot i (some { c with dec := d })).handleFrame i (answered m) e.tag body,
    hdcap, hleft, hdord, by omega, ?_, ?_⟩
  · rw [handleFrames, show s.slots[i]? = some (some c) from hc]
    dsimp only
    rw [hnext]
  obtain ⟨htags, -⟩ | ⟨hstat, -⟩ | ⟨-, hmine, ht⟩ | ⟨-, hnot, ⟨hfull, -⟩ | ⟨-, ht⟩⟩ :=
    handleFrame_cases hself (answered m) e.tag body
  · rw [htag] at htags
    simp at htags
  · rw [htag] at hstat
    simp at hstat
  · have hsession : follow s.session (Tag.ofByte e.tag) = s.session := by rw [htag]; rfl
    have hsize := size_toCardAppend (s := s) (e := ⟨c.id, e.tag, frameBytes d body⟩) hcard
    refine ⟨fun _ => ?_, fun hne => absurd hmine hne⟩
    rw [ht, ← hbytes]
    exact ⟨hself, hstay, hsize, ordered_toCardAppend hcard, rfl, hsession, rfl, rfl⟩
  · dsimp only at hfull
    omega
  · refine ⟨fun hmine => absurd hmine hnot, fun _ => ?_⟩
    rw [ht, ← hbytes]
    exact ⟨at_setSlot_self hself _, fun j hj => (hset _ _ j hj).trans (hstay j hj), rfl, hcard,
      rfl, rfl, rfl, rfl⟩

/-- What the `Stdin` frames of one read come to: the holder's are forwarded, those
of another held. -/
theorem handleFrames_stdins (answered : Nat → Bool) {i : Nat} {n : Nat} {es : List Entry}
    {r : List UInt8} (hr : cut r = none) {c : Peer} (hc : s.At i c)
    (hes : Stdins c.id es) (hordered : c.dec.win.head ≤ c.dec.win.tail)
    (hcontent : c.dec.win.content = es.flatMap Entry.bytes ++ r) (hn : c.dec.win.size ≤ n)
    (hcard : s.toCard.head ≤ s.toCard.tail)
    (hcap : c.pending.length + (es.flatMap Entry.bytes).length ≤ pendCap) :
    ∃ d : Dec, d.cap = c.dec.cap ∧ d.win.content = r ∧ d.win.head ≤ d.win.tail ∧
      (c.id = s.holder → ReadTo s (s.handleFrames i answered n) i { c with dec := d }
        (s.toCard.size + (es.flatMap Entry.bytes).length)) ∧
      (c.id ≠ s.holder → ReadTo s (s.handleFrames i answered n) i
        { c with dec := d, pending := c.pending ++ es.flatMap Entry.bytes } s.toCard.size) := by
  induction es generalizing s c n with
  | nil =>
      rw [handleFrames_none answered hc (by rw [hcontent]; exact hr)]
      refine ⟨c.dec, rfl, hcontent, hordered, fun _ => ?_, fun _ => ?_⟩
      · exact ⟨hc, fun _ _ => rfl, rfl, hcard, rfl, rfl, rfl, rfl⟩
      · refine ⟨?_, fun _ _ => rfl, rfl, hcard, rfl, rfl, rfl, rfl⟩
        rw [List.flatMap_nil, List.append_nil]
        exact hc
  | cons e es ih =>
      obtain ⟨⟨hwhole, htag, -⟩, hrest⟩ := List.forall_mem_cons.mp hes
      rw [List.flatMap_cons, List.append_assoc] at hcontent
      rw [List.flatMap_cons, List.length_append] at hcap ⊢
      obtain ⟨m, d, t, hdcap, hleft, hdord, hm, heq, hmine, hnot⟩ :=
        handleFrames_stdin answered hc hwhole htag hordered hcontent hn hcard (by omega)
      rw [heq]
      by_cases hholder : c.id = s.holder
      · have hto := hmine hholder
        obtain ⟨x, hxcap, hx, hxord, hheld, -⟩ :=
          ih hto.at_self hrest hdord hleft hm hto.ordered (by dsimp only; omega)
        refine ⟨x, hxcap.trans hdcap, hx, hxord, fun _ => ?_, fun hne => absurd hholder hne⟩
        rw [← Nat.add_assoc, ← hto.fill]
        exact hto.trans (hheld (hholder.trans hto.holder.symm))
      · have hto := hnot hholder
        obtain ⟨x, hxcap, hx, hxord, -, hheld⟩ :=
          ih hto.at_self hrest hdord hleft hm hto.ordered
            (by dsimp only; rw [List.length_append]; omega)
        refine ⟨x, hxcap.trans hdcap, hx, hxord, fun hmine => absurd hmine hholder, fun _ => ?_⟩
        rw [← List.append_assoc, ← hto.fill]
        exact hto.trans (hheld fun hc => hholder (hc.trans hto.holder))

/-- A read that brings `Stdin` frames. -/
theorem clientToCard_stdins (answered : Nat → Bool) {i : Nat} {c : Peer} {es : List Entry}
    {chunk r : List UInt8} (hc : s.At i c) (halive : c.dead = false)
    (hturn : c.pending = [] ∨ c.id = s.holder) (hdec : c.dec.cap = decCap)
    (hordered : c.dec.win.head ≤ c.dec.win.tail) (hsmall : c.dec.win.size ≤ 4 + maxFrame)
    (hcard : s.toCard.head ≤ s.toCard.tail) (hgate : s.toCard.size < toCardCap - 2 * maxFrame)
    (hchunk : chunk.length ≤ readChunk)
    (hcontent : c.dec.win.content ++ chunk = es.flatMap Entry.bytes ++ r) (hr : cut r = none)
    (hes : Stdins c.id es)
    (hcap : c.pending.length + (es.flatMap Entry.bytes).length ≤ pendCap) :
    ∃ d : Dec, d.cap = decCap ∧ d.win.content = r ∧ d.win.head ≤ d.win.tail ∧
      (c.id = s.holder → ReadTo s (s.clientToCard i answered (some chunk)) i { c with dec := d }
        (s.toCard.size + (es.flatMap Entry.bytes).length)) ∧
      (c.id ≠ s.holder → ReadTo s (s.clientToCard i answered (some chunk)) i
        { c with dec := d, pending := c.pending ++ es.flatMap Entry.bytes } s.toCard.size) := by
  have hspace : readChunk ≤ c.dec.space := by
    have hframe : maxFrame = 1048576 := rfl
    have hwide : decCap = 4 + maxFrame + readChunk := rfl
    unfold Dec.space
    unfold Window.size at hsmall
    omega
  have hwants : s.wantsRead c = true := by
    unfold wantsRead
    exact decide_eq_true ⟨halive, hturn, hspace, hgate⟩
  obtain ⟨hpushed, hpord⟩ := Dec.push_content hordered chunk
  have hself := at_setSlot_self hc { c with dec := c.dec.push chunk }
  have hpcap : (c.dec.push chunk).cap = c.dec.cap := by
    unfold Dec.push Dec.room
    split <;> rfl
  obtain ⟨d, hdcap, hd, hdord, hmine, hother⟩ := handleFrames_stdins answered
    (n := (c.dec.push chunk).win.size) hr hself hes hpord (hpushed.trans hcontent) (Nat.le_refl _)
    hcard hcap
  have hread : s.clientToCard i answered (some chunk) =
      (s.setSlot i (some { c with dec := c.dec.push chunk })).handleFrames i answered
        (c.dec.push chunk).win.size := by
    unfold clientToCard
    rw [show s.slots[i]? = some (some c) from hc]
    dsimp only
    rw [if_pos hwants, List.take_of_length_le hchunk]
  have hset : ∀ j, j ≠ i →
      (s.setSlot i (some { c with dec := c.dec.push chunk })).slots[j]? = s.slots[j]? :=
    fun j hj => List.getElem?_set_ne (fun h => hj h.symm)
  rw [hread]
  refine ⟨d, hdcap.trans (hpcap.trans hdec), hd, hdord, fun h => ?_, fun h => ?_⟩
  · have hto := hmine h
    exact { hto with others := fun j hj => (hto.others j hj).trans (hset j hj) }
  · have hto := hother h
    exact { hto with others := fun j hj => (hto.others j hj).trans (hset j hj) }

end

/-! ## a run that overflows -/

/-- A `Stdin` frame of `n` bytes. -/
def stdinFrame (n : Nat) : List UInt8 :=
  putU32 (UInt32.ofNat (n - 4)) ++ Tag.stdin.toByte :: List.replicate (n - 5) 0

/-- Reads of slot `i` that bring these pieces. -/
def reads (i : Nat) (pieces : List (List UInt8)) : List Move :=
  pieces.map fun p => .read i (fun _ => true) (some p)

/-- One of the largest frames and one more, in reads of full size. -/
def twoFrames : List UInt8 := stdinFrame (4 + maxFrame) ++ stdinFrame 65532

def pieces (n : Nat) : List (List UInt8) :=
  (List.range n).map fun k => (twoFrames.drop (k * readChunk)).take readChunk

/-- `Exec` of the program `a`. -/
def execA : List UInt8 := [10, 0, 0, 0, 1, 1, 0, 1, 0, 97, 0, 0, 0, 0]

/-- A client starts a command that does not read its input; another sends two
frames, which wait; the first sends input for as long as it is read; and the
command exits. -/
def fillsUp : List Move :=
  [.accept 0, .accept 0] ++ reads 0 [execA] ++ [.pick, .push 14, .agentTake true] ++
    reads 1 (pieces 17) ++ reads 0 (List.replicate 31 (stdinFrame readChunk)) ++
    reads 0 (pieces 17) ++ [.agentOutput .exit, .deliver true, .pick]

theorem length_stdinFrame {n : Nat} (h : 5 ≤ n) : (stdinFrame n).length = n := by
  unfold stdinFrame putU32
  rw [List.length_append, length_leBytes, List.length_cons, List.length_replicate]
  omega

/-- The header of such a frame tells its length. -/
theorem ofLe_stdinFrame {n : Nat} (hn : n ≤ 4 + maxFrame) {k : Nat} (hk : 4 ≤ k)
    (more : List UInt8) : ofLe (((stdinFrame n ++ more).take k).take 4) = n - 4 := by
  have hfit : n - 4 < 256 ^ 4 := by
    have hframe : maxFrame = 1048576 := rfl
    omega
  rw [List.take_take, Nat.min_eq_left hk]
  unfold stdinFrame putU32
  rw [List.append_assoc, List.take_left' (length_leBytes 4 _),
    UInt32.toNat_ofNat_of_lt' (by unfold UInt32.size; omega), ofLe_leBytes hfit]

/-- A piece of it is no frame. -/
theorem cut_part {n k : Nat} (hn : 5 ≤ n) (hmax : n ≤ 4 + maxFrame) (hk : k < n)
    (more : List UInt8) : cut ((stdinFrame n ++ more).take k) = none := by
  have hlen : ((stdinFrame n ++ more).take k).length = k := by
    rw [List.length_take, List.length_append, length_stdinFrame hn]
    omega
  have hframe : maxFrame = 1048576 := rfl
  have hrpc : Rpc.maxFrame = 1048576 := rfl
  unfold cut
  rw [hlen]
  by_cases h4 : k < 4
  · rw [if_pos h4]
  · rw [if_neg h4, ofLe_stdinFrame hmax (by omega)]
    dsimp only
    rw [if_neg (by omega), if_pos (by omega)]

theorem whole_stdinFrame {n : Nat} (hn : 5 ≤ n) (hmax : n ≤ 4 + maxFrame) (owner : Nat) :
    Entry.Whole ⟨owner, Tag.stdin.toByte, stdinFrame n⟩ := by
  have hlen := length_stdinFrame hn
  have hof := ofLe_stdinFrame hmax (Nat.le_trans (by decide : 4 ≤ 5) hn) []
  rw [List.append_nil, List.take_of_length_le (Nat.le_of_eq hlen)] at hof
  have hframe : maxFrame = 1048576 := rfl
  have hrpc : Rpc.maxFrame = 1048576 := rfl
  have hfront : ∃ header : List UInt8, header.length = 4 ∧
      stdinFrame n = header ++ Tag.stdin.toByte :: List.replicate (n - 5) 0 :=
    ⟨_, length_leBytes 4 _, rfl⟩
  obtain ⟨header, hheader, heq⟩ := hfront
  refine ⟨List.replicate (n - 5) 0, CutsFrame.cut ⟨?_, ?_, ?_, ?_, ?_, ?_, rfl⟩⟩
  all_goals try rw [List.length_replicate]
  · show 4 + ofLe ((stdinFrame n).take 4) = _
    rw [hof]
    omega
  · show _ ≤ (stdinFrame n).length
    omega
  · omega
  · exact (List.drop_of_length_le (by rw [hlen]; omega)).symm
  · show (stdinFrame n).getD 4 0 = _
    rw [heq, List.getD_eq_getElem?_getD, List.getElem?_append_right (by omega), hheader]
    rfl
  · show ((stdinFrame n).take _).drop 5 = _
    rw [List.take_of_length_le (by omega), heq, List.drop_append, hheader,
      List.drop_of_length_le (by omega)]
    rfl

/-! ### the state on the way -/

/-- The first client holds the card with its command running; what the buffer
holds, and what the decoders and the second client's pending buffer do. -/
structure Filling (s : Control) (fill : Nat) (first second pending : List UInt8) : Prop where
  first : ∃ d : Dec, s.At 0 ⟨1, false, [], d⟩ ∧ d.cap = decCap ∧ d.win.content = first ∧
    d.win.head ≤ d.win.tail
  second : ∃ d : Dec, s.At 1 ⟨2, false, pending, d⟩ ∧ d.cap = decCap ∧ d.win.content = second ∧
    d.win.head ≤ d.win.tail
  fill : s.toCard.size = fill
  ordered : s.toCard.head ≤ s.toCard.tail
  holder : s.holder = 1
  session : s.session = .execOpen
  agent : s.agent = some ⟨.exec, 1, false⟩
  fromCard : s.fromCard = []

section

variable {s : Control} {fill : Nat} {first second pending : List UInt8}

/-- The holder is read. -/
theorem Filling.readFirst (h : Filling s fill first second pending) (es : List Entry)
    (r : List UInt8) {chunk : List UInt8} (hgate : fill < toCardCap - 2 * maxFrame)
    (hfirst : first.length ≤ 4 + maxFrame) (hchunk : chunk.length ≤ readChunk)
    (hcontent : first ++ chunk = es.flatMap Entry.bytes ++ r) (hr : cut r = none)
    (hes : Stdins 1 es) (hcap : (es.flatMap Entry.bytes).length ≤ pendCap) :
    Filling (s.step (.read 0 (fun _ => true) (some chunk)))
      (fill + (es.flatMap Entry.bytes).length) r second pending := by
  obtain ⟨d, hat, hdcap, hd, hdord⟩ := h.first
  have hsize : d.win.size = first.length := by rw [← hd, Window.length_content]
  obtain ⟨x, hxcap, hx, hxord, hmine, -⟩ := clientToCard_stdins (fun _ => true) hat rfl
    (.inl rfl) hdcap hdord (by dsimp only; omega) h.ordered (by rw [h.fill]; exact hgate) hchunk
    (by dsimp only; rw [hd]; exact hcontent) hr hes (by rw [List.length_nil]; omega)
  have hto := hmine h.holder.symm
  obtain ⟨e, heat, hecap, he, heord⟩ := h.second
  exact
    { first := ⟨x, hto.at_self, hxcap, hx, hxord⟩
      second := ⟨e, (hto.others 1 (by decide)).trans heat, hecap, he, heord⟩
      fill := by rw [← h.fill]; exact hto.fill
      ordered := hto.ordered
      holder := hto.holder.trans h.holder
      session := hto.session.trans h.session
      agent := hto.agent.trans h.agent
      fromCard := hto.fromCard.trans h.fromCard }

/-- The other client is read while it has nothing pending. -/
theorem Filling.readSecond (h : Filling s fill first second []) (es : List Entry)
    (r : List UInt8) {chunk : List UInt8} (hgate : fill < toCardCap - 2 * maxFrame)
    (hsecond : second.length ≤ 4 + maxFrame) (hchunk : chunk.length ≤ readChunk)
    (hcontent : second ++ chunk = es.flatMap Entry.bytes ++ r) (hr : cut r = none)
    (hes : Stdins 2 es) (hcap : (es.flatMap Entry.bytes).length ≤ pendCap) :
    Filling (s.step (.read 1 (fun _ => true) (some chunk))) fill first r
      (es.flatMap Entry.bytes) := by
  obtain ⟨d, hat, hdcap, hd, hdord⟩ := h.second
  have hsize : d.win.size = second.length := by rw [← hd, Window.length_content]
  obtain ⟨x, hxcap, hx, hxord, -, hother⟩ := clientToCard_stdins (fun _ => true) hat rfl
    (.inl rfl) hdcap hdord (by dsimp only; omega) h.ordered (by rw [h.fill]; exact hgate) hchunk
    (by dsimp only; rw [hd]; exact hcontent) hr hes (by rw [List.length_nil]; omega)
  have hto := hother (by rw [h.holder]; exact (by decide : (2 : Nat) ≠ 1))
  obtain ⟨e, heat, hecap, he, heord⟩ := h.first
  exact
    { first := ⟨e, (hto.others 0 (by decide)).trans heat, hecap, he, heord⟩
      second := ⟨x, hto.at_self, hxcap, hx, hxord⟩
      fill := hto.fill.trans h.fill
      ordered := hto.ordered
      holder := hto.holder.trans h.holder
      session := hto.session.trans h.session
      agent := hto.agent.trans h.agent
      fromCard := hto.fromCard.trans h.fromCard }

/-- The frames of the two sent together. -/
def two (id : Nat) : List Entry :=
  [⟨id, Tag.stdin.toByte, stdinFrame (4 + maxFrame)⟩, ⟨id, Tag.stdin.toByte, stdinFrame 65532⟩]

theorem stdins_two (id : Nat) : Stdins id (two id) := by
  intro e he
  simp only [two, List.mem_cons, List.not_mem_nil, or_false] at he
  obtain rfl | rfl := he
  · exact ⟨whole_stdinFrame (by decide) (by decide) id, rfl, rfl⟩
  · exact ⟨whole_stdinFrame (by decide) (by decide) id, rfl, rfl⟩

theorem flatMap_two (id : Nat) : (two id).flatMap Entry.bytes = twoFrames := by
  simp [two, twoFrames]

theorem length_twoFrames : twoFrames.length = 17 * readChunk := by
  unfold twoFrames
  rw [List.length_append, length_stdinFrame (by decide), length_stdinFrame (by decide)]
  rfl

/-- A piece more. -/
theorem take_pieces (k : Nat) : twoFrames.take (k * readChunk) ++
    (twoFrames.drop (k * readChunk)).take readChunk = twoFrames.take ((k + 1) * readChunk) := by
  rw [Nat.add_one_mul, List.take_add]

theorem piece_more (k : Nat) : twoFrames.take (k * readChunk) ++
    (twoFrames.drop (k * readChunk)).take readChunk =
      ([] : List Entry).flatMap Entry.bytes ++ twoFrames.take ((k + 1) * readChunk) := by
  rw [List.flatMap_nil, List.nil_append, take_pieces]

theorem cut_pieces {k : Nat} (hk : k ≤ 16) : cut (twoFrames.take (k * readChunk)) = none := by
  have hframe : maxFrame = 1048576 := rfl
  rw [show readChunk = 65536 from rfl]
  exact cut_part (by omega) (Nat.le_refl _) (by omega) _

theorem reads_pieces_succ (i k : Nat) : reads i (pieces (k + 1)) = reads i (pieces k) ++
    [.read i (fun _ => true) (some ((twoFrames.drop (k * readChunk)).take readChunk))] := by
  unfold reads pieces
  rw [List.range_succ, List.map_append, List.map_append]
  rfl

theorem length_take_pieces {k : Nat} (hk : k ≤ 16) :
    (twoFrames.take (k * readChunk)).length ≤ 4 + maxFrame := by
  have hframe : maxFrame = 1048576 := rfl
  rw [List.length_take, show readChunk = 65536 from rfl]
  omega

theorem Filling.firstPieces (h : Filling s fill [] second pending)
    (hgate : fill < toCardCap - 2 * maxFrame) {k : Nat} (hk : k ≤ 16) :
    Filling (run step s (reads 0 (pieces k))) fill (twoFrames.take (k * readChunk)) second
      pending := by
  induction k with
  | zero =>
      rw [Nat.zero_mul, List.take_zero]
      exact h
  | succ k ih =>
      have hnext := (ih (by omega)).readFirst [] _ hgate (length_take_pieces (by omega))
        (by rw [List.length_take]; omega) (piece_more k) (cut_pieces hk) nofun
        (Nat.zero_le _)
      rw [List.flatMap_nil, List.length_nil, Nat.add_zero] at hnext
      rw [reads_pieces_succ, run_append, run_cons, run_nil]
      exact hnext

theorem Filling.secondPieces (h : Filling s fill first [] [])
    (hgate : fill < toCardCap - 2 * maxFrame) {k : Nat} (hk : k ≤ 16) :
    Filling (run step s (reads 1 (pieces k))) fill first (twoFrames.take (k * readChunk)) [] := by
  induction k with
  | zero =>
      rw [Nat.zero_mul, List.take_zero]
      exact h
  | succ k ih =>
      have hnext := (ih (by omega)).readSecond [] _ hgate (length_take_pieces (by omega))
        (by rw [List.length_take]; omega) (piece_more k) (cut_pieces hk) nofun
        (Nat.zero_le _)
      rw [List.flatMap_nil] at hnext
      rw [reads_pieces_succ, run_append, run_cons, run_nil]
      exact hnext

/-- All the pieces bring the two frames. -/
theorem take_all (id : Nat) : twoFrames.take (16 * readChunk) ++
    (twoFrames.drop (16 * readChunk)).take readChunk =
      (two id).flatMap Entry.bytes ++ [] := by
  rw [take_pieces, List.append_nil, flatMap_two]
  exact List.take_of_length_le (Nat.le_of_eq length_twoFrames)

theorem length_two (id : Nat) : ((two id).flatMap Entry.bytes).length = 17 * readChunk := by
  rw [flatMap_two, length_twoFrames]

theorem Filling.firstFrames (h : Filling s fill [] second pending)
    (hgate : fill < toCardCap - 2 * maxFrame) :
    Filling (run step s (reads 0 (pieces 17))) (fill + 17 * readChunk) [] second pending := by
  have hnext := (h.firstPieces hgate (Nat.le_refl 16)).readFirst (two 1) [] hgate
    (length_take_pieces (Nat.le_refl 16)) (by rw [List.length_take]; omega) (take_all 1) rfl
    (stdins_two 1) (by rw [length_two]; decide)
  rw [length_two] at hnext
  rw [reads_pieces_succ, run_append, run_cons, run_nil]
  exact hnext

theorem Filling.secondFrames (h : Filling s fill first [] [])
    (hgate : fill < toCardCap - 2 * maxFrame) :
    Filling (run step s (reads 1 (pieces 17))) fill first [] twoFrames := by
  have hnext := (h.secondPieces hgate (Nat.le_refl 16)).readSecond (two 2) [] hgate
    (length_take_pieces (Nat.le_refl 16)) (by rw [List.length_take]; omega) (take_all 2) rfl
    (stdins_two 2) (by rw [length_two]; decide)
  rw [flatMap_two] at hnext
  rw [reads_pieces_succ, run_append, run_cons, run_nil]
  exact hnext

/-- Frames of a read each. -/
theorem Filling.firstChunks (h : Filling s 0 [] second pending) {m : Nat} (hm : m ≤ 31) :
    Filling (run step s (reads 0 (List.replicate m (stdinFrame readChunk)))) (m * readChunk) []
      second pending := by
  have hframe : maxFrame = 1048576 := rfl
  have hread : readChunk = 65536 := rfl
  have hlen : (stdinFrame readChunk).length = readChunk := length_stdinFrame (by decide)
  induction m with
  | zero =>
      rw [Nat.zero_mul]
      exact h
  | succ m ih =>
      have hgate : m * readChunk < toCardCap - 2 * maxFrame := by
        unfold toCardCap
        rw [hread]
        omega
      have hone : Stdins 1 [⟨1, Tag.stdin.toByte, stdinFrame readChunk⟩] := by
        intro e he
        rw [List.mem_singleton.mp he]
        exact ⟨whole_stdinFrame (by decide) (by decide) 1, rfl, rfl⟩
      have hnext := (ih (by omega)).readFirst _ [] hgate (Nat.zero_le _) (Nat.le_of_eq hlen)
        (by simp) rfl hone
        (by simp only [List.flatMap_cons, List.flatMap_nil, List.append_nil, hlen]; decide)
      have hsum : m * readChunk + ([(⟨1, Tag.stdin.toByte, stdinFrame readChunk⟩ : Entry)].flatMap
          Entry.bytes).length = (m + 1) * readChunk := by
        simp only [List.flatMap_cons, List.flatMap_nil, List.append_nil, hlen]
        rw [Nat.add_one_mul]
      rw [hsum] at hnext
      unfold reads
      rw [List.replicate_succ', List.map_append, run_append]
      exact hnext

end

/-- The first steps, to the command's start. -/
theorem filling_start : Filling (run step (opened 0 fun _ => 0) ([.accept 0, .accept 0] ++
    reads 0 [execA] ++ [.pick, .push 14, .agentTake true])) 0 [] [] [] where
  first := ⟨_, rfl, rfl, rfl, by decide⟩
  second := ⟨_, rfl, rfl, rfl, by decide⟩
  fill := rfl
  ordered := by decide
  holder := rfl
  session := rfl
  agent := rfl
  fromCard := rfl

/-- The command's exit frees the card. -/
theorem Filling.freed {s : Control} {fill : Nat} {first second pending : List UInt8}
    (h : Filling s fill first second pending) :
    let u := (s.step (.agentOutput .exit)).step (.deliver true)
    u.session = .none ∧ u.holder = 0 ∧ u.slots = s.slots ∧ u.toCard = s.toCard := by
  have hexit : s.step (.agentOutput .exit) =
      { s with agent := none, fromCard := [⟨.exit, 1⟩] } := by
    show s.agentOutput .exit = _
    unfold agentOutput emit
    rw [h.agent, h.fromCard]
    rfl
  have hsend : ∀ (u : Control) id, u.sendTo id true = u := by
    intro u id
    unfold sendTo
    split
    · rfl
    · rfl
  intro u
  have hu : u = { s with agent := none, fromCard := [], session := .none, holder := 0 } := by
    show (s.step (.agentOutput .exit)).deliver true = _
    rw [hexit]
    unfold deliver
    simp [h.holder, hsend, Tag.terminal]
  rw [hu]
  exact ⟨rfl, rfl, rfl, rfl⟩

/-- There is no room then for what the other client has pending. -/
theorem Filling.overflows {s : Control} {fill : Nat} {first second pending : List UInt8}
    (h : Filling s fill first second pending) (hs : s.Sound) (hp : pending ≠ [])
    (hfull : toCardCap < fill + pending.length) :
    ¬ (run step s [.agentOutput .exit, .deliver true, .pick]).Fits := by
  obtain ⟨hsession, hholder, hslots, hcard⟩ := h.freed
  have hsound := ((hs.step (.agentOutput .exit)).1.step (.deliver true)).1
  obtain ⟨d, hfirst, -⟩ := h.first
  obtain ⟨e, hsecond, -⟩ := h.second
  have hpicks : ((s.step (.agentOutput .exit)).step (.deliver true)).Picks 1
      ⟨2, false, pending, e⟩ := by
    refine ⟨hsession, hholder, ?_, ?_⟩
    · rw [hslots, List.findIdx?_eq_some_iff_getElem]
      obtain ⟨hlt, hget⟩ := List.getElem?_eq_some_iff.mp hsecond
      refine ⟨hlt, ?_, ?_⟩
      · rw [hget]
        simp [waits, hp]
      · intro j hj
        obtain rfl : j = 0 := by omega
        rw [(List.getElem?_eq_some_iff.mp hfirst).2]
        simp [waits]
    · unfold At
      rw [hslots]
      exact hsecond
  intro hfits
  have hroom := (hsound.pickHolder.2.mp hfits.1).2 1 _ hpicks
  rw [hcard, h.fill] at hroom
  exact absurd hroom (Nat.not_le_of_lt hfull)

/-- Bytes are copied past the end of the buffer. -/
theorem pending_overflows : ¬ (run step (opened 0 fun _ => 0) fillsUp).Fits := by
  have hstart := filling_start.secondFrames (by decide)
  have hfull := (hstart.firstChunks (Nat.le_refl 31)).firstFrames (by decide)
  have hat := sound_run 0 (fun _ => 0) ([.accept 0, .accept 0] ++ reads 0 [execA] ++
    [.pick, .push 14, .agentTake true] ++ reads 1 (pieces 17) ++
      reads 0 (List.replicate 31 (stdinFrame readChunk)) ++ reads 0 (pieces 17))
  rw [← run_append, ← run_append, ← run_append] at hfull
  unfold fillsUp
  rw [run_append]
  refine hfull.overflows hat ?_ ?_
  · intro hnil
    have hlen := congrArg List.length hnil
    rw [length_twoFrames] at hlen
    exact absurd hlen (by decide)
  · rw [length_twoFrames]
    decide

end Control

end Phi.Serve
