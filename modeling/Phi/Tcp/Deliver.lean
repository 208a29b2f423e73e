import Phi.Tcp.Receiving

/-!
# Phi.Tcp.Deliver

Whether the host program gets every byte that was acknowledged to the card.

A byte is acknowledged as it enters the receive ring, and the ring is written
to the host socket a turn at a time.  The socket is ended for writing by a
turn that finds the card's FIN taken and the ring empty, but also by the turn
that finds the connection CLOSED, and that one does not look at the ring.  So
bytes are lost when a segment closes the connection over a ring that is not
empty.  `Delivers` is the condition on a segment that excludes this.
-/

namespace Phi.Tcp

/-! ## ends and breaks -/

/-- The host socket is ended for writing, or closed. -/
def Effect.ends : Effect → Bool
  | .shutWr => true
  | .shutRdWr => true
  | .closeFd => true
  | _ => false

/-- The connection is broken off: a reset, a failed write, too many resends. -/
def Effect.breaks : Effect → Bool
  | .reset => true
  | .hostFailed => true
  | .gaveUp => true
  | _ => false

/-- The host socket was ended. -/
def ended (tr : List Effect) : Bool := tr.any Effect.ends

/-- The connection was broken off. -/
def broken (tr : List Effect) : Bool := tr.any Effect.breaks

@[simp] theorem ended_append (tr es : List Effect) : ended (tr ++ es) = (ended tr || ended es) :=
  List.any_append

@[simp] theorem broken_append (tr es : List Effect) :
    broken (tr ++ es) = (broken tr || broken es) := List.any_append

/-- On a connection not broken off, the host socket is ended only with
everything taken so far written, and nothing is taken after. -/
def NoLossAt (pre : List Effect) (e : Effect) : Prop :=
  broken pre = false →
    (e.ends = true → written pre = stored pre) ∧ (e.storedBytes ≠ [] → ended pre = false)

/-- Nothing taken from the card is lost to the host. -/
def NoLoss (tr : List Effect) : Prop := written tr <+: stored tr ∧ Each NoLossAt tr

/-! ## the condition -/

/-- The segment closes the connection: our FIN's acknowledgement with the
peer's FIN taken before, or the peer's FIN with ours acknowledged. -/
def Conn.closedBy (c : Conn) (s : Segment) (t : Timespec) : Bool :=
  c.ackMoves s t && (c.state = .closing || c.state = .lastAck) ||
  c.takesFin s && (c.state = .finWait2 || c.state = .finWait1 && c.ackMoves s t)

/-- Payload comes only while the host socket takes it, and the segment that
closes the connection finds the ring empty and brings no payload. -/
def Conn.deliversOn (c : Conn) (s : Segment) (t : Timespec) : Bool :=
  (!c.takesPayload s || !c.hostShut && c.state ≠ .closed) &&
  (!c.closedBy s t || c.rbUsed = 0 && !c.takesPayload s)

/-- The condition on an event, of a connection in use and not broken off. -/
def Delivers (w : World) : Event → Bool
  | .segment s _ t => broken w.trace || w.conn.state = .free || s.has tcpRst ||
      w.conn.deliversOn s t
  | .turn _ => true

/-! ## the invariant -/

/-- The ring is what was taken and not written; on a connection not broken
off, the end of the host socket and the close find it empty. -/
structure DeliverInv (c : Conn) (tr : List Effect) : Prop where
  ring : ∃ lo content, RecvRing [] lo content c tr
  noLoss : Each NoLossAt tr
  endedShut : broken tr = false → ended tr = true → c.hostShut = true ∨ c.state = .free
  shutEmpty : broken tr = false → c.hostShut = true → c.rbUsed = 0
  closedEmpty : broken tr = false → c.state = .closed → c.rbUsed = 0

/-- Effects that neither take, hand on, end nor break anything. -/
def Plain (es : List Effect) : Prop :=
  ∀ e ∈ es, e.storedBytes = [] ∧ e.writtenBytes = [] ∧ e.ends = false ∧ e.breaks = false

section plain

variable {es : List Effect}

theorem Plain.recvQuiet (h : Plain es) : RecvQuiet es :=
  fun e he => ⟨(h e he).1, (h e he).2.1⟩

theorem Plain.ended (h : Plain es) : ended es = false := by
  simp only [Tcp.ended, List.any_eq_false, Bool.not_eq_true]
  exact fun e he => (h e he).2.2.1

theorem Plain.broken (h : Plain es) : broken es = false := by
  simp only [Tcp.broken, List.any_eq_false, Bool.not_eq_true]
  exact fun e he => (h e he).2.2.2

theorem OnlyEmits.plain (h : OnlyEmits es) : Plain es := by
  intro e he
  obtain ⟨s, rfl⟩ := h e he
  exact ⟨rfl, rfl, rfl, rfl⟩

theorem Plain.noLoss {tr : List Effect} (h : Plain es) (htr : Each NoLossAt tr) :
    Each NoLossAt (tr ++ es) := by
  refine each_append_of_forall htr fun e he pre => ?_
  obtain ⟨h1, -, h3, -⟩ := h e he
  intro _
  simp [h1, h3]

/-- With everything taken written, the host socket may be ended. -/
theorem noLoss_of_written {tr : List Effect} (htr : Each NoLossAt tr) (hes : RecvQuiet es)
    (hw : broken tr = false → written tr = stored tr) : Each NoLossAt (tr ++ es) := by
  rw [each_append]
  refine ⟨htr, fun pre e post he hb => ⟨fun _ => ?_, fun hs => ?_⟩⟩
  · have hq : RecvQuiet pre := fun x hx => hes x (by rw [he]; simp [hx])
    rw [broken_append, Bool.or_eq_false_iff] at hb
    rw [written_append, stored_append, hq.written, hq.stored, List.append_nil, List.append_nil]
    exact hw hb.1
  · exact absurd (hes e (by rw [he]; simp)).1 hs

end plain

section invariant

variable {c c' : Conn} {tr es : List Effect}

/-- An empty ring means that everything taken was written. -/
theorem RecvRing.written_eq {lo : Nat} {content : List UInt8}
    (h : RecvRing [] lo content c tr) (hempty : c.rbUsed = 0) : written tr = stored tr := by
  have hnil : content = [] := by
    rw [← List.length_eq_zero_iff, ← h.rbUsed]
    exact hempty
  have hstored := h.stored_eq
  rw [hnil, List.append_nil, List.nil_append] at hstored
  exact hstored.symm

/-- What leaves the receiving half alone, and does not close over bytes, keeps
the invariant. -/
theorem DeliverInv.congr (h : DeliverInv c tr) (hfree : c.state ≠ .free) (hsame : SameRecv c' c)
    (hes : Plain es) (hclosed : broken tr = false → c'.state = .closed → c.rbUsed = 0) :
    DeliverInv c' (tr ++ es) where
  ring := by
    obtain ⟨lo, content, hr⟩ := h.ring
    exact ⟨lo, content, hr.congr hsame hes.recvQuiet⟩
  noLoss := hes.noLoss h.noLoss
  endedShut hb he := by
    rw [broken_append, hes.broken, Bool.or_false] at hb
    rw [ended_append, hes.ended, Bool.or_false] at he
    rw [hsame.hostShut]
    obtain hs | hf := h.endedShut hb he
    · exact .inl hs
    · exact absurd hf hfree
  shutEmpty hb hs := by
    rw [broken_append, hes.broken, Bool.or_false] at hb
    rw [hsame.hostShut] at hs
    rw [hsame.rbUsed]
    exact h.shutEmpty hb hs
  closedEmpty hb hs := by
    rw [broken_append, hes.broken, Bool.or_false] at hb
    rw [hsame.rbUsed]
    exact hclosed hb hs

/-- Windows, timers and segments do not matter. -/
theorem DeliverInv.idle (h : DeliverInv c tr) (hfree : c.state ≠ .free) (hcore : SameCore c' c)
    (hes : OnlyEmits es) : DeliverInv c' (tr ++ es) :=
  h.congr hfree hcore.toSameRecv hes.plain fun hb hs => h.closedEmpty hb (hcore.state ▸ hs)

/-- Once the connection is broken off nothing more is promised. -/
theorem DeliverInv.of_broken (h : DeliverInv c tr) (hsame : SameRecv c' c) (hes : RecvQuiet es)
    (hends : ended es = false) (hbroken : broken es = true) : DeliverInv c' (tr ++ es) where
  ring := by
    obtain ⟨lo, content, hr⟩ := h.ring
    exact ⟨lo, content, hr.congr hsame hes⟩
  noLoss := by
    refine each_append_of_forall h.noLoss fun e he pre _ => ⟨fun hen => ?_, fun hst => ?_⟩
    · simp only [ended, List.any_eq_false] at hends
      exact absurd hen (hends e he)
    · exact absurd (hes e he).1 hst
  endedShut hb _ := by simp [hbroken] at hb
  shutEmpty hb _ := by simp [hbroken] at hb
  closedEmpty hb _ := by simp [hbroken] at hb

end invariant

/-! ## a turn -/

theorem deliverInv_writeHost (io : StepIO) : Keeps DeliverInv (writeHost io) := by
  intro c tr ⟨hfree, h⟩
  obtain ⟨hcore, hes⟩ | ⟨n, es, hn, hemit, hcore, hes⟩ |
    ⟨es, hemit, -, hsame, -, hst, hes⟩ := writeHost_spec io c
  · exact ⟨by rw [hcore.state]; exact hfree, h.idle hfree hcore (by simp [hes])⟩
  · obtain ⟨lo, content, hr⟩ := h.ring
    obtain ⟨-, hst, -⟩ := sameSend_advanceRb c n
    have hst' := hcore.state.trans hst
    obtain ⟨lo', hadv⟩ := hr.advanceRb hn hemit.onlyEmits
    have hbroken : broken (.hostWrite (c.frontBytes n) :: es) = false := by
      simpa [broken, Effect.breaks] using hemit.onlyEmits.plain.broken
    have hended : ended (.hostWrite (c.frontBytes n) :: es) = false := by
      simpa [ended, Effect.ends] using hemit.onlyEmits.plain.ended
    have hshut : (writeHost io c).conn.hostShut = c.hostShut := by
      rw [hcore.hostShut]
      unfold Conn.advanceRb
      dsimp only
      split
      · rfl
      · rfl
    -- a ring already empty stays so
    have hused : c.rbUsed = 0 → (writeHost io c).conn.rbUsed = 0 := by
      intro h0
      rw [hcore.toSameRecv.rbUsed, hadv.rbUsed, List.length_drop, ← hr.rbUsed, h0]
      omega
    refine ⟨by rw [hst']; exact hfree, ?_⟩
    rw [hes]
    exact { ring := ⟨lo', _, by
              simpa using hadv.congr hcore.toSameRecv (onlyEmits_nil.recvQuiet)⟩
            noLoss := by
              refine each_append_of_forall h.noLoss fun e he pre _ => ?_
              cases List.mem_cons.mp he with
              | inl heq => simp [heq, Effect.ends, Effect.storedBytes]
              | inr hmem =>
                  obtain ⟨h1, -, h3, -⟩ := hemit.onlyEmits.plain e hmem
                  simp [h1, h3]
            endedShut := fun hb he => by
              rw [broken_append, hbroken, Bool.or_false] at hb
              rw [ended_append, hended, Bool.or_false] at he
              rw [hshut, hst']
              exact h.endedShut hb he
            shutEmpty := fun hb hs => by
              rw [broken_append, hbroken, Bool.or_false] at hb
              rw [hshut] at hs
              exact hused (h.shutEmpty hb hs)
            closedEmpty := fun hb hs => by
              rw [broken_append, hbroken, Bool.or_false] at hb
              rw [hst'] at hs
              exact hused (h.closedEmpty hb hs) }
  · refine ⟨by simp [hst], ?_⟩
    rw [hes]
    refine h.of_broken hsame ?_ ?_ ?_
    · intro e he
      cases List.mem_append.mp he with
      | inl hl => exact hemit.onlyEmits.recvQuiet e hl
      | inr hr => simp [List.mem_singleton.mp hr, Effect.storedBytes, Effect.writtenBytes]
    · rw [ended_append, hemit.onlyEmits.plain.ended]
      rfl
    · rw [broken_append, hemit.onlyEmits.plain.broken]
      rfl

/-- The host socket is ended for writing only over an empty ring. -/
theorem deliverInv_shutHost : Keeps DeliverInv shutHost := by
  intro c tr ⟨hfree, h⟩
  obtain hr | ⟨-, -, hempty, hr⟩ := shutHost_spec c
  · rw [hr]
    simpa using ⟨hfree, h⟩
  · rw [hr]
    obtain ⟨lo, content, hring⟩ := h.ring
    have hused : c.rbUsed = 0 := by
      rw [hring.rbUsed, hring.tail_eq_head.mp hempty]
      rfl
    have hquiet : RecvQuiet [.shutWr] := by
      intro e he
      simp [List.mem_singleton.mp he, Effect.storedBytes, Effect.writtenBytes]
    have hring' := hring.congr (SameRecv.refl c) hquiet
    refine ⟨hfree, ?_⟩
    exact { ring := ⟨lo, content, hring'.head_eq, hring'.tail_eq, hring'.fits, hring'.holds,
              hring'.stored_eq⟩
            noLoss := noLoss_of_written h.noLoss hquiet fun _ => hring.written_eq hused
            endedShut := fun _ _ => .inl rfl
            shutEmpty := fun _ _ => hused
            closedEmpty := fun _ _ => hused }

theorem deliverInv_readHost (io : StepIO) : Keeps DeliverInv (readHost io) := by
  intro c tr ⟨hfree, h⟩
  obtain ⟨b, hr⟩ | ⟨bs, -, -, hr⟩ := readHost_spec io c
  · rw [hr]
    exact ⟨hfree, h.congr hfree ⟨rfl, rfl, rfl, rfl, rfl, rfl⟩ onlyEmits_nil.plain h.closedEmpty⟩
  · rw [hr]
    refine ⟨hfree, h.congr hfree ⟨rfl, rfl, rfl, rfl, rfl, rfl⟩ ?_ h.closedEmpty⟩
    intro e he
    simp [List.mem_singleton.mp he, Effect.storedBytes, Effect.writtenBytes, Effect.ends,
      Effect.breaks]

theorem deliverInv_sendData (io : StepIO) : Keeps DeliverInv (sendData io) := by
  intro c tr ⟨hfree, h⟩
  obtain ⟨hsame, hst, -, -, hemit⟩ := sendData_spec io c
  exact ⟨by rw [hst]; exact hfree,
    h.congr hfree hsame hemit.plain fun hb hs => h.closedEmpty hb (hst ▸ hs)⟩

theorem deliverInv_sendFin (io : StepIO) : Keeps DeliverInv (sendFin io) := by
  intro c tr ⟨hfree, h⟩
  obtain hr | ⟨-, -, -, -, hsame, -, hst, -, hes⟩ := sendFin_spec io c
  · rw [hr]
    simpa using ⟨hfree, h⟩
  · have hplain : Plain (sendFin io c).effects := by
      rw [hes]
      intro e he
      cases List.mem_append.mp he with
      | inl hl => exact (onlyEmits_sendSegment _ _ _ _ _).plain e hl
      | inr hr =>
          simp [List.mem_singleton.mp hr, Effect.storedBytes, Effect.writtenBytes, Effect.ends,
            Effect.breaks]
    have hne : (sendFin io c).conn.state ≠ .free ∧ (sendFin io c).conn.state ≠ .closed := by
      rw [hst]
      cases c.state <;> simp [finSentState]
    exact ⟨hne.1, h.congr hfree hsame hplain fun _ hs => absurd hs hne.2⟩

theorem deliverInv_retransmit (io : StepIO) : Keeps DeliverInv (retransmit io) := by
  intro c tr ⟨hfree, h⟩
  obtain hr | ⟨-, hsame, -, hst, hes⟩ | ⟨-, c', hcore, hr⟩ := retransmit_spec io c
  · rw [hr]
    simpa using ⟨hfree, h⟩
  · refine ⟨by simp [hst], ?_⟩
    rw [hes]
    refine h.of_broken hsame ?_ rfl rfl
    intro e he
    simp [List.mem_singleton.mp he, Effect.storedBytes, Effect.writtenBytes]
  · have hcore' := (sameCore_resend io c').trans hcore
    rw [hr]
    exact ⟨by rw [hcore'.state]; exact hfree, h.idle hfree hcore' (onlyEmits_resend io c')⟩

/-- A closed connection is released over an empty ring, or broken off. -/
theorem deliverInv_closeHost : Carries (InUse DeliverInv) DeliverInv closeHost := by
  intro c tr ⟨hfree, h⟩
  obtain ⟨-, hr⟩ | ⟨hst, hr⟩ := closeHost_spec c
  · rw [hr]
    simpa using h
  · rw [hr]
    obtain ⟨lo, content, hring⟩ := h.ring
    -- the effects only end the socket
    have hends : ∀ e ∈ (if c.fd < 0 then [Effect.shutRdWr] else [.shutRdWr, .closeFd]),
        e.storedBytes = [] ∧ e.writtenBytes = [] ∧ e.breaks = false := by
      intro e he
      split at he
      · simp at he
        simp [he, Effect.storedBytes, Effect.writtenBytes, Effect.breaks]
      · simp at he
        cases he with
        | inl h0 => simp [h0, Effect.storedBytes, Effect.writtenBytes, Effect.breaks]
        | inr h0 => simp [h0, Effect.storedBytes, Effect.writtenBytes, Effect.breaks]
    generalize (if c.fd < 0 then [Effect.shutRdWr] else [.shutRdWr, .closeFd]) = es at hends ⊢
    have hquiet : RecvQuiet es := fun e he => ⟨(hends e he).1, (hends e he).2.1⟩
    have hbroken : broken es = false := by
      simp only [broken, List.any_eq_false, Bool.not_eq_true]
      exact fun e he => (hends e he).2.2
    have hring' := hring.congr (SameRecv.refl c) hquiet
    exact { ring := ⟨lo, content, hring'.head_eq, hring'.tail_eq, hring'.fits, hring'.holds,
              hring'.stored_eq⟩
            noLoss := noLoss_of_written h.noLoss hquiet fun hb =>
              hring.written_eq (h.closedEmpty hb hst)
            endedShut := fun _ _ => .inr rfl
            shutEmpty := fun hb hs => by
              rw [broken_append, hbroken, Bool.or_false] at hb
              exact h.shutEmpty hb hs
            closedEmpty := fun _ hs => by simp at hs }

theorem deliverInv_connStep (io : StepIO) : Carries (InUse DeliverInv) DeliverInv (connStep io) :=
  carries_connStep (deliverInv_writeHost io) deliverInv_shutHost (deliverInv_readHost io)
    (deliverInv_sendData io) (deliverInv_sendFin io) (deliverInv_retransmit io)
    deliverInv_closeHost

/-! ## a segment -/

/-- A handshake segment touches neither the ring nor the host socket. -/
theorem deliverInv_applySynAck {mac : Bool} {s : Segment} {c : Conn} {tr : List Effect}
    (h : DeliverInv c tr) (hst : c.state = .synSent) :
    DeliverInv (applySynAck mac s c).conn (tr ++ (applySynAck mac s c).effects) := by
  unfold applySynAck
  split
  · refine DeliverInv.idle ?_ (by simp) (sameCore_sendAck mac _) (bare_sendAck mac _).onlyEmits
    obtain ⟨lo, content, hr⟩ := h.ring
    exact { ring := ⟨lo, content, hr.head_eq, hr.tail_eq, hr.fits, hr.holds, hr.stored_eq⟩
            noLoss := h.noLoss
            endedShut := fun hb he => by
              obtain hs | hf := h.endedShut hb he
              · exact .inl hs
              · simp [hst] at hf
            shutEmpty := h.shutEmpty
            closedEmpty := fun _ hs => by simp at hs }
  · simpa using h

/-- After a segment the connection is closed only if it was, or is closed by
the segment. -/
theorem closed_of_segment {mac : Bool} {t : Timespec} {s : Segment} {c : Conn}
    (h : (applyPayload mac s (applyAck s t c)).conn.state = .closed) :
    c.state = .closed ∨ c.closedBy s t = true := by
  rw [state_segment] at h
  unfold Conn.closedBy
  cases hack : c.ackMoves s t <;> cases hfin : c.takesFin s <;> cases hc : c.state <;>
    simp [hack, hfin, hc, finAckedState, finTakenState] at h ⊢

/-- After the payload come only effects that do not matter. -/
theorem effects_applyPayload (mac : Bool) {s : Segment} {c : Conn} (hseq : s.seq = c.rcvNxt) :
    ∃ es, Plain es ∧ (applyPayload mac s c).effects = (storePayload s c).effects ++ es := by
  obtain ⟨hne, -, -⟩ | ⟨-, -, es, hes, heff⟩ := applyPayload_spec mac s c
  · exact absurd hseq hne
  · refine ⟨_, ?_, by rw [heff, List.append_assoc]⟩
    intro e he
    cases List.mem_append.mp he with
    | inr hr => exact hes.onlyEmits.plain e hr
    | inl hl =>
        cases hfin : (storePayload s c).conn.finInOrder s with
        | false =>
            rw [takeFin_of_not_finInOrder s _ hfin] at hl
            simp at hl
        | true =>
            rw [takeFin_of_finInOrder s _ hfin] at hl
            simp [List.mem_singleton.mp hl, Effect.storedBytes, Effect.writtenBytes, Effect.ends,
              Effect.breaks]

/-- The receiving half after a segment in order: the ring holds what fitted. -/
theorem recv_applyPayload (mac : Bool) {s : Segment} {c : Conn} {tr : List Effect} {lo : Nat}
    {content init : List UInt8} (h : RecvRing init lo content c tr) (hseq : s.seq = c.rcvNxt) :
    RecvRing init lo (content ++ c.fitting s) (applyPayload mac s c).conn
      (tr ++ (applyPayload mac s c).effects) ∧
    (applyPayload mac s c).conn.hostShut = c.hostShut := by
  obtain ⟨hne, -, -⟩ | ⟨-, hcore, es, hes, heff⟩ := applyPayload_spec mac s c
  · exact absurd hseq hne
  · have hring := ((h.storePayload s).takeFin s).congr hcore.toSameRecv hes.onlyEmits.recvQuiet
    rw [heff]
    refine ⟨by simpa only [List.append_assoc] using hring, ?_⟩
    have h1 := (storePayload_recv s c).2.2.2.2.2
    rw [hcore.hostShut]
    cases hfin : (storePayload s c).conn.finInOrder s with
    | false =>
        rw [takeFin_of_not_finInOrder s _ hfin]
        exact h1
    | true =>
        rw [takeFin_of_finInOrder s _ hfin]
        exact h1

/-- What the condition asks of a segment. -/
theorem Conn.deliversOn_spec {s : Segment} {t : Timespec} {c : Conn}
    (h : c.deliversOn s t = true) :
    (c.takesPayload s = true → c.hostShut = false ∧ c.state ≠ .closed) ∧
    (c.closedBy s t = true → c.rbUsed = 0 ∧ c.takesPayload s = false) := by
  simp only [deliversOn, Bool.and_eq_true, Bool.or_eq_true, Bool.not_eq_true',
    decide_eq_true_eq] at h
  grind

section segment

variable {s : Segment} {t : Timespec} {c : Conn} {tr : List Effect}

/-- A segment that leaves the connection closed finds the ring empty and brings
no payload. -/
theorem DeliverInv.closed_segment {mac : Bool} (h : DeliverInv c tr) (hb : broken tr = false)
    (hsafe : c.deliversOn s t = true)
    (hs : (applyPayload mac s (applyAck s t c)).conn.state = .closed) :
    c.rbUsed = 0 ∧ c.takesPayload s = false := by
  obtain ⟨htake, hclose⟩ := Conn.deliversOn_spec hsafe
  obtain hc | hby := closed_of_segment hs
  · refine ⟨h.closedEmpty hb hc, ?_⟩
    cases hp : c.takesPayload s with
    | false => rfl
    | true => exact absurd hc (htake hp).2
  · exact hclose hby

/-- Payload taken while the host socket takes it comes before its end. -/
theorem DeliverInv.noLoss_stored (h : DeliverInv c tr) (hfree : c.state ≠ .free)
    (hseq : s.seq = c.rcvNxt)
    (hopen : broken tr = false → c.takesPayload s = true → c.hostShut = false) :
    Each NoLossAt (tr ++ if c.fitting s = [] then [] else [.stored (c.fitting s)]) := by
  split
  · simpa using h.noLoss
  · next hne =>
      rw [each_append, each_singleton, List.append_nil]
      refine ⟨h.noLoss, fun hb => ⟨(by cases ·), fun _ => ?_⟩⟩
      have htake : c.takesPayload s = true := by
        cases htake : c.takesPayload s with
        | false => exact absurd ((fitting_eq_nil_iff hseq).mpr htake) hne
        | true => rfl
      cases hen : ended tr with
      | false => rfl
      | true =>
          obtain hs | hf := h.endedShut hb hen
          · simp [hopen hb htake] at hs
          · exact absurd hf hfree

/-- A segment in order that delivers keeps the invariant. -/
theorem deliverInv_inOrder {mac : Bool} (h : DeliverInv c tr) (hfree : c.state ≠ .free)
    (hsafe : broken tr = false → c.deliversOn s t = true) (hseq : s.seq = c.rcvNxt) :
    DeliverInv (applyPayload mac s (applyAck s t c)).conn
      (tr ++ (applyPayload mac s (applyAck s t c)).effects) := by
  have hrecv := sameRecv_applyAck t s c
  have hseq1 : s.seq = (applyAck s t c).rcvNxt := hseq.trans hrecv.rcvNxt.symm
  have hopen : broken tr = false → c.takesPayload s = true → c.hostShut = false :=
    fun hb htake => ((Conn.deliversOn_spec (hsafe hb)).1 htake).1
  obtain ⟨lo, content, hring⟩ := h.ring
  have hring1 := hring.congr hrecv onlyEmits_nil.recvQuiet
  rw [List.append_nil] at hring1
  obtain ⟨hring2, hshut⟩ := recv_applyPayload mac hring1 hseq1
  rw [hrecv.fitting] at hring2
  rw [hrecv.hostShut] at hshut
  -- with no payload taken, an empty ring stays empty
  have hused : c.rbUsed = 0 → c.takesPayload s = false →
      (applyPayload mac s (applyAck s t c)).conn.rbUsed = 0 := by
    intro h0 htake
    rw [hring2.rbUsed, (fitting_eq_nil_iff hseq).mpr htake, List.append_nil, ← hring.rbUsed]
    exact h0
  obtain ⟨es, hes, heff⟩ := effects_applyPayload mac hseq1
  rw [effects_storePayload_eq, hrecv.fitting] at heff
  have hplain : ended (applyPayload mac s (applyAck s t c)).effects = false ∧
      broken (applyPayload mac s (applyAck s t c)).effects = false := by
    rw [heff, ended_append, broken_append, hes.ended, hes.broken]
    split
    · exact ⟨rfl, rfl⟩
    · exact ⟨rfl, rfl⟩
  exact { ring := ⟨lo, _, hring2⟩
          noLoss := by
            rw [heff, ← List.append_assoc]
            exact hes.noLoss (h.noLoss_stored hfree hseq hopen)
          endedShut := fun hb he => by
            rw [broken_append, hplain.2, Bool.or_false] at hb
            rw [ended_append, hplain.1, Bool.or_false] at he
            rw [hshut]
            obtain hs | hf := h.endedShut hb he
            · exact .inl hs
            · exact absurd hf hfree
          shutEmpty := fun hb hs => by
            rw [broken_append, hplain.2, Bool.or_false] at hb
            rw [hshut] at hs
            refine hused (h.shutEmpty hb hs) ?_
            cases htake : c.takesPayload s with
            | false => rfl
            | true => simp [hopen hb htake] at hs
          closedEmpty := fun hb hs => by
            rw [broken_append, hplain.2, Bool.or_false] at hb
            obtain ⟨h0, htake⟩ := h.closed_segment hb (hsafe hb) hs
            exact hused h0 htake }

/-- A segment that delivers keeps the invariant. -/
theorem deliverInv_segment {mac : Bool} (h : DeliverInv c tr) (hfree : c.state ≠ .free)
    (hsafe : broken tr = false → c.deliversOn s t = true) :
    DeliverInv (applyPayload mac s (applyAck s t c)).conn
      (tr ++ (applyPayload mac s (applyAck s t c)).effects) := by
  have hrecv := sameRecv_applyAck t s c
  by_cases hseq : s.seq = c.rcvNxt
  · exact deliverInv_inOrder h hfree hsafe hseq
  · obtain ⟨-, hcore, hes⟩ | ⟨hseq1, -⟩ := applyPayload_spec mac s (applyAck s t c)
    · exact h.congr hfree (hcore.toSameRecv.trans hrecv) hes.onlyEmits.plain
        fun hb hs => (h.closed_segment hb (hsafe hb) hs).1
    · exact absurd (hseq1.trans hrecv.rcvNxt) hseq

end segment

/-- **One event keeps the invariant** under the condition. -/
theorem deliverInv_step {w : World} {e : Event} (h : w.Satisfies DeliverInv)
    (hsafe : Delivers w e = true) : (w.step e).Satisfies DeliverInv := by
  refine satisfies_step h ?_ fun io _ => deliverInv_connStep io
  rintro s mac t rfl hfree
  have h' : DeliverInv w.conn w.trace := h
  unfold tcpIn
  cases hrst : s.has tcpRst with
  | true =>
      simp only [if_true]
      obtain ⟨lo, content, hr⟩ := h'.ring
      exact { ring := ⟨lo, content, hr.head_eq, hr.tail_eq, hr.fits, hr.holds, by
                simpa [stored, written, Effect.storedBytes, Effect.writtenBytes]
                  using hr.stored_eq⟩
              noLoss := each_append_of_forall h'.noLoss fun e he pre _ => by
                simp [List.mem_singleton.mp he, Effect.ends, Effect.storedBytes]
              endedShut := fun hb _ => by simp [broken, Effect.breaks] at hb
              shutEmpty := fun hb _ => by simp [broken, Effect.breaks] at hb
              closedEmpty := fun hb _ => by simp [broken, Effect.breaks] at hb }
  | false =>
      by_cases hsyn : w.conn.state = .synSent
      · simpa [hsyn] using deliverInv_applySynAck h' hsyn
      · simp only [Bool.false_eq_true, if_false, hsyn]
        refine deliverInv_segment h' hfree fun hb => ?_
        simpa [Delivers, hb, hfree, hrst] using hsafe

theorem deliverInv_opened (old : Conn) (fd : Int) (lport rport : Nat) (iss : W32) :
    (opened old fd lport rport iss).Satisfies DeliverInv where
  ring := ⟨0, [], rfl, rfl, Nat.zero_le _, Circular.holds_nil _ _ _, rfl⟩
  noLoss := each_nil _
  endedShut _ h := by simp [opened, ended] at h
  shutEmpty _ h := by simp [opened, openConn] at h
  closedEmpty _ h := by simp [opened, openConn] at h

/-! ## nothing is lost -/

/-- **No byte acknowledged to the card is lost to the host program** in a run
whose segments meet the condition. -/
theorem nothing_lost (old : Conn) (fd : Int) (lport rport : Nat) (iss : W32) (es : List Event)
    (h : Along World.step (fun w e => Delivers w e = true) (opened old fd lport rport iss) es) :
    NoLoss (run World.step (opened old fd lport rport iss) es).trace := by
  have hinv := run_inv (fun w e hw hc => deliverInv_step hw hc)
    (deliverInv_opened old fd lport rport iss) h
  obtain ⟨lo, content, hring⟩ := hinv.ring
  have hstored := hring.stored_eq
  rw [List.nil_append] at hstored
  exact ⟨⟨content, hstored.symm⟩, hinv.noLoss⟩

/-- A connection both of whose ends finish, ours first: two bytes come from
the card, `turns` follow, then the card's FIN and one more turn. -/
def lastBytesRun (turns : List Event) : List Event :=
  [.segment (cardSegment 5000#32 1001#32 (tcpSyn ||| tcpAck) [] nothing_fits) true ⟨0, 0⟩,
   .turn hostEnds,
   .segment (cardSegment 5001#32 1002#32 tcpAck [] nothing_fits) true ⟨7, 1002⟩,
   .segment (cardSegment 5001#32 1002#32 (tcpAck ||| tcpPsh) [104, 105] (by decide)) true
     ⟨7, 1002⟩] ++ turns ++
  [.segment (cardSegment 5003#32 1002#32 (tcpFin ||| tcpAck) [] nothing_fits) true ⟨7, 1002⟩,
   .turn quietTurn]

/-- A host program that takes the two bytes before the FIN loses nothing. -/
theorem nothing_lost_prompt :
    NoLoss (run World.step (opened emptySlot 5 22 40000 1000#32)
      (lastBytesRun [.turn { quietTurn with write := .wrote 2 }])).trace :=
  nothing_lost emptySlot 5 22 40000 1000#32 _ (by decide +kernel)

/-- A host program that is slow loses both: they are acknowledged and waiting
when the card's FIN closes the connection, and the next turn ends the socket. -/
theorem slow_host_loses :
    ¬NoLoss (run World.step (opened emptySlot 5 22 40000 1000#32)
      (lastBytesRun [.turn quietTurn])).trace := by
  intro ⟨_, h⟩
  have htrace : (run World.step (opened emptySlot 5 22 40000 1000#32)
      (lastBytesRun [.turn quietTurn])).trace =
        [.emit ⟨1001#32, 5001#32, tcpAck, 65535, []⟩,
         .emit ⟨1001#32, 5001#32, tcpFin ||| tcpAck, 65535, []⟩, .finSent,
         .stored [104, 105], .emit ⟨1002#32, 5003#32, tcpAck, 65534, []⟩,
         .finTaken, .emit ⟨1002#32, 5004#32, tcpAck, 65534, []⟩] ++ .shutRdWr :: [.closeFd] := by
    decide +kernel
  have hlost := h _ _ _ htrace (by decide)
  exact absurd (hlost.1 rfl) (by decide)

end Phi.Tcp
