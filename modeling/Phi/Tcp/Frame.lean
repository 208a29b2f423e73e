import Phi.Lib.Run
import Phi.Lib.Trace
import Phi.Tcp.Step

/-!
# Phi.Tcp.Frame

What each routine of a connection leaves alone.

The record has a sending half, a receiving half, and the state that both
share.  A routine works on one half: `SameSend` and `SameRecv` say that the
other is untouched, and the lemmas below say it of every routine, so that an
invariant of one half looks only at the routines that work on it.  `Keeps`
carries an invariant of the connection and its history through the parts of a
turn.
-/

namespace Phi.Tcp

open Circular

/-! ## the two halves -/

/-- The sending half is untouched. -/
structure SameSend (c' c : Conn) : Prop where
  sndUna : c'.sndUna = c.sndUna
  sndNxt : c'.sndNxt = c.sndNxt
  sbHead : c'.sbHead = c.sbHead
  sbTail : c'.sbTail = c.sbTail
  finSeq : c'.finSeq = c.finSeq
  sndBuf : c'.sndBuf = c.sndBuf

/-- The receiving half is untouched. -/
structure SameRecv (c' c : Conn) : Prop where
  rcvNxt : c'.rcvNxt = c.rcvNxt
  rbHead : c'.rbHead = c.rbHead
  rbTail : c'.rbTail = c.rbTail
  rcvBuf : c'.rcvBuf = c.rcvBuf
  cardEof : c'.cardEof = c.cardEof
  hostShut : c'.hostShut = c.hostShut

/-- Only windows and timers moved. -/
structure SameCore (c' c : Conn) : Prop extends SameSend c' c, SameRecv c' c where
  state : c'.state = c.state
  fd : c'.fd = c.fd

section halves

variable {a b c : Conn}

@[simp] theorem SameSend.refl (c : Conn) : SameSend c c := ⟨rfl, rfl, rfl, rfl, rfl, rfl⟩

@[simp] theorem SameRecv.refl (c : Conn) : SameRecv c c := ⟨rfl, rfl, rfl, rfl, rfl, rfl⟩

theorem SameSend.trans (h : SameSend a b) (h' : SameSend b c) : SameSend a c :=
  ⟨h.1.trans h'.1, h.2.trans h'.2, h.3.trans h'.3, h.4.trans h'.4, h.5.trans h'.5, h.6.trans h'.6⟩

theorem SameRecv.trans (h : SameRecv a b) (h' : SameRecv b c) : SameRecv a c :=
  ⟨h.1.trans h'.1, h.2.trans h'.2, h.3.trans h'.3, h.4.trans h'.4, h.5.trans h'.5, h.6.trans h'.6⟩

@[simp] theorem SameCore.refl (c : Conn) : SameCore c c := ⟨.refl c, .refl c, rfl, rfl⟩

theorem SameCore.trans (h : SameCore a b) (h' : SameCore b c) : SameCore a c :=
  ⟨h.1.trans h'.1, h.2.trans h'.2, h.3.trans h'.3, h.4.trans h'.4⟩

theorem SameSend.inFlight (h : SameSend a b) : a.inFlight = b.inFlight := by
  rw [Conn.inFlight, Conn.inFlight, h.sndNxt, h.sndUna]

theorem SameSend.sbUsed (h : SameSend a b) : a.sbUsed = b.sbUsed := by
  rw [Conn.sbUsed, Conn.sbUsed, h.sbHead, h.sbTail]

theorem SameRecv.rbFree (h : SameRecv a b) : a.rbFree = b.rbFree := by
  rw [Conn.rbFree, Conn.rbFree, h.rbHead, h.rbTail]

theorem SameRecv.rbUsed (h : SameRecv a b) : a.rbUsed = b.rbUsed := by
  rw [Conn.rbUsed, Conn.rbUsed, h.rbHead, h.rbTail]

end halves

/-! ## emissions -/

/-- Nothing but segments goes out. -/
def OnlyEmits (es : List Effect) : Prop := ∀ e ∈ es, ∃ s, e = .emit s

@[simp] theorem onlyEmits_nil : OnlyEmits [] := by
  intro e he
  simp at he

@[simp] theorem onlyEmits_emit (s : OutSegment) : OnlyEmits [.emit s] := by
  intro e he
  exact ⟨s, by simpa using he⟩

theorem OnlyEmits.append {es fs : List Effect} (h : OnlyEmits es) (h' : OnlyEmits fs) :
    OnlyEmits (es ++ fs) := by
  intro e he
  cases List.mem_append.mp he with
  | inl hl => exact h e hl
  | inr hr => exact h' e hr

/-- A segment with neither payload nor FIN. -/
def OutSegment.bare (s : OutSegment) : Bool := s.payload = [] && s.flags &&& tcpFin = 0#8

/-- Nothing but segments with neither payload nor FIN goes out. -/
def Bare (es : List Effect) : Prop := ∀ e ∈ es, ∃ s : OutSegment, e = .emit s ∧ s.bare = true

@[simp] theorem bare_nil : Bare [] := by
  intro e he
  simp at he

theorem Bare.onlyEmits {es : List Effect} (h : Bare es) : OnlyEmits es := by
  intro e he
  obtain ⟨s, hs, -⟩ := h e he
  exact ⟨s, hs⟩

theorem not_finTaken_mem_of_onlyEmits {es : List Effect} (h : OnlyEmits es) :
    .finTaken ∉ es := by
  intro hmem
  obtain ⟨s, hs⟩ := h _ hmem
  cases hs

theorem not_finSent_mem_of_onlyEmits {es : List Effect} (h : OnlyEmits es) :
    .finSent ∉ es := by
  intro hmem
  obtain ⟨s, hs⟩ := h _ hmem
  cases hs

section sending

variable (mac : Bool) (flags : BitVec 8) (bs : List UInt8) (q : W32) (t : Timespec) (c : Conn)

@[simp] theorem sameCore_armRto : SameCore (armRto t c) c :=
  ⟨⟨rfl, rfl, rfl, rfl, rfl, rfl⟩, ⟨rfl, rfl, rfl, rfl, rfl, rfl⟩, rfl, rfl⟩

/-- The window advertised last, after a segment was offered to the card. -/
theorem conn_sendSegment : (sendSegment mac flags bs q c).conn =
    { c with advWnd := if mac then c.window else c.advWnd } := by
  unfold sendSegment
  cases mac with
  | false => simp
  | true => simp

/-- The segment goes out once the card's MAC is known. -/
theorem effects_sendSegment : (sendSegment mac flags bs q c).effects =
    if mac then [.emit ⟨q, c.rcvNxt, flags, c.window, bs⟩] else [] := by
  unfold sendSegment
  cases mac with
  | false => simp
  | true => simp

theorem sameCore_sendSegment : SameCore (sendSegment mac flags bs q c).conn c := by
  rw [conn_sendSegment]
  exact ⟨⟨rfl, rfl, rfl, rfl, rfl, rfl⟩, ⟨rfl, rfl, rfl, rfl, rfl, rfl⟩, rfl, rfl⟩

theorem onlyEmits_sendSegment : OnlyEmits (sendSegment mac flags bs q c).effects := by
  rw [effects_sendSegment]
  cases mac with
  | false => simp
  | true => simp

theorem sameCore_sendAck : SameCore (sendAck mac c).conn c := sameCore_sendSegment mac _ _ _ c

/-- A segment offered without payload and FIN. -/
theorem bare_sendSegment (h : flags &&& tcpFin = 0#8) :
    Bare (sendSegment mac flags [] q c).effects := by
  rw [effects_sendSegment]
  cases mac with
  | false => simp
  | true =>
      intro e he
      exact ⟨_, List.mem_singleton.mp he, by simp [OutSegment.bare, h]⟩

theorem bare_sendAck : Bare (sendAck mac c).effects := bare_sendSegment mac _ _ c rfl

theorem sameCore_sendSyn : SameCore (sendSyn mac t c).conn c :=
  (sameCore_armRto t _).trans (sameCore_sendSegment mac _ _ _ c)

end sending

/-! ## tcp_in -/

section input

variable (mac : Bool) (t : Timespec) (s : Segment) (c : Conn)

/-- An acknowledgement that is not taken moves only the window. -/
theorem applyAck_of_not_takesAck (h : c.takesAck s = false) :
    applyAck s t c = { c with sndWnd := if s.has tcpAck then s.wnd else c.sndWnd } := by
  have h' : { c with sndWnd := s.wnd }.takesAck s = false := h
  unfold applyAck
  cases hack : s.has tcpAck with
  | false => simp
  | true => simp [h']

theorem sameCore_applyAck (h : c.takesAck s = false) : SameCore (applyAck s t c) c := by
  rw [applyAck_of_not_takesAck t s c h]
  exact ⟨⟨rfl, rfl, rfl, rfl, rfl, rfl⟩, ⟨rfl, rfl, rfl, rfl, rfl, rfl⟩, rfl, rfl⟩

/-- An acknowledgement that is taken moves the send ring and may change the
state. -/
theorem applyAck_of_takesAck (h : c.takesAck s = true) :
    applyAck s t c = { c with
      sndWnd := s.wnd
      sndUna := s.ackNo
      sbHead := c.sbHead + (c.ackedBytes s).setWidth 64
      retries := 0
      rto := rtoMs
      rtoAt := nowMs t + rtoMs
      state := if c.finAckSeen t then finAckedState c.state else c.state } := by
  have hack : s.has tcpAck = true := by
    simp only [Conn.takesAck, Bool.and_eq_true] at h
    exact h.1.1
  have htake : { c with sndWnd := s.wnd }.takesAck s = true := h
  have hseen : (armRto t ({ c with sndWnd := s.wnd }.ackTo s)).finAckSeen t = c.finAckSeen t := rfl
  unfold applyAck
  rw [if_pos hack]
  dsimp only
  rw [if_pos htake, hseen]
  cases c.finAckSeen t with
  | false => rfl
  | true => rfl

theorem sameRecv_applyAck : SameRecv (applyAck s t c) c := by
  cases h : c.takesAck s with
  | false => exact (sameCore_applyAck t s c h).toSameRecv
  | true =>
      rw [applyAck_of_takesAck t s c h]
      exact ⟨rfl, rfl, rfl, rfl, rfl, rfl⟩

/-- The state after the acknowledgement. -/
theorem state_applyAck : (applyAck s t c).state =
    if c.takesAck s && c.finAckSeen t then finAckedState c.state else c.state := by
  cases h : c.takesAck s with
  | false => simp [applyAck_of_not_takesAck t s c h]
  | true => simp [applyAck_of_takesAck t s c h]

/-- Only a free slot is free after the acknowledgement, and only an opening
one opening. -/
theorem state_applyAck_ne {st : State} (hst : st = .free ∨ st = .synSent) (h : c.state ≠ st) :
    (applyAck s t c).state ≠ st := by
  rw [state_applyAck]
  split
  · cases hc : c.state <;> simp [hc, finAckedState] at h ⊢ <;> grind
  · exact h

/-- What of the payload fits the receive ring. -/
theorem effects_storePayload : (storePayload s c).effects =
    if min s.payload.length c.rbFree = 0 then [] else
      [.stored (s.payload.take (min s.payload.length c.rbFree))] := by
  unfold storePayload
  dsimp only
  split
  · rfl
  · rfl

theorem sameSend_storePayload : SameSend (storePayload s c).conn c ∧
    (storePayload s c).conn.state = c.state ∧ (storePayload s c).conn.fd = c.fd := by
  unfold storePayload
  dsimp only
  split
  · exact ⟨.refl c, rfl, rfl⟩
  · exact ⟨⟨rfl, rfl, rfl, rfl, rfl, rfl⟩, rfl, rfl⟩

/-- The segment carries the peer's FIN, and everything before it has been
taken. -/
def Conn.finInOrder (c : Conn) (s : Segment) : Bool :=
  s.has tcpFin && s.seq + BitVec.ofNat 32 s.payload.length = c.rcvNxt

theorem takeFin_of_not_finInOrder (h : c.finInOrder s = false) : takeFin s c = .pure c := by
  unfold takeFin
  rw [if_neg]
  simpa [Conn.finInOrder] using h

theorem takeFin_of_finInOrder (h : c.finInOrder s = true) : takeFin s c =
    ⟨{ c with
        rcvNxt := c.rcvNxt + 1#32, cardEof := true, state := finTakenState c.state },
      [.finTaken], false⟩ := by
  unfold takeFin
  rw [if_pos]
  simpa [Conn.finInOrder] using h

theorem sameSend_takeFin : SameSend (takeFin s c).conn c ∧ (takeFin s c).conn.fd = c.fd := by
  cases h : c.finInOrder s with
  | false =>
      rw [takeFin_of_not_finInOrder s c h]
      exact ⟨.refl c, rfl⟩
  | true =>
      rw [takeFin_of_finInOrder s c h]
      exact ⟨⟨rfl, rfl, rfl, rfl, rfl, rfl⟩, rfl⟩

/-- Out of order nothing is taken; in order the payload and then the FIN are,
and only an acknowledgement may follow. -/
theorem applyPayload_spec :
    (s.seq ≠ c.rcvNxt ∧ SameCore (applyPayload mac s c).conn c ∧
      Bare (applyPayload mac s c).effects) ∨
    (s.seq = c.rcvNxt ∧
      SameCore (applyPayload mac s c).conn (takeFin s (storePayload s c).conn).conn ∧
      ∃ es, Bare es ∧ (applyPayload mac s c).effects =
        (storePayload s c).effects ++ (takeFin s (storePayload s c).conn).effects ++ es) := by
  unfold applyPayload
  by_cases hseq : s.seq = c.rcvNxt
  · right
    rw [if_pos hseq]
    refine ⟨hseq, ?_⟩
    dsimp only
    split
    · exact ⟨.refl _, [], bare_nil, by simp⟩
    · exact ⟨sameCore_sendAck mac _, _, bare_sendAck mac _, rfl⟩
  · left
    rw [if_neg hseq]
    exact ⟨hseq, sameCore_sendAck mac c, bare_sendAck mac c⟩

theorem sameSend_applyPayload : SameSend (applyPayload mac s c).conn c ∧
    (applyPayload mac s c).conn.fd = c.fd := by
  obtain ⟨-, h, -⟩ | ⟨-, h, -⟩ := applyPayload_spec mac s c
  · exact ⟨h.toSameSend, h.fd⟩
  · obtain ⟨h1, -, h2⟩ := sameSend_storePayload s c
    obtain ⟨h3, h4⟩ := sameSend_takeFin s (storePayload s c).conn
    exact ⟨h.toSameSend.trans (h3.trans h1), h.fd.trans (h4.trans h2)⟩

end input

/-- The state after the payload is the one before it, moved on by a FIN taken. -/
theorem state_applyPayload (mac : Bool) (s : Segment) (c : Conn) :
    (applyPayload mac s c).conn.state =
      if .finTaken ∈ (applyPayload mac s c).effects then finTakenState c.state else c.state := by
  obtain ⟨-, hcore, hes⟩ | ⟨-, hcore, es, hes, heff⟩ := applyPayload_spec mac s c
  · rw [if_neg (not_finTaken_mem_of_onlyEmits hes.onlyEmits), hcore.state]
  · have hnot := not_finTaken_mem_of_onlyEmits hes.onlyEmits
    have hstore : .finTaken ∉ (storePayload s c).effects := by
      rw [effects_storePayload]
      split
      · simp
      · simp
    have hst := (sameSend_storePayload s c).2.1
    rw [hcore.state, heff]
    cases hfin : (storePayload s c).conn.finInOrder s with
    | false =>
        rw [takeFin_of_not_finInOrder s _ hfin, if_neg (by simp [hnot, hstore])]
        exact hst
    | true =>
        rw [takeFin_of_finInOrder s _ hfin, if_pos (by simp)]
        show finTakenState (storePayload s c).conn.state = finTakenState c.state
        rw [hst]

/-! ## conn_step -/

section turn

variable (io : StepIO) (c : Conn)

theorem sameCore_windowUpdate : SameCore (windowUpdate io.mac c).conn c := by
  unfold windowUpdate
  split
  · exact sameCore_sendAck io.mac c
  · exact .refl c

theorem bare_windowUpdate : Bare (windowUpdate io.mac c).effects := by
  unfold windowUpdate
  split
  · exact bare_sendAck io.mac c
  · exact bare_nil

theorem sameSend_advanceRb (n : Nat) : SameSend (c.advanceRb n) c ∧
    (c.advanceRb n).state = c.state ∧ (c.advanceRb n).fd = c.fd := by
  unfold Conn.advanceRb
  dsimp only
  split
  · exact ⟨⟨rfl, rfl, rfl, rfl, rfl, rfl⟩, rfl, rfl⟩
  · exact ⟨⟨rfl, rfl, rfl, rfl, rfl, rfl⟩, rfl, rfl⟩

/-- The bytes a write takes from the front of the receive ring. -/
def Conn.frontBytes (c : Conn) (n : Nat) : List UInt8 :=
  read c.rcvBuf (c.rbHead.toNat % rcvCap) n

/-- The write to the host does nothing, hands on the front of the receive
ring, or breaks the connection off. -/
theorem writeHost_spec :
    (SameCore (writeHost io c).conn c ∧ (writeHost io c).effects = []) ∨
    (∃ n es, n ≤ c.rbPiece ∧ Bare es ∧ SameCore (writeHost io c).conn (c.advanceRb n) ∧
      (writeHost io c).effects = .hostWrite (c.frontBytes n) :: es) ∨
    (∃ es, Bare es ∧ SameSend (writeHost io c).conn c ∧ SameRecv (writeHost io c).conn c ∧
      (writeHost io c).conn.fd = c.fd ∧ (writeHost io c).conn.state = .closed ∧
      (writeHost io c).effects = es ++ [.hostFailed]) := by
  unfold writeHost
  split
  · exact .inl ⟨.refl c, rfl⟩
  · cases io.write with
    | wrote n =>
        exact .inr (.inl ⟨min n c.rbPiece, _, Nat.min_le_right _ _, bare_windowUpdate io _,
          sameCore_windowUpdate io _, rfl⟩)
    | again => exact .inl ⟨.refl c, rfl⟩
    | failed =>
        have h := sameCore_sendSegment io.mac tcpRst [] c.sndNxt c
        exact .inr (.inr ⟨_, bare_sendSegment io.mac _ _ c rfl,
          ⟨h.sndUna, h.sndNxt, h.sbHead, h.sbTail, h.finSeq, h.sndBuf⟩,
          ⟨h.rcvNxt, h.rbHead, h.rbTail, h.rcvBuf, h.cardEof, h.hostShut⟩, h.fd, rfl, rfl⟩)

/-- The end of the host's input is passed on, or nothing happens. -/
theorem shutHost_spec :
    (shutHost c = .pure c) ∨
    (c.cardEof = true ∧ c.hostShut = false ∧ c.rbTail = c.rbHead ∧
      shutHost c = ⟨{ c with hostShut := true }, [.shutWr], false⟩) := by
  unfold shutHost
  split
  · next h => exact .inr ⟨h.1, h.2.1, h.2.2, rfl⟩
  · exact .inl rfl

/-- The read notes the end of the host's side, appends to the send ring while
data is still sent, or does nothing. -/
theorem readHost_spec :
    (∃ b, readHost io c = .pure { c with hostEof := b }) ∨
    (∃ bs, c.sends = true ∧ bs.length ≤ c.sbPiece ∧ readHost io c = ⟨{ c with
      sndBuf := write c.sndBuf (c.sbTail.toNat % sndCap) bs
      sbTail := c.sbTail + BitVec.ofNat 64 bs.length }, [.hostRead bs], true⟩) := by
  unfold readHost
  split
  · exact .inl ⟨c.hostEof, rfl⟩
  · next h =>
      cases io.read with
      | again => exact .inl ⟨c.hostEof, rfl⟩
      | failed => exact .inl ⟨true, rfl⟩
      | data bs =>
          dsimp only
          split
          · exact .inl ⟨true, rfl⟩
          · have hsends : c.sends = true := by
              cases hs : c.sends with
              | false => exact absurd (.inr (.inl hs)) h
              | true => rfl
            exact .inr ⟨bs.take c.sbPiece, hsends, List.length_take_le _ _, rfl⟩

theorem nextLen_le_unsent : c.nextLen ≤ c.unsent := by
  unfold Conn.nextLen
  omega

theorem sbPiece_le_sbFree : c.sbPiece ≤ c.sbFree := Nat.min_le_left _ _

/-- One segment: `sndNxt` passes its bytes. -/
theorem sendOne_spec :
    SameRecv (sendOne io c).conn c ∧ (sendOne io c).conn.state = c.state ∧
    (sendOne io c).conn.fd = c.fd ∧
    SameSend (sendOne io c).conn { c with sndNxt := c.sndNxt + BitVec.ofNat 32 c.nextLen } ∧
    (sendOne io c).conn.hostEof = c.hostEof ∧
    (sendOne io c).effects = (sendSegment io.mac (tcpAck ||| tcpPsh)
      (read c.sndBuf (c.nextIndex.toNat % sndCap) c.nextLen) c.sndNxt c).effects := by
  unfold sendOne
  simp only [Res.conn_bind, Res.effects_bind, conn_sendSegment, List.append_nil, and_true]
  split
  · exact ⟨⟨rfl, rfl, rfl, rfl, rfl, rfl⟩, rfl, rfl, ⟨rfl, rfl, rfl, rfl, rfl, rfl⟩, rfl⟩
  · exact ⟨⟨rfl, rfl, rfl, rfl, rfl, rfl⟩, rfl, rfl, ⟨rfl, rfl, rfl, rfl, rfl, rfl⟩, rfl⟩

/-- Segments out move only `sndNxt`. -/
theorem sendLoop_spec (quota : Nat) :
    let r := sendLoop io quota c
    SameRecv r.conn c ∧ r.conn.state = c.state ∧ r.conn.fd = c.fd ∧
      SameSend r.conn { c with sndNxt := r.conn.sndNxt } ∧ OnlyEmits r.effects := by
  induction quota generalizing c with
  | zero => exact ⟨.refl c, rfl, rfl, .refl c, onlyEmits_nil⟩
  | succ quota ih =>
      unfold sendLoop
      split
      · exact ⟨.refl c, rfl, rfl, .refl c, onlyEmits_nil⟩
      · obtain ⟨h1, h2, h3, h4, -, h6⟩ := sendOne_spec io c
        obtain ⟨k1, k2, k3, k4, k5⟩ := ih (sendOne io c).conn
        refine ⟨k1.trans h1, k2.trans h2, k3.trans h3, ?_, ?_⟩
        · exact ⟨k4.sndUna.trans h4.sndUna, rfl, k4.sbHead.trans h4.sbHead,
            k4.sbTail.trans h4.sbTail, k4.finSeq.trans h4.finSeq, k4.sndBuf.trans h4.sndBuf⟩
        · rw [Res.effects_bind]
          exact OnlyEmits.append (by rw [h6]; exact onlyEmits_sendSegment _ _ _ _ _) k5

theorem sendData_spec :
    let r := sendData io c
    SameRecv r.conn c ∧ r.conn.state = c.state ∧ r.conn.fd = c.fd ∧
      SameSend r.conn { c with sndNxt := r.conn.sndNxt } ∧ OnlyEmits r.effects := by
  unfold sendData
  split
  · exact sendLoop_spec io c sendQuota
  · exact ⟨.refl c, rfl, rfl, .refl c, onlyEmits_nil⟩

/-- A connection past its data sends nothing. -/
theorem sendData_of_not_sends (h : c.sends = false) :
    sendData io c = .pure c := by
  simp [sendData, h]

/-- Our FIN takes the number `sndNxt`, or nothing happens. -/
theorem sendFin_spec :
    (sendFin io c = .pure c) ∨
    (c.hostEof = true ∧ c.finSeq = 0#32 ∧ c.unsent = 0 ∧ c.sends = true ∧
      SameRecv (sendFin io c).conn c ∧ (sendFin io c).conn.fd = c.fd ∧
      (sendFin io c).conn.state = finSentState c.state ∧
      SameSend (sendFin io c).conn { c with finSeq := c.sndNxt, sndNxt := c.sndNxt + 1#32 } ∧
      (sendFin io c).effects = (sendSegment io.mac (tcpFin ||| tcpAck) [] c.sndNxt
        { c with state := finSentState c.state, finSeq := c.sndNxt }).effects ++ [.finSent]) := by
  unfold sendFin
  split
  · next h =>
      right
      refine ⟨h.1, h.2.1, h.2.2.1, h.2.2.2, ?_⟩
      dsimp only
      rw [Res.conn_bind, Res.effects_bind, conn_sendSegment]
      exact ⟨⟨rfl, rfl, rfl, rfl, rfl, rfl⟩, rfl, rfl, ⟨rfl, rfl, rfl, rfl, rfl, rfl⟩, rfl⟩
  · exact .inl rfl

/-- What is resent: the SYN, the bytes from `sndUna` on, or the FIN. -/
theorem resend_spec :
    SameCore (resend io c).conn c ∧
    ((resend io c).effects = [] ∨
      (c.state = .synSent ∧
        (resend io c).effects = (sendSegment io.mac tcpSyn [] c.sndUna c).effects) ∨
      (c.state ≠ .synSent ∧ c.sbUsed ≠ 0 ∧
        (resend io c).effects = (sendSegment io.mac (tcpAck ||| tcpPsh)
          (read c.sndBuf (c.sbHead.toNat % sndCap) c.resendLen) c.sndUna c).effects) ∨
      (c.state ≠ .synSent ∧ c.sbUsed = 0 ∧ c.finSeq ≠ 0#32 ∧
        (resend io c).effects =
          (sendSegment io.mac (tcpFin ||| tcpAck) [] c.finSeq c).effects)) := by
  unfold resend
  split
  · next hsyn => exact ⟨sameCore_sendSyn _ _ c, .inr (.inl ⟨hsyn, by simp [sendSyn]⟩)⟩
  · next hsyn =>
      split
      · next hused =>
          exact ⟨(sameCore_armRto _ _).trans (sameCore_sendSegment _ _ _ _ c),
            .inr (.inr (.inl ⟨hsyn, hused, by simp⟩))⟩
      · next hused =>
          split
          · exact ⟨.refl c, .inl rfl⟩
          · next hfin =>
              exact ⟨(sameCore_armRto _ _).trans (sameCore_sendSegment _ _ _ _ c),
                .inr (.inr (.inr ⟨hsyn, by simpa using hused, hfin, by simp⟩))⟩

theorem sameCore_resend : SameCore (resend io c).conn c := (resend_spec io c).1

theorem onlyEmits_resend : OnlyEmits (resend io c).effects := by
  obtain ⟨-, h | ⟨-, h⟩ | ⟨-, -, h⟩ | ⟨-, -, -, h⟩⟩ := resend_spec io c
  · rw [h]; exact onlyEmits_nil
  all_goals rw [h]; exact onlyEmits_sendSegment _ _ _ _ c

/-- The timer resends, gives the connection up, or does nothing. -/
theorem retransmit_spec :
    (retransmit io c = .pure c) ∨
    (SameSend (retransmit io c).conn c ∧ SameRecv (retransmit io c).conn c ∧
      (retransmit io c).conn.fd = c.fd ∧ (retransmit io c).conn.state = .closed ∧
      (retransmit io c).effects = [.gaveUp]) ∨
    (c.sndNxt ≠ c.sndUna ∧ ∃ c', SameCore c' c ∧ retransmit io c = resend io c') := by
  unfold retransmit
  split
  · exact .inl rfl
  · next h =>
      dsimp only
      split
      · exact .inr (.inl ⟨⟨rfl, rfl, rfl, rfl, rfl, rfl⟩, ⟨rfl, rfl, rfl, rfl, rfl, rfl⟩, rfl,
          rfl, rfl⟩)
      · refine .inr (.inr ⟨fun he => h (.inl he), _, ?_, rfl⟩)
        exact ⟨⟨rfl, rfl, rfl, rfl, rfl, rfl⟩, ⟨rfl, rfl, rfl, rfl, rfl, rfl⟩, rfl, rfl⟩

/-- A closed connection is released, any other left alone. -/
theorem closeHost_spec :
    (c.state ≠ .closed ∧ closeHost c = .pure c) ∨
    (c.state = .closed ∧ closeHost c = ⟨{ c with state := .free, fd := -1 },
      if c.fd < 0 then [.shutRdWr] else [.shutRdWr, .closeFd], true⟩) := by
  unfold closeHost
  split
  · next h => exact .inr ⟨h, rfl⟩
  · next h => exact .inl ⟨h, rfl⟩

end turn

/-! ## invariants of a connection and its history -/

/-- The routine takes `I` to `J`, which speak of the connection and of
everything done so far. -/
def Carries (I J : Conn → List Effect → Prop) (f : Conn → Res) : Prop :=
  ∀ c tr, I c tr → J (f c).conn (tr ++ (f c).effects)

/-- `J`, of a slot in use. -/
def InUse (J : Conn → List Effect → Prop) (c : Conn) (tr : List Effect) : Prop :=
  c.state ≠ .free ∧ J c tr

/-- The routine keeps `J` of a slot in use, and the slot in use. -/
def Keeps (J : Conn → List Effect → Prop) (f : Conn → Res) : Prop :=
  Carries (InUse J) (InUse J) f

section carries

variable {I J K : Conn → List Effect → Prop} {f g : Conn → Res}

/-- One routine after another. -/
theorem Carries.bind (hf : Carries I J f) (hg : Carries J K g) :
    Carries I K (fun c => (f c).bind g) := by
  intro c tr h
  rw [Res.effects_bind, ← List.append_assoc]
  exact hg _ _ (hf c tr h)

/-- The parts of a turn one by one. -/
theorem carries_connStep {io : StepIO} (hw : Keeps J (writeHost io)) (hs : Keeps J shutHost)
    (hr : Keeps J (readHost io)) (hd : Keeps J (sendData io)) (hf : Keeps J (sendFin io))
    (ht : Keeps J (retransmit io)) (hc : Carries (InUse J) J closeHost) :
    Carries (InUse J) J (connStep io) := by
  have hmid : Keeps J (middleParts io) :=
    (((Carries.bind hs hr).bind hd).bind hf).bind ht
  intro c tr h
  unfold connStep
  split
  · exact hc c tr h
  · dsimp only
    split
    · exact (Carries.bind hw hc) c tr h
    · exact ((Carries.bind hw hmid).bind hc) c tr h

end carries

/-- The invariant `J` of a connection with its history. -/
def World.Satisfies (J : Conn → List Effect → Prop) (w : World) : Prop := J w.conn w.trace

section runs

variable {J : Conn → List Effect → Prop}

/-- An event keeps `J`: a free slot is left alone, and a slot in use takes the
segment or its turn. -/
theorem satisfies_step {w : World} {e : Event} (h : w.Satisfies J)
    (hseg : ∀ s mac t, e = .segment s mac t → w.conn.state ≠ .free →
      J (tcpIn mac t s w.conn).conn (w.trace ++ (tcpIn mac t s w.conn).effects))
    (hturn : ∀ io, e = .turn io → Carries (InUse J) J (connStep io)) :
    (w.step e).Satisfies J := by
  unfold World.Satisfies at h ⊢
  rw [World.conn_step, World.trace_step]
  by_cases hfree : w.conn.state = .free
  · cases e with
    | segment s mac t => simpa [Event.apply, hfree] using h
    | turn io => simpa [Event.apply, hfree] using h
  · cases e with
    | segment s mac t => simpa [Event.apply, hfree] using hseg s mac t rfl hfree
    | turn io => simpa [Event.apply, hfree] using hturn io rfl w.conn w.trace ⟨hfree, h⟩

end runs

/-- A connection just opened. -/
def opened (old : Conn) (fd : Int) (lport rport : Nat) (iss : W32) : World :=
  ⟨openConn old fd lport rport iss, []⟩

/-- What `tcp_connect` leaves is a connection just opened: of the slot it
changes the deadline, and the window advertised if the SYN went out. -/
theorem conn_tcpConnect (old : Conn) (fd : Int) (lport rport us : Nat) (mac : Bool)
    (t : Timespec) : (tcpConnect old fd lport rport us mac t).conn =
      (opened { old with
        rtoAt := nowMs t + rtoMs
        advWnd := if mac then 65535 else old.advWnd } fd lport rport (issOf us)).conn := by
  have hwindow : (openConn old fd lport rport (issOf us)).window = 65535 := by
    simp [Conn.window, Conn.rbFree, openConn, rcvCap]
  unfold tcpConnect sendSyn
  rw [Res.conn_bind, conn_sendSegment, hwindow]
  rfl

/-! ## runs written out -/

theorem nothing_fits : ([] : List UInt8).length ≤ 65535 := Nat.zero_le _

/-- A segment of the card. -/
def cardSegment (seq ackNo : W32) (flags : BitVec 8) (payload : List UInt8)
    (h : payload.length ≤ 65535) : Segment :=
  ⟨40000, 22, seq, ackNo, flags, 65535, payload, h⟩

/-- A turn in which the host socket neither takes nor has anything. -/
def quietTurn : StepIO :=
  ⟨true, .again, .again, ⟨0, 0⟩, ⟨0, 0⟩, ⟨0, 0⟩, ⟨0, 0⟩⟩

/-- A turn in which the host socket has ended. -/
def hostEnds : StepIO := { quietTurn with read := .data [] }

end Phi.Tcp
