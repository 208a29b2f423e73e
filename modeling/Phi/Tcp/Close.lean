import Phi.Lib.Run
import Phi.Tcp.Sending

/-!
# Phi.Tcp.Close

How a connection closes.

When the card acknowledges our FIN the connection leaves FIN_WAIT_1 for
FIN_WAIT_2, and CLOSING or LAST_ACK for CLOSED.  `tcp_in` decides it after
re-arming the timer, from a register that the clock reading has overwritten,
so whether the connection moves on depends on the nanoseconds of the clock.
The condition is stated exactly for one segment; for runs whose segments meet
it, both FINs acknowledged mean the connection is closed and released.
-/

namespace Phi.Tcp

/-! ## the acknowledgement of our FIN -/

/-- Our FIN is out and not acknowledged. -/
def State.awaitsFinAck : State → Bool
  | .finWait1 => true
  | .closing => true
  | .lastAck => true
  | _ => false

/-- The segment is acceptable and acknowledges everything sent, our FIN last. -/
def Conn.acksFin (c : Conn) (s : Segment) : Bool :=
  !s.has tcpRst && c.sndNxt = c.finSeq + 1#32 && c.takesAck s && s.ackNo = c.sndNxt

/-- The connection moves on as the FIN's acknowledgement says; the peer's FIN,
when the same segment carries it, counts after. -/
def MovesOn (mac : Bool) (t : Timespec) (s : Segment) (c : Conn) : Prop :=
  (tcpIn mac t s c).conn.state =
    if .finTaken ∈ (tcpIn mac t s c).effects then finTakenState (finAckedState c.state)
    else finAckedState c.state

instance (mac : Bool) (t : Timespec) (s : Segment) (c : Conn) : Decidable (MovesOn mac t s c) :=
  inferInstanceAs (Decidable (_ = _))

theorem finAckSeen_iff (t : Timespec) (c : Conn) : c.finAckSeen t = true ↔
    c.finSeq ≠ 0#32 ∧ BitVec.ofNat 32 (t.nsec % 1000000) = c.finSeq + 1#32 := by
  have h : c.finAckSeen t = (decide (c.finSeq ≠ 0#32) &&
    decide (BitVec.ofNat 32 (t.nsec % 1000000) = c.finSeq + 1#32)) := rfl
  rw [h, Bool.and_eq_true, decide_eq_true_eq, decide_eq_true_eq]

/-- The acknowledgement of our FIN moves the connection on exactly when the
comparison after the timer finds its number. -/
theorem movesOn_iff {mac : Bool} {t : Timespec} {s : Segment} {c : Conn}
    (hst : c.state.awaitsFinAck = true) (hack : c.acksFin s = true) :
    MovesOn mac t s c ↔ c.finAckSeen t = true := by
  simp only [Conn.acksFin, Bool.and_eq_true, Bool.not_eq_true', decide_eq_true_eq] at hack
  obtain ⟨⟨⟨hrst, -⟩, htake⟩, -⟩ := hack
  have hsyn : c.state ≠ .synSent := by
    intro h
    simp [h, State.awaitsFinAck] at hst
  have hin : tcpIn mac t s c = applyPayload mac s (applyAck s t c) := by
    simp [tcpIn, hrst, hsyn]
  have hstate : (applyAck s t c).state =
      if c.finAckSeen t then finAckedState c.state else c.state := by
    rw [applyAck_of_takesAck t s c htake]
  unfold MovesOn
  rw [hin, state_applyPayload, hstate]
  cases hseen : c.finAckSeen t with
  | true => simp
  | false =>
      -- the state stays, and no acknowledged state is like it
      cases hc : c.state <;> simp [hc, State.awaitsFinAck] at hst
      all_goals split <;> simp [finAckedState, finTakenState]

/-! ## runs -/

/-- An event that acknowledges our FIN finds in the register, in place of the
segment's number, the number it is compared with. -/
def FinAckFound (w : World) : Event → Bool
  | .segment s _ t => !(w.conn.state.awaitsFinAck && w.conn.acksFin s) || w.conn.finAckSeen t
  | .turn _ => true

/-- Both FINs were sent and acknowledged. -/
def BothFins (w : World) : Prop :=
  .finSent ∈ w.trace ∧ w.conn.sndUna = w.conn.sndNxt ∧ .finTaken ∈ w.trace

instance (w : World) : Decidable (BothFins w) := inferInstanceAs (Decidable (_ ∧ _ ∧ _))

/-- A connection both of whose FINs are acknowledged is closed or already
released, and after its next turn its slot is free and its host socket `fd`
closed. -/
def ClosesAfterBoth (fd : Int) (w : World) : Prop :=
  BothFins w → (w.conn.state = .closed ∨ w.conn.state = .free) ∧
    ∀ io, (w.step (.turn io)).conn.state = .free ∧ (w.step (.turn io)).conn.fd = -1 ∧
      (0 ≤ fd → .closeFd ∈ (w.step (.turn io)).trace)

/-- What the state says about the two FINs and the slot. -/
structure CloseInv (fd : Int) (c : Conn) (tr : List Effect) : Prop where
  noFinSent : c.state = .synSent ∨ c.sends = true → .finSent ∉ tr ∧ c.finSeq = 0#32
  opening : c.state = .synSent → c.sbUsed = 0
  sending : c.sends = true → c.SendOk
  noFinTaken : c.state = .synSent ∨ c.state = .established ∨ c.state = .finWait1 ∨
    c.state = .finWait2 → .finTaken ∉ tr
  awaiting : c.state.awaitsFinAck = true → c.sndNxt = c.finSeq + 1#32 ∧ c.sndUna ≠ c.sndNxt
  held : c.state ≠ .free → c.fd = fd
  freed : c.state = .free → c.fd = -1 ∧ (0 ≤ fd → .closeFd ∈ tr)

section invariant

variable {fd : Int} {c c' : Conn} {tr es : List Effect}

/-- A closed connection is only bound to its socket. -/
theorem CloseInv.of_closed (hst : c.state = .closed) (hfd : c.fd = fd) : CloseInv fd c tr where
  noFinSent := by simp [hst, Conn.sends]
  opening := by simp [hst]
  sending := by simp [hst, Conn.sends]
  noFinTaken := by simp [hst]
  awaiting := by simp [hst, State.awaitsFinAck]
  held := fun _ => hfd
  freed := by simp [hst]

/-- Effects other than the two FINs do not matter to a slot in use. -/
theorem CloseInv.congr (h : CloseInv fd c tr) (hsame : SameSend c' c) (hst : c'.state = c.state)
    (hfd : c'.fd = c.fd) (hsent : .finSent ∉ es) (htaken : .finTaken ∉ es) :
    CloseInv fd c' (tr ++ es) where
  noFinSent hs := by
    rw [Conn.sends, hst] at hs
    have h1 := h.noFinSent hs
    exact ⟨by simp [h1.1, hsent], by rw [hsame.finSeq]; exact h1.2⟩
  opening hs := by
    rw [hst] at hs
    rw [hsame.sbUsed]
    exact h.opening hs
  sending hs := by
    rw [Conn.sends, hst] at hs
    exact (h.sending hs).congr hsame
  noFinTaken hs := by
    rw [hst] at hs
    simp [h.noFinTaken hs, htaken]
  awaiting hs := by
    rw [hst] at hs
    rw [hsame.sndNxt, hsame.sndUna, hsame.finSeq]
    exact h.awaiting hs
  held hs := by
    rw [hst] at hs
    rw [hfd]
    exact h.held hs
  freed hs := by
    rw [hst] at hs
    rw [hfd]
    exact ⟨(h.freed hs).1, fun h0 => List.mem_append_left _ ((h.freed hs).2 h0)⟩

/-- Windows, timers and segments do not matter. -/
theorem CloseInv.idle (h : CloseInv fd c tr) (hcore : SameCore c' c) (hes : OnlyEmits es) :
    CloseInv fd c' (tr ++ es) :=
  h.congr hcore.toSameSend hcore.state hcore.fd (not_finSent_mem_of_onlyEmits hes)
    (not_finTaken_mem_of_onlyEmits hes)

end invariant

section parts

variable (fd : Int) (io : StepIO)

theorem closeInv_writeHost : Keeps (CloseInv fd) (writeHost io) := by
  intro c tr ⟨hfree, h⟩
  obtain ⟨hcore, hes⟩ | ⟨n, es, -, hemit, hcore, hes⟩ | ⟨es, hemit, hsend, -, hfd, hst, hes⟩ :=
    writeHost_spec io c
  · refine ⟨by rw [hcore.state]; exact hfree, ?_⟩
    exact h.congr hcore.toSameSend hcore.state hcore.fd (by simp [hes]) (by simp [hes])
  · obtain ⟨hsend, hst, hfd⟩ := sameSend_advanceRb c n
    have hst' := hcore.state.trans hst
    refine ⟨by rw [hst']; exact hfree, ?_⟩
    refine h.congr (hcore.toSameSend.trans hsend) hst' (hcore.fd.trans hfd) ?_ ?_
    · simp [hes, not_finSent_mem_of_onlyEmits hemit.onlyEmits]
    · simp [hes, not_finTaken_mem_of_onlyEmits hemit.onlyEmits]
  · exact ⟨by simp [hst], .of_closed hst (hfd.trans (h.held hfree))⟩

theorem closeInv_shutHost : Keeps (CloseInv fd) shutHost := by
  intro c tr ⟨hfree, h⟩
  obtain hr | ⟨-, -, -, hr⟩ := shutHost_spec c
  · rw [hr]
    simpa using ⟨hfree, h⟩
  · rw [hr]
    exact ⟨hfree, h.congr ⟨rfl, rfl, rfl, rfl, rfl, rfl⟩ rfl rfl (by simp) (by simp)⟩

theorem closeInv_readHost : Keeps (CloseInv fd) (readHost io) := by
  intro c tr ⟨hfree, h⟩
  have hok := fun hs => (h.sending hs).readHost io
  obtain ⟨b, hr⟩ | ⟨bs, hsends, -, hr⟩ := readHost_spec io c
  · rw [hr]
    exact ⟨hfree, h.congr ⟨rfl, rfl, rfl, rfl, rfl, rfl⟩ rfl rfl (by simp) (by simp)⟩
  · rw [hr] at hok ⊢
    refine ⟨hfree, ?_⟩
    exact { noFinSent := fun hs => by simpa using h.noFinSent hs
            opening := fun hs => by
              have hsyn : c.state = .synSent := hs
              simp [Conn.sends, hsyn] at hsends
            sending := hok
            noFinTaken := fun hs => by simpa using h.noFinTaken hs
            awaiting := h.awaiting
            held := h.held
            freed := fun hs => absurd hs hfree }

theorem closeInv_sendData : Keeps (CloseInv fd) (sendData io) := by
  intro c tr ⟨hfree, h⟩
  cases hsends : c.sends with
  | false =>
      rw [sendData_of_not_sends io c hsends]
      simpa using ⟨hfree, h⟩
  | true =>
      have hok := (h.sending hsends).sendData io
      obtain ⟨-, hst, hfd, hsame, hemit⟩ := sendData_spec io c
      have hsent := not_finSent_mem_of_onlyEmits hemit
      have htaken := not_finTaken_mem_of_onlyEmits hemit
      refine ⟨by rw [hst]; exact hfree, ?_⟩
      exact { noFinSent := fun _ => by
                have h1 := h.noFinSent (.inr hsends)
                exact ⟨by simp [h1.1, hsent], by rw [hsame.finSeq]; exact h1.2⟩
              opening := fun hs => by
                rw [hst] at hs
                simp [Conn.sends, hs] at hsends
              sending := fun _ => hok
              noFinTaken := fun hs => by
                rw [hst] at hs
                simp [h.noFinTaken hs, htaken]
              awaiting := fun hs => by
                rw [hst] at hs
                cases hc : c.state <;> simp [hc, Conn.sends, State.awaitsFinAck] at hs hsends
              held := fun _ => by rw [hfd]; exact h.held hfree
              freed := fun hs => by
                rw [hst] at hs
                exact absurd hs hfree }

theorem closeInv_sendFin : Keeps (CloseInv fd) (sendFin io) := by
  intro c tr ⟨hfree, h⟩
  obtain hr | ⟨-, hfin, hunsent, hsends, -, hfd, hst, hsame, hes⟩ := sendFin_spec io c
  · rw [hr]
    simpa using ⟨hfree, h⟩
  · -- everything read is in flight, so the FIN's number is past `sndUna`
    have hok := h.sending hsends
    have hall := unsent_eq hok
    have hne : c.sndUna ≠ c.sndNxt + 1#32 := by
      obtain ⟨hle, hused⟩ := hok
      simp only [Conn.inFlight, sndCap] at hle hused hall
      bv_omega
    have htaken : .finTaken ∉ (sendFin io c).effects := by
      rw [hes]
      simp [not_finTaken_mem_of_onlyEmits (onlyEmits_sendSegment _ _ _ _ _)]
    have hstate : (sendFin io c).conn.state = .lastAck ∧ c.state = .closeWait ∨
        (sendFin io c).conn.state = .finWait1 ∧ c.state = .established := by
      rw [hst]
      cases hc : c.state <;> simp [hc, Conn.sends, finSentState] at hsends ⊢
    refine ⟨by obtain ⟨hs, -⟩ | ⟨hs, -⟩ := hstate <;> simp [hs], ?_⟩
    exact { noFinSent := fun hs => by
              obtain ⟨hs', -⟩ | ⟨hs', -⟩ := hstate <;> simp [Conn.sends, hs'] at hs
            opening := fun hs => by
              obtain ⟨hs', -⟩ | ⟨hs', -⟩ := hstate <;> simp [hs'] at hs
            sending := fun hs => by
              obtain ⟨hs', -⟩ | ⟨hs', -⟩ := hstate <;> simp [Conn.sends, hs'] at hs
            noFinTaken := fun hs => by
              obtain ⟨hs', -⟩ | ⟨-, hc⟩ := hstate
              · simp [hs'] at hs
              · simp [h.noFinTaken (.inr (.inl hc)), htaken]
            awaiting := fun _ => by
              rw [hsame.sndNxt, hsame.sndUna, hsame.finSeq]
              exact ⟨rfl, hne⟩
            held := fun _ => by rw [hfd]; exact h.held hfree
            freed := fun hs => by
              obtain ⟨hs', -⟩ | ⟨hs', -⟩ := hstate <;> simp [hs'] at hs }

theorem closeInv_retransmit : Keeps (CloseInv fd) (retransmit io) := by
  intro c tr ⟨hfree, h⟩
  obtain hr | ⟨-, -, hfd, hst, -⟩ | ⟨-, c', hcore, hr⟩ := retransmit_spec io c
  · rw [hr]
    simpa using ⟨hfree, h⟩
  · exact ⟨by simp [hst], .of_closed hst (hfd.trans (h.held hfree))⟩
  · have hcore' := (sameCore_resend io c').trans hcore
    have hemit := onlyEmits_resend io c'
    rw [hr]
    exact ⟨by rw [hcore'.state]; exact hfree, h.idle hcore' hemit⟩

theorem closeInv_closeHost : Carries (InUse (CloseInv fd)) (CloseInv fd) closeHost := by
  intro c tr ⟨hfree, h⟩
  obtain ⟨-, hr⟩ | ⟨hst, hr⟩ := closeHost_spec c
  · rw [hr]
    simpa using h
  · have hfd := h.held hfree
    rw [hr]
    exact { noFinSent := by simp [Conn.sends]
            opening := by simp
            sending := by simp [Conn.sends]
            noFinTaken := by simp
            awaiting := by simp [State.awaitsFinAck]
            held := by simp
            freed := fun _ => ⟨rfl, fun h0 => by
              rw [if_neg (by omega)]
              simp⟩ }

end parts

section input

variable (fd : Int) (mac : Bool) (t : Timespec) (s : Segment)

/-- A handshake segment establishes an empty connection, or is dropped. -/
theorem closeInv_applySynAck {c : Conn} {tr : List Effect} (h : CloseInv fd c tr)
    (hst : c.state = .synSent) :
    CloseInv fd (applySynAck mac s c).conn (tr ++ (applySynAck mac s c).effects) := by
  unfold applySynAck
  split
  · have hfin := h.noFinSent (.inl hst)
    have hempty := h.opening hst
    refine CloseInv.idle ?_ (sameCore_sendAck mac _) (bare_sendAck mac _).onlyEmits
    exact { noFinSent := fun _ => hfin
            opening := by simp
            sending := fun _ => ⟨by simp [Conn.inFlight],
              by show c.sbUsed ≤ sndCap; rw [hempty]; exact Nat.zero_le _⟩
            noFinTaken := fun _ => h.noFinTaken (.inl hst)
            awaiting := by simp [State.awaitsFinAck]
            held := fun _ => h.held (by simp [hst])
            freed := by simp }
  · simpa using h

/-- The acknowledgement keeps the invariant: one of our FIN is found, so no
state that awaits it is left with everything acknowledged. -/
theorem closeInv_applyAck {c : Conn} {tr : List Effect} (h : CloseInv fd c tr)
    (hfree : c.state ≠ .free) (hsyn : c.state ≠ .synSent) (hrst : s.has tcpRst = false)
    (hfound : c.state.awaitsFinAck = true → c.acksFin s = true → c.finAckSeen t = true) :
    CloseInv fd (applyAck s t c) tr := by
  cases htake : c.takesAck s with
  | false =>
      simpa using h.idle (sameCore_applyAck t s c htake) onlyEmits_nil
  | true =>
      have hok := fun hs => (h.sending hs).applyAck (h.noFinSent (.inr hs)).2 t s
      rw [applyAck_of_takesAck t s c htake] at hok ⊢
      cases hseen : c.finAckSeen t with
      | false =>
          simp only [hseen, Bool.false_eq_true, if_false] at hok ⊢
          exact { noFinSent := h.noFinSent
                  opening := fun hs => absurd hs hsyn
                  sending := hok
                  noFinTaken := h.noFinTaken
                  awaiting := fun hs => by
                    obtain ⟨hnxt, hne⟩ := h.awaiting hs
                    refine ⟨hnxt, fun heq => ?_⟩
                    have hfin : c.acksFin s = true := by
                      have heq' : s.ackNo = c.sndNxt := heq
                      simp only [Conn.acksFin, hrst, htake]
                      simp [heq', hnxt]
                    rw [hfound hs hfin] at hseen
                    cases hseen
                  held := h.held
                  freed := h.freed }
      | true =>
          -- a FIN was sent, so the connection no longer sends
          have hnot : c.sends = false := by
            cases hs : c.sends with
            | false => rfl
            | true =>
                have h0 := (h.noFinSent (.inr hs)).2
                simp [Conn.finAckSeen, h0] at hseen
          have hfin1 := h.noFinTaken
          have hheld := h.held hfree
          simp only [if_true]
          cases hc : c.state <;> simp [hc, Conn.sends] at hfree hsyn hnot hfin1
          all_goals
            exact { noFinSent := by simp [finAckedState, Conn.sends]
                    opening := by simp [finAckedState]
                    sending := by simp [finAckedState, Conn.sends]
                    noFinTaken := by simp [finAckedState, hfin1]
                    awaiting := by simp [finAckedState, State.awaitsFinAck]
                    held := fun _ => hheld
                    freed := by simp [finAckedState] }

/-- A segment sends no FIN of ours. -/
theorem not_finSent_mem_applyPayload (c : Conn) :
    .finSent ∉ (applyPayload mac s c).effects := by
  obtain ⟨-, -, hes⟩ | ⟨-, -, es, hes, heff⟩ := applyPayload_spec mac s c
  · exact not_finSent_mem_of_onlyEmits hes.onlyEmits
  · rw [heff, effects_storePayload]
    have hno := not_finSent_mem_of_onlyEmits hes.onlyEmits
    cases hfin : (storePayload s c).conn.finInOrder s with
    | false =>
        rw [takeFin_of_not_finInOrder s _ hfin]
        split <;> simp [hno]
    | true =>
        rw [takeFin_of_finInOrder s _ hfin]
        split <;> simp [hno]

/-- Payload and FIN keep the invariant. -/
theorem closeInv_applyPayload {c : Conn} {tr : List Effect} (h : CloseInv fd c tr)
    (hfree : c.state ≠ .free) (hsyn : c.state ≠ .synSent) :
    CloseInv fd (applyPayload mac s c).conn (tr ++ (applyPayload mac s c).effects) := by
  obtain ⟨hsend, hfd⟩ := sameSend_applyPayload mac s c
  have hsent := not_finSent_mem_applyPayload mac s c
  have hst := state_applyPayload mac s c
  by_cases htaken : .finTaken ∈ (applyPayload mac s c).effects
  · rw [if_pos htaken] at hst
    have hheld := h.held hfree
    exact { noFinSent := fun hs => by
              have hs' : c.sends = true := by
                rw [Conn.sends, hst] at hs
                cases hc : c.state <;> simp [hc, finTakenState, Conn.sends] at hs hsyn ⊢
              have h1 := h.noFinSent (.inr hs')
              exact ⟨by simp [h1.1, hsent], by rw [hsend.finSeq]; exact h1.2⟩
            opening := fun hs => by
              rw [hst] at hs
              cases hc : c.state <;> simp [hc, finTakenState] at hs hsyn
            sending := fun hs => by
              have hs' : c.sends = true := by
                rw [Conn.sends, hst] at hs
                cases hc : c.state <;> simp [hc, finTakenState, Conn.sends] at hs ⊢
              exact (h.sending hs').congr hsend
            noFinTaken := fun hs => by
              rw [hst] at hs
              cases hc : c.state <;> simp [hc, finTakenState] at hs hsyn
            awaiting := fun hs => by
              have hs' : c.state.awaitsFinAck = true := by
                rw [hst] at hs
                cases hc : c.state <;> simp [hc, finTakenState, State.awaitsFinAck] at hs ⊢
              rw [hsend.sndNxt, hsend.sndUna, hsend.finSeq]
              exact h.awaiting hs'
            held := fun _ => by rw [hfd]; exact hheld
            freed := fun hs => by
              rw [hst] at hs
              cases hc : c.state <;> simp [hc, finTakenState] at hs hfree }
  · rw [if_neg htaken] at hst
    exact h.congr hsend hst hfd hsent htaken

end input

/-- A segment keeps the invariant when an acknowledgement of our FIN is found. -/
theorem closeInv_tcpIn {fd : Int} (mac : Bool) {t : Timespec} {s : Segment} {c : Conn}
    {tr : List Effect} (hfree : c.state ≠ .free) (h : CloseInv fd c tr)
    (hfound : c.state.awaitsFinAck = true → c.acksFin s = true → c.finAckSeen t = true) :
    CloseInv fd (tcpIn mac t s c).conn (tr ++ (tcpIn mac t s c).effects) := by
  unfold tcpIn
  cases hrst : s.has tcpRst with
  | true => exact .of_closed rfl (h.held hfree)
  | false =>
      by_cases hsyn : c.state = .synSent
      · simpa [hsyn] using closeInv_applySynAck fd mac s h hsyn
      · simp only [Bool.false_eq_true, if_false, hsyn]
        have hack := closeInv_applyAck fd t s h hfree hsyn hrst hfound
        exact closeInv_applyPayload fd mac s hack (state_applyAck_ne t s c (.inl rfl) hfree)
          (state_applyAck_ne t s c (.inr rfl) hsyn)

theorem closeInv_connStep (fd : Int) (io : StepIO) :
    Carries (InUse (CloseInv fd)) (CloseInv fd) (connStep io) :=
  carries_connStep (closeInv_writeHost fd io) (closeInv_shutHost fd) (closeInv_readHost fd io)
    (closeInv_sendData fd io) (closeInv_sendFin fd io) (closeInv_retransmit fd io)
    (closeInv_closeHost fd)

/-- **One event keeps the invariant**, an acknowledgement of our FIN being
found. -/
theorem closeInv_step {fd : Int} {w : World} {e : Event} (h : w.Satisfies (CloseInv fd))
    (hfound : FinAckFound w e = true) : (w.step e).Satisfies (CloseInv fd) := by
  refine satisfies_step h ?_ fun io _ => closeInv_connStep fd io
  rintro s mac t rfl hfree
  refine closeInv_tcpIn mac hfree h fun h1 h2 => ?_
  simpa [FinAckFound, h1, h2] using hfound

theorem closeInv_opened (old : Conn) (fd : Int) (lport rport : Nat) (iss : W32) :
    (opened old fd lport rport iss).Satisfies (CloseInv fd) where
  noFinSent _ := ⟨by simp [opened], rfl⟩
  opening _ := by simp [opened, openConn, Conn.sbUsed]
  sending hs := by simp [opened, openConn, Conn.sends] at hs
  noFinTaken _ := by simp [opened]
  awaiting hs := by simp [opened, openConn, State.awaitsFinAck] at hs
  held _ := rfl
  freed hs := by simp [opened, openConn] at hs

/-- The next turn after the close releases the slot and the socket. -/
theorem closesAfterBoth {fd : Int} {w : World} (h : w.Satisfies (CloseInv fd)) :
    ClosesAfterBoth fd w := by
  intro ⟨hsent, hacked, htaken⟩
  have hclosed : w.conn.state = .closed ∨ w.conn.state = .free := by
    have h1 := h.noFinSent
    have h2 := h.noFinTaken
    have h3 := h.awaiting
    cases hc : w.conn.state <;>
      simp [hc, Conn.sends, State.awaitsFinAck, hsent, htaken, hacked] at h1 h2 h3 ⊢
  refine ⟨hclosed, fun io => ?_⟩
  cases hclosed with
  | inl hc =>
      have hfd := h.held (by simp [hc])
      have hstep : connStep io w.conn = closeHost w.conn := by simp [connStep, hc]
      obtain ⟨hn, -⟩ | ⟨-, hr⟩ := closeHost_spec w.conn
      · exact absurd hc hn
      · rw [World.conn_step, World.trace_step]
        simp only [Event.apply, hc, hstep, hr, reduceCtorEq, if_false]
        refine ⟨trivial, trivial, fun h0 => ?_⟩
        rw [if_neg (by omega)]
        simp
  | inr hf =>
      have hidle : w.step (.turn io) = w := by
        simp [World.step, Event.apply, hf]
      rw [hidle]
      exact ⟨hf, h.freed hf⟩

/-! ## the close -/

/-- **When the connection closes**: the acknowledgement of our FIN moves it on
exactly when FIN_SEQ is not 0 and the nanoseconds of the clock, modulo a
million, are FIN_SEQ + 1; and in a run where that holds of every such
acknowledgement, both FINs acknowledged mean the connection is closed and
released by its next turn. -/
theorem close_completes (mac : Bool) (t : Timespec) (s : Segment) (c old : Conn) (fd : Int)
    (lport rport : Nat) (iss : W32) (es : List Event) :
    (c.state.awaitsFinAck = true → c.acksFin s = true →
      (MovesOn mac t s c ↔
        c.finSeq ≠ 0#32 ∧ BitVec.ofNat 32 (t.nsec % 1000000) = c.finSeq + 1#32)) ∧
    (Along World.step (fun w e => FinAckFound w e = true) (opened old fd lport rport iss) es →
      ClosesAfterBoth fd (run World.step (opened old fd lport rport iss) es)) := by
  constructor
  · intro hst hack
    rw [movesOn_iff hst hack]
    exact finAckSeen_iff t c
  · intro halong
    exact closesAfterBoth (run_inv (fun w e h hc => closeInv_step h hc)
      (closeInv_opened old fd lport rport iss) halong)

/-! ## a close that is missed -/

/-- A connection is opened with the number 1000 and accepted, the host ends,
the card acknowledges the FIN with the clock at `t`, and ends too. -/
def closingRun (t : Timespec) : List Event :=
  [.segment (cardSegment 5000#32 1001#32 (tcpSyn ||| tcpAck) [] nothing_fits) true ⟨0, 0⟩,
   .turn hostEnds,
   .segment (cardSegment 5001#32 1002#32 tcpAck [] nothing_fits) true t,
   .segment (cardSegment 5001#32 1002#32 (tcpFin ||| tcpAck) [] nothing_fits) true t]

/-- At a full second the acknowledgement is not recognised: the connection
stays in FIN_WAIT_1, and after both FINs it hangs in CLOSING. -/
theorem finAck_missed :
    ¬MovesOn true ⟨7, 0⟩ (cardSegment 5001#32 1002#32 tcpAck [] (by decide))
        (run World.step (opened emptySlot 5 22 40000 1000#32) ((closingRun ⟨7, 0⟩).take 2)).conn ∧
      (run World.step (opened emptySlot 5 22 40000 1000#32) (closingRun ⟨7, 0⟩)).conn.state =
        .closing ∧
      ¬ClosesAfterBoth 5 (run World.step (opened emptySlot 5 22 40000 1000#32)
        (closingRun ⟨7, 0⟩)) := by
  refine ⟨by decide +kernel, by decide +kernel, fun h => ?_⟩
  have hboth : BothFins (run World.step (opened emptySlot 5 22 40000 1000#32)
      (closingRun ⟨7, 0⟩)) := by decide +kernel
  have hnot : ¬((run World.step (opened emptySlot 5 22 40000 1000#32)
      (closingRun ⟨7, 0⟩)).conn.state = .closed ∨
    (run World.step (opened emptySlot 5 22 40000 1000#32)
      (closingRun ⟨7, 0⟩)).conn.state = .free) := by decide +kernel
  exact hnot (h hboth).1

/-- 1002 nanoseconds past a millisecond, the same acknowledgement moves the
connection on and the same run ends closed. -/
theorem close_completes_1002 :
    MovesOn true ⟨7, 1002⟩ (cardSegment 5001#32 1002#32 tcpAck [] (by decide))
        (run World.step (opened emptySlot 5 22 40000 1000#32)
          ((closingRun ⟨7, 1002⟩).take 2)).conn ∧
      ClosesAfterBoth 5 (run World.step (opened emptySlot 5 22 40000 1000#32)
        (closingRun ⟨7, 1002⟩)) ∧
      BothFins (run World.step (opened emptySlot 5 22 40000 1000#32) (closingRun ⟨7, 1002⟩)) := by
  have h := close_completes true ⟨7, 1002⟩
    (cardSegment 5001#32 1002#32 tcpAck [] (by decide))
    (run World.step (opened emptySlot 5 22 40000 1000#32) ((closingRun ⟨7, 1002⟩).take 2)).conn
    emptySlot 5 22 40000 1000#32 (closingRun ⟨7, 1002⟩)
  exact ⟨(h.1 (by decide +kernel) (by decide +kernel)).mpr (by decide +kernel),
    h.2 (by decide +kernel), by decide +kernel⟩

end Phi.Tcp
