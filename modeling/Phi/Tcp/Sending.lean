import Phi.Lib.Modular
import Phi.Tcp.Frame

/-!
# Phi.Tcp.Sending

The send ring while the connection still sends.

Before its FIN the two ways a connection counts what is out agree: the
sequence numbers in flight are bytes of the send ring, and the ring holds at
most its size.  `Conn.SendOk` says so; every routine that works on the ring
keeps it.
-/

namespace Phi.Tcp

/-- What is in flight lies in the send ring, which holds at most its size. -/
structure Conn.SendOk (c : Conn) : Prop where
  inFlight_le : c.inFlight.toNat ≤ c.sbUsed
  sbUsed_le : c.sbUsed ≤ sndCap

theorem Conn.SendOk.congr {c c' : Conn} (h : c.SendOk) (hs : SameSend c' c) : c'.SendOk :=
  ⟨by rw [hs.inFlight, hs.sbUsed]; exact h.1, by rw [hs.sbUsed]; exact h.2⟩

section sizes

variable {c : Conn}

/-- The room is the size less what is there. -/
theorem sbFree_eq (h : c.SendOk) : c.sbFree = sndCap - c.sbUsed := by
  have hle := h.sbUsed_le
  simp only [Conn.sbFree, Conn.sbUsed, sndCap] at hle ⊢
  bv_omega

/-- What is unsent is what is there less what is in flight. -/
theorem unsent_eq (h : c.SendOk) : c.unsent = c.sbUsed - c.inFlight.toNat := by
  obtain ⟨hle, hused⟩ := h
  simp only [Conn.unsent, Conn.nextIndex, Conn.sbUsed, sndCap] at hle hused ⊢
  bv_omega

end sizes

section steps

variable {c : Conn}

/-- Bytes read from the host fit the room. -/
theorem Conn.SendOk.readHost (h : c.SendOk) (io : StepIO) : (readHost io c).conn.SendOk := by
  obtain ⟨b, hr⟩ | ⟨bs, -, hlen, hr⟩ := readHost_spec io c
  · rw [hr]
    exact h.congr ⟨rfl, rfl, rfl, rfl, rfl, rfl⟩
  · have hfree := sbFree_eq h
    have hpiece := sbPiece_le_sbFree c
    obtain ⟨hle, hused⟩ := h
    rw [hr]
    have hnew : (c.sbTail + BitVec.ofNat 64 bs.length - c.sbHead).toNat =
        c.sbUsed + bs.length := by
      simp only [Conn.sbUsed, sndCap] at *
      bv_omega
    constructor
    · show c.inFlight.toNat ≤ (c.sbTail + BitVec.ofNat 64 bs.length - c.sbHead).toNat
      omega
    · show (c.sbTail + BitVec.ofNat 64 bs.length - c.sbHead).toNat ≤ sndCap
      omega

/-- The bytes of a segment were unsent. -/
theorem Conn.SendOk.sendOne (h : c.SendOk) (io : StepIO) : (sendOne io c).conn.SendOk := by
  have hunsent := unsent_eq h
  have hlen := nextLen_le_unsent c
  obtain ⟨-, -, -, hsame, -, -⟩ := sendOne_spec io c
  refine Conn.SendOk.congr ?_ hsame
  obtain ⟨hle, hused⟩ := h
  have hnew : (c.sndNxt + BitVec.ofNat 32 c.nextLen - c.sndUna).toNat =
      c.inFlight.toNat + c.nextLen := by
    simp only [Conn.inFlight, sndCap] at *
    bv_omega
  refine ⟨?_, hused⟩
  show (c.sndNxt + BitVec.ofNat 32 c.nextLen - c.sndUna).toNat ≤ c.sbUsed
  omega

theorem Conn.SendOk.sendLoop (io : StepIO) (quota : Nat) {c : Conn} (h : c.SendOk) :
    (sendLoop io quota c).conn.SendOk := by
  induction quota generalizing c with
  | zero => exact h
  | succ quota ih =>
      unfold Tcp.sendLoop
      split
      · exact h
      · exact ih (h.sendOne io)

theorem Conn.SendOk.sendData (h : c.SendOk) (io : StepIO) : (sendData io c).conn.SendOk := by
  unfold Tcp.sendData
  split
  · exact h.sendLoop io sendQuota
  · exact h

/-- An acknowledgement of bytes only takes as many off both counts. -/
theorem Conn.SendOk.applyAck (h : c.SendOk) (hfin : c.finSeq = 0#32) (t : Timespec)
    (s : Segment) : (applyAck s t c).SendOk := by
  cases htake : c.takesAck s with
  | false =>
      exact h.congr (sameCore_applyAck t s c htake).toSameSend
  | true =>
      rw [applyAck_of_takesAck t s c htake]
      have hbytes : c.ackedBytes s = c.acked s := by
        simp [Conn.ackedBytes, Conn.countsFin, hfin]
      obtain ⟨hle, hused⟩ := h
      have hacked : c.acked s ≤ c.inFlight := by
        simp only [Conn.takesAck, Bool.and_eq_true, decide_eq_true_eq] at htake
        exact htake.1.2
      have hflight : (c.sndNxt - s.ackNo).toNat = c.inFlight.toNat - (c.acked s).toNat := by
        simp only [Conn.acked, Conn.inFlight] at *
        bv_omega
      have hring : (c.sbTail - (c.sbHead + (c.ackedBytes s).setWidth 64)).toNat =
          c.sbUsed - (c.acked s).toNat := by
        rw [hbytes]
        simp only [Conn.sbUsed] at *
        bv_omega
      constructor
      · show (c.sndNxt - s.ackNo).toNat ≤
          (c.sbTail - (c.sbHead + (c.ackedBytes s).setWidth 64)).toNat
        omega
      · show (c.sbTail - (c.sbHead + (c.ackedBytes s).setWidth 64)).toNat ≤ sndCap
        omega

end steps

end Phi.Tcp
