import Phi.Lib.Modular
import Phi.Tcp.Frame

/-!
# Phi.Tcp.Receiving

The receive ring as a queue.

Payload enters the ring at its tail and leaves it, for the host socket, at its
head.  What was stored is what was written followed by what the ring holds,
whatever else happens to the connection: `RecvRing` says so, starting from a
ring that holds any bytes.
-/

namespace Phi.Tcp

open Circular Phi.Modular

/-! ## what the history stored and wrote -/

/-- Payload an effect takes into the receive ring. -/
def Effect.storedBytes : Effect → List UInt8
  | .stored bs => bs
  | _ => []

/-- Bytes an effect hands to the host socket. -/
def Effect.writtenBytes : Effect → List UInt8
  | .hostWrite bs => bs
  | _ => []

/-- The payload taken so far. -/
def stored (tr : List Effect) : List UInt8 := collect Effect.storedBytes tr

/-- The bytes handed to the host socket so far. -/
def written (tr : List Effect) : List UInt8 := collect Effect.writtenBytes tr

@[simp] theorem stored_append (tr es : List Effect) :
    stored (tr ++ es) = stored tr ++ stored es := collect_append _ tr es

@[simp] theorem written_append (tr es : List Effect) :
    written (tr ++ es) = written tr ++ written es := collect_append _ tr es

/-- Nothing is taken and nothing handed on. -/
def RecvQuiet (es : List Effect) : Prop :=
  ∀ e ∈ es, e.storedBytes = [] ∧ e.writtenBytes = []

theorem RecvQuiet.stored {es : List Effect} (h : RecvQuiet es) : stored es = [] :=
  collect_eq_nil fun e he => (h e he).1

theorem RecvQuiet.written {es : List Effect} (h : RecvQuiet es) : written es = [] :=
  collect_eq_nil fun e he => (h e he).2

theorem OnlyEmits.recvQuiet {es : List Effect} (h : OnlyEmits es) : RecvQuiet es := by
  intro e he
  obtain ⟨s, rfl⟩ := h e he
  exact ⟨rfl, rfl⟩

/-! ## the ring -/

/-- The ring holds `content` from the true index `lo` on, and with `init`
found in it at the start, what was stored is what was written and `content`. -/
structure RecvRing (init : List UInt8) (lo : Nat) (content : List UInt8) (c : Conn)
    (tr : List Effect) : Prop where
  head_eq : c.rbHead = BitVec.ofNat 64 lo
  tail_eq : c.rbTail = BitVec.ofNat 64 (lo + content.length)
  fits : content.length ≤ rcvCap
  holds : Holds c.rcvBuf rcvCap lo content
  stored_eq : init ++ stored tr = written tr ++ content

section ring

variable {init : List UInt8} {lo : Nat} {content : List UInt8} {c c' : Conn} {tr es : List Effect}

theorem RecvRing.rbUsed (h : RecvRing init lo content c tr) : c.rbUsed = content.length := by
  have hfits := h.fits
  unfold Conn.rbUsed rcvCap at *
  rw [h.head_eq, h.tail_eq, toNat_ofNat_sub 64 (by omega) (by omega)]
  omega

theorem RecvRing.rbFree (h : RecvRing init lo content c tr) :
    c.rbFree = rcvCap - content.length := by
  have hused := h.rbUsed
  have hfits := h.fits
  unfold Conn.rbUsed Conn.rbFree rcvCap at *
  bv_omega

/-- The head is the tail only when the ring is empty. -/
theorem RecvRing.tail_eq_head (h : RecvRing init lo content c tr) :
    c.rbTail = c.rbHead ↔ content = [] := by
  have hfits := h.fits
  unfold rcvCap at hfits
  rw [h.head_eq, h.tail_eq, ofNat_inj_of_lt 64 (by omega) (by omega)]
  rw [← List.length_eq_zero_iff]
  omega

/-- What works on the other half, and hands nothing on, keeps the ring. -/
theorem RecvRing.congr (h : RecvRing init lo content c tr) (hsame : SameRecv c' c)
    (hes : RecvQuiet es) : RecvRing init lo content c' (tr ++ es) where
  head_eq := hsame.rbHead.trans h.head_eq
  tail_eq := hsame.rbTail.trans h.tail_eq
  fits := h.fits
  holds := by rw [hsame.rcvBuf]; exact h.holds
  stored_eq := by
    rw [stored_append, written_append, hes.stored, hes.written, List.append_nil, List.append_nil]
    exact h.stored_eq

/-- The cell of a ring index, its word having 64 bits. -/
theorem toNat_ofNat_mod_rcvCap (p : Nat) :
    (BitVec.ofNat 64 p).toNat % rcvCap = p % rcvCap := by
  rw [BitVec.toNat_ofNat, Nat.mod_mod_of_dvd _ (by decide)]

/-! ## storing -/

/-- What a payload in order appends to the ring. -/
def Conn.fitting (c : Conn) (s : Segment) : List UInt8 :=
  s.payload.take (min s.payload.length c.rbFree)

theorem stored_storePayload (s : Segment) (c : Conn) :
    stored (storePayload s c).effects = c.fitting s := by
  rw [effects_storePayload]
  unfold Conn.fitting
  split
  · next h =>
      rw [h, List.take_zero]
      rfl
  · exact List.append_nil _

theorem written_storePayload (s : Segment) (c : Conn) :
    written (storePayload s c).effects = [] := by
  rw [effects_storePayload]
  split
  · rfl
  · rfl

theorem length_fitting (s : Segment) (c : Conn) :
    (c.fitting s).length = min s.payload.length c.rbFree := by
  unfold Conn.fitting
  rw [List.length_take]
  omega

theorem effects_storePayload_eq (s : Segment) (c : Conn) : (storePayload s c).effects =
    if c.fitting s = [] then [] else [.stored (c.fitting s)] := by
  have hiff : min s.payload.length c.rbFree = 0 ↔ c.fitting s = [] := by
    rw [← length_fitting, List.length_eq_zero_iff]
  rw [effects_storePayload]
  simp only [hiff]
  rfl

/-- `storePayload` on the receiving half: the fitting bytes and no others. -/
theorem storePayload_recv (s : Segment) (c : Conn) :
    (storePayload s c).conn.rbHead = c.rbHead ∧
    (storePayload s c).conn.rbTail = c.rbTail + BitVec.ofNat 64 (c.fitting s).length ∧
    (storePayload s c).conn.rcvBuf = writeWrap c.rcvBuf rcvCap c.rbTail.toNat (c.fitting s) ∧
    (storePayload s c).conn.rcvNxt = c.rcvNxt + BitVec.ofNat 32 (c.fitting s).length ∧
    (storePayload s c).conn.cardEof = c.cardEof ∧
    (storePayload s c).conn.hostShut = c.hostShut := by
  have hlen := length_fitting s c
  rw [hlen]
  unfold storePayload
  dsimp only
  split
  · next h =>
      have hnil : c.fitting s = [] := by
        rw [← List.length_eq_zero_iff, hlen, h]
      rw [h, hnil]
      simp [writeWrap]
  · exact ⟨rfl, rfl, rfl, rfl, rfl, rfl⟩

/-- The fitting bytes are appended to the queue. -/
theorem RecvRing.storePayload (h : RecvRing init lo content c tr) (s : Segment) :
    RecvRing init lo (content ++ c.fitting s) (storePayload s c).conn
      (tr ++ (storePayload s c).effects) := by
  obtain ⟨hhead, htail, hbuf, -⟩ := storePayload_recv s c
  have hfree := h.rbFree
  have hlen := length_fitting s c
  have hfits : content.length + (c.fitting s).length ≤ rcvCap := by
    have := h.fits
    omega
  exact { head_eq := hhead.trans h.head_eq
          tail_eq := by
            rw [htail, h.tail_eq, ← BitVec.ofNat_add, List.length_append, Nat.add_assoc]
          fits := by rw [List.length_append]; exact hfits
          holds := by
            have hw := h.holds.writeWrap hfits
            have hcell : c.rbTail.toNat % rcvCap = (lo + content.length) % rcvCap := by
              rw [h.tail_eq, toNat_ofNat_mod_rcvCap]
            rw [hbuf, writeWrap_congr _ hcell]
            exact hw
          stored_eq := by
            rw [stored_append, written_append, stored_storePayload, written_storePayload,
              List.append_nil, ← List.append_assoc, h.stored_eq, List.append_assoc] }

/-- A FIN taken leaves the ring alone. -/
theorem RecvRing.takeFin (h : RecvRing init lo content c tr) (s : Segment) :
    RecvRing init lo content (takeFin s c).conn (tr ++ (takeFin s c).effects) := by
  cases hfin : c.finInOrder s with
  | false =>
      rw [takeFin_of_not_finInOrder s c hfin]
      simpa using h
  | true =>
      rw [takeFin_of_finInOrder s c hfin]
      exact { head_eq := h.head_eq
              tail_eq := h.tail_eq
              fits := h.fits
              holds := h.holds
              stored_eq := by
                rw [stored_append, written_append]
                simpa [Tcp.stored, Tcp.written, Effect.storedBytes, Effect.writtenBytes]
                  using h.stored_eq }

/-! ## what a segment does to the state -/

/-- The segment's payload is taken, in part at least. -/
def Conn.takesPayload (c : Conn) (s : Segment) : Bool :=
  s.seq = c.rcvNxt && !s.payload.isEmpty && c.rbFree ≠ 0

/-- The segment's FIN is taken: it is in order and all before it fits. -/
def Conn.takesFin (c : Conn) (s : Segment) : Bool :=
  s.seq = c.rcvNxt && s.has tcpFin && s.payload.length ≤ c.rbFree

theorem fitting_eq_nil_iff {s : Segment} {c : Conn} (hseq : s.seq = c.rcvNxt) :
    c.fitting s = [] ↔ c.takesPayload s = false := by
  rw [← List.length_eq_zero_iff, length_fitting]
  simp only [Conn.takesPayload, hseq, decide_true, Bool.true_and]
  cases hp : s.payload with
  | nil => simp
  | cons b bs => simp

/-- After the payload, the FIN is in order exactly when all of it fitted. -/
theorem finInOrder_storePayload {s : Segment} {c : Conn} (hseq : s.seq = c.rcvNxt) :
    (storePayload s c).conn.finInOrder s = c.takesFin s := by
  have hlen := length_fitting s c
  have hle := s.payload_le
  have hnxt := (storePayload_recv s c).2.2.2.1
  have hiff : s.seq + BitVec.ofNat 32 s.payload.length = (storePayload s c).conn.rcvNxt ↔
      s.payload.length ≤ c.rbFree := by
    rw [hnxt, hseq, BitVec.add_right_inj, ofNat_inj_of_lt 32 (by omega) (by omega)]
    omega
  simp only [Conn.finInOrder, Conn.takesFin, hseq, decide_true, Bool.true_and]
  rw [← hseq]
  simp only [hiff]

theorem finTaken_mem_applyPayload (mac : Bool) (s : Segment) (c : Conn) :
    .finTaken ∈ (applyPayload mac s c).effects ↔ c.takesFin s = true := by
  obtain ⟨hseq, -, hes⟩ | ⟨hseq, -, es, hes, heff⟩ := applyPayload_spec mac s c
  · have hno := not_finTaken_mem_of_onlyEmits hes.onlyEmits
    simp [hno, Conn.takesFin, hseq]
  · have hno := not_finTaken_mem_of_onlyEmits hes.onlyEmits
    have hstore : .finTaken ∉ (storePayload s c).effects := by
      rw [effects_storePayload]
      split
      · simp
      · simp
    have hfin := finInOrder_storePayload hseq
    rw [heff]
    cases htf : c.takesFin s with
    | false =>
        rw [htf] at hfin
        rw [takeFin_of_not_finInOrder s _ hfin]
        simp [hno, hstore]
    | true =>
        rw [htf] at hfin
        rw [takeFin_of_finInOrder s _ hfin]
        simp

theorem SameRecv.takesFin {a b : Conn} (h : SameRecv a b) (s : Segment) :
    a.takesFin s = b.takesFin s := by
  rw [Conn.takesFin, Conn.takesFin, h.rcvNxt, h.rbFree]

theorem SameRecv.takesPayload {a b : Conn} (h : SameRecv a b) (s : Segment) :
    a.takesPayload s = b.takesPayload s := by
  rw [Conn.takesPayload, Conn.takesPayload, h.rcvNxt, h.rbFree]

theorem SameRecv.fitting {a b : Conn} (h : SameRecv a b) (s : Segment) :
    a.fitting s = b.fitting s := by
  rw [Conn.fitting, Conn.fitting, h.rbFree]

/-- The acknowledgement is taken for that of our FIN. -/
def Conn.ackMoves (c : Conn) (s : Segment) (t : Timespec) : Bool :=
  c.takesAck s && c.finAckSeen t

/-- Past the handshake, the acknowledgement and then the FIN move the state. -/
theorem state_segment (mac : Bool) (t : Timespec) (s : Segment) (c : Conn) :
    (applyPayload mac s (applyAck s t c)).conn.state =
      let st := if c.ackMoves s t then finAckedState c.state else c.state
      if c.takesFin s then finTakenState st else st := by
  rw [state_applyPayload]
  simp only [finTaken_mem_applyPayload, (sameRecv_applyAck t s c).takesFin, state_applyAck]
  rfl

/-! ## writing -/

/-- The piece at the front lies inside the queue and ends before the area. -/
theorem RecvRing.frontBytes (h : RecvRing init lo content c tr) {n : Nat} (hn : n ≤ c.rbPiece) :
    n ≤ content.length ∧ c.frontBytes n = content.take n := by
  have hused := h.rbUsed
  unfold Conn.rbPiece at hn
  have hcell : c.rbHead.toNat % rcvCap = lo % rcvCap := by
    rw [h.head_eq, toNat_ofNat_mod_rcvCap]
  have hle : n ≤ content.length := by omega
  have hlt : lo % rcvCap < rcvCap := Nat.mod_lt _ (by decide)
  refine ⟨hle, ?_⟩
  unfold Conn.frontBytes
  rw [hcell]
  exact h.holds.read hle (by omega)

/-- Bytes written leave the front of the queue. -/
theorem RecvRing.advanceRb (h : RecvRing init lo content c tr) {n : Nat} (hn : n ≤ c.rbPiece)
    (hes : OnlyEmits es) : ∃ lo', RecvRing init lo' (content.drop n) (c.advanceRb n)
      (tr ++ .hostWrite (c.frontBytes n) :: es) := by
  obtain ⟨hle, hfront⟩ := h.frontBytes hn
  have hstored : init ++ stored (tr ++ .hostWrite (c.frontBytes n) :: es) =
      written (tr ++ .hostWrite (c.frontBytes n) :: es) ++ content.drop n := by
    have hs : stored (.hostWrite (c.frontBytes n) :: es) = [] := hes.recvQuiet.stored
    have hw : written (.hostWrite (c.frontBytes n) :: es) = content.take n := by
      have h0 := hes.recvQuiet.written
      unfold written at h0 ⊢
      rw [collect_cons, h0, List.append_nil, ← hfront]
      rfl
    rw [stored_append, written_append, hs, hw, List.append_nil, h.stored_eq, List.append_assoc,
      List.take_append_drop]
  have hfits := h.fits
  by_cases hall : c.rbTail = c.rbHead + BitVec.ofNat 64 n
  · -- an empty ring restarts at 0
    have hlen : content.length = n := by
      rw [h.tail_eq, h.head_eq, ← BitVec.ofNat_add] at hall
      unfold rcvCap at hfits
      have := (ofNat_inj_of_lt 64 (by omega) (by omega)).mp hall
      omega
    have hdrop : content.drop n = [] := by rw [← hlen, List.drop_length]
    have hadv : c.advanceRb n = { c with rbHead := 0#64, rbTail := 0#64 } := by
      simp [Conn.advanceRb, hall]
    refine ⟨0, ?_⟩
    rw [hdrop] at hstored ⊢
    rw [hadv]
    exact ⟨rfl, rfl, Nat.zero_le _, holds_nil _ _ _, hstored⟩
  · have hadv : c.advanceRb n = { c with rbHead := c.rbHead + BitVec.ofNat 64 n } := by
      simp [Conn.advanceRb, hall]
    refine ⟨lo + n, ?_⟩
    rw [hadv]
    exact { head_eq := by
              show c.rbHead + BitVec.ofNat 64 n = _
              rw [h.head_eq, ← BitVec.ofNat_add]
            tail_eq := by
              show c.rbTail = _
              rw [h.tail_eq, List.length_drop]
              congr 1
              omega
            fits := by rw [List.length_drop]; omega
            holds := h.holds.drop
            stored_eq := hstored }

end ring

end Phi.Tcp
