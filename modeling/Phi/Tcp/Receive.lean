import Phi.Tcp.Receiving

/-!
# Phi.Tcp.Receive

What a conforming peer's stream becomes in the receive ring.

A peer numbers its stream: its SYN has position 0, its bytes follow from
position 1 on, and its FIN comes after the last.  A segment carries the bytes
at its position and the position's low 32 bits, and the network may drop,
repeat, reorder and overlap segments.  The code compares the 32 bits with
RCV_NXT and nothing else, so a segment is placed right as long as it is
delivered within 2^32 positions of RCV_NXT; then the ring gets the stream, in
order and once.  A duplicate that is a whole revolution late is taken again.
-/

namespace Phi.Tcp

open Circular Phi.Modular

/-! ## the peer -/

/-- A peer: the number of its SYN and the bytes it sends. -/
structure Peer where
  irs : W32
  stream : List UInt8

/-- The segment is the peer's at position `p`: its number is the position's,
its payload the stream's bytes there, its SYN the first position and its FIN
the one after the last byte. -/
structure Peer.Sends (P : Peer) (p : Nat) (s : Segment) : Prop where
  seq_eq : s.seq = P.irs + BitVec.ofNat 32 p
  payload_eq : s.payload ≠ [] →
    1 ≤ p ∧ s.payload = (P.stream.drop (p - 1)).take s.payload.length
  syn_first : s.has tcpSyn = true → p = 0
  fin_last : s.has tcpFin = true → p + s.payload.length = P.stream.length + 1

/-- FINs taken. -/
def fins (tr : List Effect) : Nat := tr.count .finTaken

@[simp] theorem fins_append (tr es : List Effect) : fins (tr ++ es) = fins tr + fins es :=
  List.count_append

/-- A connection with `k` bytes of the peer's stream and `f` FINs taken: its
ring may hold any bytes.  Before the handshake it has nothing of the stream. -/
structure Synced (P : Peer) (k f : Nat) (c : Conn) : Prop where
  opening : c.state = .synSent → k = 0 ∧ f = 0
  rcvNxt_eq : c.state ≠ .synSent → c.rcvNxt = P.irs + BitVec.ofNat 32 (1 + k + f)
  stream_le : k ≤ P.stream.length
  fin_le : f ≤ 1
  fin_last : f = 1 → k = P.stream.length
  ring_le : c.rbUsed ≤ rcvCap

/-- Position of RCV_NXT, having started with `k` bytes and `f` FINs taken. -/
def nextPosition (k f : Nat) (tr : List Effect) : Nat :=
  1 + (k + (stored tr).length) + (f + fins tr)

/-- A segment of the peer, from anywhere in its stream. -/
def FromPeer (P : Peer) : Event → Prop
  | .segment s _ _ => ∃ p, P.Sends p s
  | .turn _ => True

/-- A segment of the peer: one that does not refuse the connection before the
handshake, and from less than 2^32 positions off RCV_NXT after it. -/
def InReach (P : Peer) (k f : Nat) (w : World) : Event → Prop
  | .segment s _ _ => ∃ p, P.Sends p s ∧
      (w.conn.state = .synSent → s.has tcpRst = false) ∧
      (w.conn.state ≠ .synSent →
        p < nextPosition k f w.trace + 2 ^ 32 ∧ nextPosition k f w.trace < p + 2 ^ 32)
  | .turn _ => True

/-- The bytes in the receive ring. -/
def Conn.ringBytes (c : Conn) : List UInt8 :=
  readWrap c.rcvBuf rcvCap c.rbHead.toNat c.rbUsed

/-- A FIN is taken only when every byte of the stream has been. -/
def FinLastAt (P : Peer) (k : Nat) (pre : List Effect) (e : Effect) : Prop :=
  e = .finTaken → k + (stored pre).length = P.stream.length

/-- The stream arrived right, from a start `c` with `k` bytes and `f` FINs
taken: what was stored are the stream's next bytes, the ring holds what was
not written yet, RCV_NXT passed each byte stored and the FIN, from the peer's
SYN on if the start was before the handshake, and the FIN came once and last. -/
structure ReceivedInOrder (P : Peer) (k f : Nat) (c : Conn) (w : World) : Prop where
  inOrder : stored w.trace <+: P.stream.drop k
  inRing : c.ringBytes ++ stored w.trace = written w.trace ++ w.conn.ringBytes
  rcvNxt_eq : c.state ≠ .synSent → w.conn.rcvNxt =
    c.rcvNxt + BitVec.ofNat 32 ((stored w.trace).length + fins w.trace)
  rcvNxt_opening : c.state = .synSent →
    (w.conn.rcvNxt = c.rcvNxt ∧ stored w.trace = [] ∧ fins w.trace = 0) ∨
    w.conn.rcvNxt =
      P.irs + 1#32 + BitVec.ofNat 32 ((stored w.trace).length + fins w.trace)
  finOnce : f + fins w.trace ≤ 1
  finLast : Each (FinLastAt P k) w.trace
  ring_le : w.conn.rbUsed ≤ rcvCap

/-! ## the invariant -/

/-- A connection that had its handshake is not opening; one that did not is, or
is over. -/
def Phase (joined : Bool) (st : State) : Prop :=
  match joined with
  | true => st ≠ .synSent
  | false => st = .synSent ∨ st = .closed ∨ st = .free

theorem phase_over (joined : Bool) : Phase joined .closed ∧ Phase joined .free := by
  cases joined with
  | true => exact ⟨nofun, nofun⟩
  | false => exact ⟨.inr (.inl rfl), .inr (.inr rfl)⟩

/-- The ring is a queue, and RCV_NXT is as far past `base` as the stream was
taken; nothing is before the handshake. -/
structure ReceiveInv (P : Peer) (k f : Nat) (init : List UInt8) (joined : Bool) (base : W32)
    (c : Conn) (tr : List Effect) : Prop where
  phase : Phase joined c.state
  ring : ∃ lo content, RecvRing init lo content c tr
  inOrder : stored tr <+: P.stream.drop k
  rcvNxt_eq : c.rcvNxt = base + BitVec.ofNat 32 ((stored tr).length + fins tr)
  finOnce : f + fins tr ≤ 1
  finAll : f + fins tr = 1 → k + (stored tr).length = P.stream.length
  finLast : Each (FinLastAt P k) tr
  untouched : joined = false → stored tr = [] ∧ fins tr = 0

section invariant

variable {P : Peer} {k f : Nat} {init : List UInt8} {joined : Bool} {base : W32} {c c' : Conn}
  {tr es : List Effect}

theorem fins_eq_zero (h : .finTaken ∉ es) : fins es = 0 := List.count_eq_zero.mpr h

/-- What takes nothing from the card keeps the invariant. -/
theorem ReceiveInv.congr (h : ReceiveInv P k f init joined base c tr)
    (hphase : Phase joined c'.state) (hnxt : c'.rcvNxt = c.rcvNxt)
    (hring : ∃ lo content, RecvRing init lo content c' (tr ++ es)) (hes : stored es = [])
    (hfin : .finTaken ∉ es) : ReceiveInv P k f init joined base c' (tr ++ es) := by
  have hstored : stored (tr ++ es) = stored tr := by
    rw [stored_append, hes, List.append_nil]
  have hfins : fins (tr ++ es) = fins tr := by
    rw [fins_append, fins_eq_zero hfin, Nat.add_zero]
  exact { phase := hphase
          ring := hring
          inOrder := by rw [hstored]; exact h.inOrder
          rcvNxt_eq := by rw [hnxt, hstored, hfins]; exact h.rcvNxt_eq
          finOnce := by rw [hfins]; exact h.finOnce
          finAll := by rw [hstored, hfins]; exact h.finAll
          finLast := each_append_of_forall h.finLast fun e he pre heq => absurd (heq ▸ he) hfin
          untouched := by rw [hstored, hfins]; exact h.untouched }

/-- What works on the other half, and hands nothing on, keeps the invariant. -/
theorem ReceiveInv.same (h : ReceiveInv P k f init joined base c tr)
    (hphase : Phase joined c'.state) (hsame : SameRecv c' c) (hes : RecvQuiet es)
    (hfin : .finTaken ∉ es) : ReceiveInv P k f init joined base c' (tr ++ es) := by
  obtain ⟨lo, content, hr⟩ := h.ring
  exact h.congr hphase hsame.rcvNxt ⟨lo, content, hr.congr hsame hes⟩ hes.stored hfin

/-- Windows, timers and segments do not matter. -/
theorem ReceiveInv.idle (h : ReceiveInv P k f init joined base c tr) (hcore : SameCore c' c)
    (hes : OnlyEmits es) : ReceiveInv P k f init joined base c' (tr ++ es) :=
  h.same (by rw [hcore.state]; exact h.phase) hcore.toSameRecv hes.recvQuiet
    (not_finTaken_mem_of_onlyEmits hes)

end invariant

/-! ## a turn -/

section turn

variable (P : Peer) (k f : Nat) (init : List UInt8) (joined : Bool) (base : W32) (io : StepIO)

theorem receiveInv_writeHost : Keeps (ReceiveInv P k f init joined base) (writeHost io) := by
  intro c tr ⟨hfree, h⟩
  obtain ⟨hcore, hes⟩ | ⟨n, es, hn, hemit, hcore, hes⟩ |
    ⟨es, hemit, -, hsame, -, hst, hes⟩ := writeHost_spec io c
  · exact ⟨by rw [hcore.state]; exact hfree, h.idle hcore (by simp [hes])⟩
  · obtain ⟨lo, content, hr⟩ := h.ring
    obtain ⟨lo', hadv⟩ := hr.advanceRb hn hemit.onlyEmits
    obtain ⟨-, hst, -⟩ := sameSend_advanceRb c n
    have hst' := hcore.state.trans hst
    have hnxt : (c.advanceRb n).rcvNxt = c.rcvNxt := by
      unfold Conn.advanceRb
      dsimp only
      split
      · rfl
      · rfl
    refine ⟨by rw [hst']; exact hfree, ?_⟩
    rw [hes]
    refine h.congr (by rw [hst']; exact h.phase) (hcore.rcvNxt.trans hnxt)
      ⟨lo', content.drop n, ?_⟩ ?_ ?_
    · simpa using hadv.congr hcore.toSameRecv onlyEmits_nil.recvQuiet
    · exact hemit.onlyEmits.recvQuiet.stored
    · simp [not_finTaken_mem_of_onlyEmits hemit.onlyEmits]
  · refine ⟨by simp [hst], ?_⟩
    rw [hes]
    refine h.same (by rw [hst]; exact (phase_over joined).1) hsame ?_ ?_
    · intro e he
      cases List.mem_append.mp he with
      | inl hl => exact hemit.onlyEmits.recvQuiet e hl
      | inr hr => simp [List.mem_singleton.mp hr, Effect.storedBytes, Effect.writtenBytes]
    · simp [not_finTaken_mem_of_onlyEmits hemit.onlyEmits]

theorem receiveInv_shutHost : Keeps (ReceiveInv P k f init joined base) shutHost := by
  intro c tr ⟨hfree, h⟩
  obtain hr | ⟨-, -, -, hr⟩ := shutHost_spec c
  · rw [hr]
    simpa using ⟨hfree, h⟩
  · rw [hr]
    obtain ⟨lo, content, hring⟩ := h.ring
    have hquiet : RecvQuiet [.shutWr] := by
      intro e he
      simp [List.mem_singleton.mp he, Effect.storedBytes, Effect.writtenBytes]
    have hring' := hring.congr (SameRecv.refl c) hquiet
    exact ⟨hfree, h.congr h.phase rfl
      ⟨lo, content, hring'.head_eq, hring'.tail_eq, hring'.fits, hring'.holds, hring'.stored_eq⟩
      hquiet.stored (by simp)⟩

theorem receiveInv_readHost : Keeps (ReceiveInv P k f init joined base) (readHost io) := by
  intro c tr ⟨hfree, h⟩
  obtain ⟨b, hr⟩ | ⟨bs, -, -, hr⟩ := readHost_spec io c
  · rw [hr]
    exact ⟨hfree, h.same h.phase ⟨rfl, rfl, rfl, rfl, rfl, rfl⟩ onlyEmits_nil.recvQuiet (by simp)⟩
  · rw [hr]
    refine ⟨hfree, h.same h.phase ⟨rfl, rfl, rfl, rfl, rfl, rfl⟩ ?_ (by simp)⟩
    intro e he
    simp [List.mem_singleton.mp he, Effect.storedBytes, Effect.writtenBytes]

theorem receiveInv_sendData : Keeps (ReceiveInv P k f init joined base) (sendData io) := by
  intro c tr ⟨hfree, h⟩
  obtain ⟨hsame, hst, -, -, hemit⟩ := sendData_spec io c
  exact ⟨by rw [hst]; exact hfree, h.same (by rw [hst]; exact h.phase) hsame hemit.recvQuiet
    (not_finTaken_mem_of_onlyEmits hemit)⟩

theorem receiveInv_sendFin : Keeps (ReceiveInv P k f init joined base) (sendFin io) := by
  intro c tr ⟨hfree, h⟩
  obtain hr | ⟨-, -, -, hsends, hsame, -, hst, -, hes⟩ := sendFin_spec io c
  · rw [hr]
    simpa using ⟨hfree, h⟩
  · have hemit := onlyEmits_sendSegment io.mac (tcpFin ||| tcpAck) [] c.sndNxt
      { c with state := finSentState c.state, finSeq := c.sndNxt }
    have hphase := h.phase
    have hnext : finSentState c.state ≠ .free ∧ Phase joined (finSentState c.state) := by
      cases joined <;> cases hc : c.state <;>
        simp [hc, Phase, Conn.sends, finSentState] at hphase hsends ⊢
    refine ⟨by rw [hst]; exact hnext.1, h.same (by rw [hst]; exact hnext.2) hsame ?_ ?_⟩
    · rw [hes]
      intro e he
      cases List.mem_append.mp he with
      | inl hl => exact hemit.recvQuiet e hl
      | inr hr => simp [List.mem_singleton.mp hr, Effect.storedBytes, Effect.writtenBytes]
    · rw [hes]
      simp [not_finTaken_mem_of_onlyEmits hemit]

theorem receiveInv_retransmit : Keeps (ReceiveInv P k f init joined base) (retransmit io) := by
  intro c tr ⟨hfree, h⟩
  obtain hr | ⟨-, hsame, -, hst, hes⟩ | ⟨-, c', hcore, hr⟩ := retransmit_spec io c
  · rw [hr]
    simpa using ⟨hfree, h⟩
  · refine ⟨by simp [hst],
      h.same (by rw [hst]; exact (phase_over joined).1) hsame ?_ (by simp [hes])⟩
    rw [hes]
    intro e he
    simp [List.mem_singleton.mp he, Effect.storedBytes, Effect.writtenBytes]
  · have hcore' := (sameCore_resend io c').trans hcore
    rw [hr]
    exact ⟨by rw [hcore'.state]; exact hfree, h.idle hcore' (onlyEmits_resend io c')⟩

theorem receiveInv_closeHost :
    Carries (InUse (ReceiveInv P k f init joined base)) (ReceiveInv P k f init joined base)
      closeHost := by
  intro c tr ⟨hfree, h⟩
  obtain ⟨-, hr⟩ | ⟨-, hr⟩ := closeHost_spec c
  · rw [hr]
    simpa using h
  · rw [hr]
    refine h.same (phase_over joined).2 ⟨rfl, rfl, rfl, rfl, rfl, rfl⟩ ?_ ?_
    · intro e he
      dsimp only at he
      split at he <;> simp at he
      · simp [he, Effect.storedBytes, Effect.writtenBytes]
      · cases he with
        | inl h0 => simp [h0, Effect.storedBytes, Effect.writtenBytes]
        | inr h0 => simp [h0, Effect.storedBytes, Effect.writtenBytes]
    · dsimp only
      split
      · simp
      · simp

theorem receiveInv_connStep :
    Carries (InUse (ReceiveInv P k f init joined base)) (ReceiveInv P k f init joined base)
      (connStep io) :=
  carries_connStep (receiveInv_writeHost P k f init joined base io)
    (receiveInv_shutHost P k f init joined base) (receiveInv_readHost P k f init joined base io)
    (receiveInv_sendData P k f init joined base io) (receiveInv_sendFin P k f init joined base io)
    (receiveInv_retransmit P k f init joined base io) (receiveInv_closeHost P k f init joined base)

end turn

/-! ## a segment -/

section segment

variable {P : Peer} {k f : Nat} {init : List UInt8} {base : W32} {c : Conn} {tr : List Effect}

/-- A segment at RCV_NXT brings the next bytes of the stream, and its FIN only
past the last. -/
theorem Peer.Sends.atNext {p : Nat} {s : Segment} (hs : P.Sends p s)
    (h : ReceiveInv P k f init true base c tr) (hp : p = nextPosition k f tr) :
    s.payload <+: (P.stream.drop k).drop (stored tr).length ∧
    (s.payload ≠ [] → f + fins tr = 0) ∧
    (s.has tcpFin = true → f + fins tr = 0 ∧
      k + (stored tr).length + s.payload.length = P.stream.length) := by
  have honce := h.finOnce
  have hall := h.finAll
  unfold nextPosition at hp
  have hpay : s.payload ≠ [] → f + fins tr = 0 := by
    intro hne
    obtain ⟨-, hpl⟩ := hs.payload_eq hne
    by_cases h1 : f + fins tr = 1
    · -- past the FIN the stream has no bytes
      have hlen := congrArg List.length hpl
      rw [List.length_take, List.length_drop] at hlen
      have hpos : 0 < s.payload.length := List.length_pos_iff.mpr hne
      have := hall h1
      omega
    · omega
  refine ⟨?_, hpay, fun hfin => ?_⟩
  · by_cases hne : s.payload = []
    · rw [hne]
      exact List.nil_prefix
    · obtain ⟨-, hpl⟩ := hs.payload_eq hne
      have hpos : p - 1 = k + (stored tr).length := by
        have := hpay hne
        omega
      rw [List.drop_drop, ← hpos, hpl]
      exact List.take_prefix _ _
  · have hlast := hs.fin_last hfin
    have h0 : f + fins tr ≠ 1 := by
      intro h1
      have := hall h1
      omega
    omega

/-- A piece of what is left extends a prefix. -/
theorem prefix_append_of_prefix_drop {xs ys zs : List UInt8} (h : xs <+: ys)
    (hz : zs <+: ys.drop xs.length) : xs ++ zs <+: ys := by
  have hys : xs ++ ys.drop xs.length = ys := List.prefix_iff_eq_append.mp h
  rw [← hys, List.prefix_append_right_inj]
  exact hz

/-- The next bytes of the stream, as far as they fit, are appended. -/
theorem receiveInv_storePayload {s : Segment} (h : ReceiveInv P k f init true base c tr)
    (hpay : s.payload <+: (P.stream.drop k).drop (stored tr).length)
    (hopen : s.payload ≠ [] → f + fins tr = 0) :
    ReceiveInv P k f init true base (storePayload s c).conn
      (tr ++ (storePayload s c).effects) := by
  obtain ⟨lo, content, hring⟩ := h.ring
  have hstored := stored_storePayload s c
  have hfit : c.fitting s <+: s.payload := List.take_prefix _ _
  have hno : .finTaken ∉ (storePayload s c).effects := by
    rw [effects_storePayload_eq]
    split
    · simp
    · simp
  exact { phase := by
            rw [(sameSend_storePayload s c).2.1]
            exact h.phase
          ring := ⟨lo, _, hring.storePayload s⟩
          inOrder := by
            rw [stored_append, hstored]
            exact prefix_append_of_prefix_drop h.inOrder (hfit.trans hpay)
          rcvNxt_eq := by
            rw [(storePayload_recv s c).2.2.2.1, h.rcvNxt_eq, BitVec.add_assoc, ← BitVec.ofNat_add]
            congr 2
            simp only [stored_append, hstored, fins_append, fins_eq_zero hno, List.length_append]
            omega
          finOnce := by
            rw [fins_append, fins_eq_zero hno]
            exact h.finOnce
          finAll := fun hf => by
            rw [fins_append, fins_eq_zero hno] at hf
            have hnil : s.payload = [] := by
              by_cases hne : s.payload = []
              · exact hne
              · have := hopen hne
                omega
            have hfnil : c.fitting s = [] := by
              rw [hnil] at hfit
              exact List.prefix_nil.mp hfit
            rw [stored_append, hstored, hfnil, List.append_nil]
            exact h.finAll hf
          finLast := each_append_of_forall h.finLast fun e he pre heq => absurd (heq ▸ he) hno
          untouched := nofun }

/-- The FIN, taken with every byte of the stream. -/
theorem receiveInv_takeFin {s : Segment} (h : ReceiveInv P k f init true base c tr)
    (hfin : c.finInOrder s = true →
      f + fins tr = 0 ∧ k + (stored tr).length = P.stream.length) :
    ReceiveInv P k f init true base (takeFin s c).conn (tr ++ (takeFin s c).effects) := by
  cases hin : c.finInOrder s with
  | false =>
      rw [takeFin_of_not_finInOrder s c hin]
      simpa using h
  | true =>
      obtain ⟨h0, hall⟩ := hfin hin
      obtain ⟨lo, content, hring⟩ := h.ring
      have hring' := hring.takeFin s
      have hpast : c.state ≠ .synSent := h.phase
      rw [takeFin_of_finInOrder s c hin] at hring' ⊢
      have hst : stored (tr ++ [.finTaken]) = stored tr := by
        rw [stored_append]
        exact List.append_nil _
      have hf : fins (tr ++ [.finTaken]) = fins tr + 1 := by
        rw [fins_append]
        rfl
      exact { phase := by
                show finTakenState c.state ≠ .synSent
                cases hc : c.state <;> simp [hc, finTakenState] at hpast ⊢
              ring := ⟨lo, content, hring'⟩
              inOrder := by rw [hst]; exact h.inOrder
              rcvNxt_eq := by
                show c.rcvNxt + 1#32 = _
                rw [h.rcvNxt_eq, BitVec.add_assoc, show (1#32) = BitVec.ofNat 32 1 from rfl,
                  ← BitVec.ofNat_add]
                congr 2
                rw [hst, hf]
                omega
              finOnce := by rw [hf]; omega
              finAll := fun _ => by rw [hst]; exact hall
              finLast := by
                rw [each_append, each_singleton, List.append_nil]
                exact ⟨h.finLast, fun _ => hall⟩
              untouched := nofun }

/-- A segment keeps the invariant when one at RCV_NXT is the peer's there. -/
theorem receiveInv_applyPayload (mac : Bool) {s : Segment}
    (h : ReceiveInv P k f init true base c tr)
    (hs : s.seq = c.rcvNxt → ∃ p, P.Sends p s ∧ p = nextPosition k f tr) :
    ReceiveInv P k f init true base (applyPayload mac s c).conn
      (tr ++ (applyPayload mac s c).effects) := by
  obtain ⟨-, hcore, hes⟩ | ⟨hseq, hcore, es, hes, heff⟩ := applyPayload_spec mac s c
  · exact h.idle hcore hes.onlyEmits
  · obtain ⟨p, hp, hpos⟩ := hs hseq
    obtain ⟨hpay, hopen, hlast⟩ := hp.atNext h hpos
    have hstore := receiveInv_storePayload h hpay hopen
    have hno : fins (storePayload s c).effects = 0 := by
      rw [effects_storePayload_eq]
      split
      · rfl
      · rfl
    have hfin := receiveInv_takeFin (s := s) hstore fun hin => by
      rw [finInOrder_storePayload hseq] at hin
      simp only [Conn.takesFin, Bool.and_eq_true, decide_eq_true_eq] at hin
      obtain ⟨h0, hall⟩ := hlast hin.1.2
      have hlen := length_fitting s c
      rw [fins_append, hno, stored_append, stored_storePayload, List.length_append]
      omega
    rw [heff]
    simpa only [List.append_assoc] using hfin.idle hcore hes.onlyEmits

/-- The acknowledgement concerns the other half. -/
theorem receiveInv_applyAck (t : Timespec) (s : Segment)
    (h : ReceiveInv P k f init true base c tr) :
    ReceiveInv P k f init true base (applyAck s t c) tr := by
  have hsame := h.same (state_applyAck_ne t s c (.inr rfl) h.phase) (sameRecv_applyAck t s c)
    onlyEmits_nil.recvQuiet (by simp)
  rwa [List.append_nil] at hsame

theorem receiveInv_reset {joined : Bool} (h : ReceiveInv P k f init joined base c tr) :
    ReceiveInv P k f init joined base { c with state := .closed, cardEof := true }
      (tr ++ [.reset]) := by
  have hquiet : RecvQuiet [.reset] := by
    intro e he
    simp [List.mem_singleton.mp he, Effect.storedBytes, Effect.writtenBytes]
  obtain ⟨lo, content, hr⟩ := h.ring
  have hr' := hr.congr (SameRecv.refl c) hquiet
  exact h.congr (phase_over joined).1 rfl
    ⟨lo, content, hr'.head_eq, hr'.tail_eq, hr'.fits, hr'.holds, hr'.stored_eq⟩
    hquiet.stored (by simp)

/-- The handshake tells RCV_NXT. -/
theorem receiveInv_applySynAck (mac : Bool) {p : Nat} {s : Segment}
    (h : ReceiveInv P k f init false base c tr) (hs : P.Sends p s) :
    (applySynAck mac s c = .pure c) ∨
      ReceiveInv P k f init true (P.irs + 1#32) (applySynAck mac s c).conn
        (tr ++ (applySynAck mac s c).effects) := by
  unfold applySynAck
  split
  · next hsyn =>
      right
      simp only [Bool.and_eq_true] at hsyn
      have hp := hs.syn_first hsyn.1.1
      obtain ⟨hnone, hzero⟩ := h.untouched rfl
      obtain ⟨lo, content, hr⟩ := h.ring
      refine ReceiveInv.idle ?_ (sameCore_sendAck mac _) (bare_sendAck mac _).onlyEmits
      exact { phase := nofun
              ring := ⟨lo, content, hr.head_eq, hr.tail_eq, hr.fits, hr.holds, hr.stored_eq⟩
              inOrder := h.inOrder
              rcvNxt_eq := by
                rw [hnone, hzero, hs.seq_eq, hp]
                simp
              finOnce := h.finOnce
              finAll := h.finAll
              finLast := h.finLast
              untouched := nofun }
  · exact .inl rfl

end segment

/-- Less than 2^32 positions off RCV_NXT, the number tells the position. -/
theorem position_eq_of_seq_eq {P : Peer} {k f p : Nat} {init : List UInt8} {c : Conn}
    {tr : List Effect} {s : Segment}
    (h : ReceiveInv P k f init true (P.irs + BitVec.ofNat 32 (1 + k + f)) c tr)
    (hs : P.Sends p s) (hlo : p < nextPosition k f tr + 2 ^ 32)
    (hhi : nextPosition k f tr < p + 2 ^ 32) (hseq : s.seq = c.rcvNxt) :
    p = nextPosition k f tr := by
  have hnxt : c.rcvNxt = P.irs + BitVec.ofNat 32 (nextPosition k f tr) := by
    rw [h.rcvNxt_eq, BitVec.add_assoc, ← BitVec.ofNat_add]
    congr 2
    unfold nextPosition
    omega
  rw [hs.seq_eq, hnxt, BitVec.add_right_inj] at hseq
  exact (ofNat_inj_of_lt 32 hlo hhi).mp hseq

/-- After the handshake, RCV_NXT is where the stream is. -/
def Joined (P : Peer) (k f : Nat) (init : List UInt8) : Conn → List Effect → Prop :=
  ReceiveInv P k f init true (P.irs + BitVec.ofNat 32 (1 + k + f))

/-- Before it, nothing is taken, and a connection that is over is freed. -/
def Opening (P : Peer) (init : List UInt8) (base : W32) (c : Conn) (tr : List Effect) : Prop :=
  ReceiveInv P 0 0 init false base c tr ∧ c.state ≠ .closed

theorem joined_step {P : Peer} {k f : Nat} {init : List UInt8} {w : World} {e : Event}
    (h : w.Satisfies (Joined P k f init)) (hreach : InReach P k f w e) :
    (w.step e).Satisfies (Joined P k f init) := by
  refine satisfies_step h ?_ fun io _ => receiveInv_connStep P k f init true _ io
  rintro s mac t rfl hfree
  have h' : Joined P k f init w.conn w.trace := h
  have hpast : w.conn.state ≠ .synSent := h'.phase
  obtain ⟨p, hs, -, hnear⟩ := hreach
  obtain ⟨hlo, hhi⟩ := hnear hpast
  unfold tcpIn
  cases hrst : s.has tcpRst with
  | true => exact receiveInv_reset h'
  | false =>
      simp only [Bool.false_eq_true, if_false, hpast]
      have hack := receiveInv_applyAck t s h'
      exact receiveInv_applyPayload mac hack fun hseq =>
        ⟨p, hs, position_eq_of_seq_eq hack hs hlo hhi hseq⟩

/-- A turn leaves no connection closed. -/
theorem state_connStep_ne_closed (io : StepIO) (c : Conn) :
    (connStep io c).conn.state ≠ .closed := by
  have hclose : ∀ c : Conn, (closeHost c).conn.state ≠ .closed := by
    intro c
    obtain ⟨hn, hr⟩ | ⟨-, hr⟩ := closeHost_spec c
    · rw [hr]
      exact hn
    · rw [hr]
      nofun
  unfold connStep
  split
  · exact hclose c
  · dsimp only
    split
    · exact hclose _
    · exact hclose _

theorem opening_step {P : Peer} {init : List UInt8} {base : W32} {w : World} {e : Event}
    (h : w.Satisfies (Opening P init base)) (hreach : InReach P 0 0 w e) :
    (w.step e).Satisfies (Opening P init base) ∨ (w.step e).Satisfies (Joined P 0 0 init) := by
  obtain ⟨hinv, hopen⟩ := h
  unfold World.Satisfies
  rw [World.conn_step, World.trace_step]
  by_cases hfree : w.conn.state = .free
  · left
    cases e with
    | segment s mac t => simpa [Event.apply, hfree, Opening] using hinv
    | turn io => simpa [Event.apply, hfree, Opening] using hinv
  · cases e with
    | segment s mac t =>
        obtain ⟨p, hs, hrst, -⟩ := hreach
        have hsyn : w.conn.state = .synSent := by
          obtain h1 | h1 | h1 := hinv.phase
          · exact h1
          · exact absurd h1 hopen
          · exact absurd h1 hfree
        have hin : Event.apply w.conn (.segment s mac t) = applySynAck mac s w.conn := by
          simp [Event.apply, tcpIn, hsyn, hrst hsyn]
        rw [hin]
        obtain hnone | hjoin := receiveInv_applySynAck mac hinv hs
        · left
          rw [hnone]
          simpa [Opening, hsyn] using hinv
        · exact .inr hjoin
    | turn io =>
        left
        have hturn : Event.apply w.conn (.turn io) = connStep io w.conn := if_neg hfree
        rw [hturn]
        exact ⟨receiveInv_connStep P 0 0 init false base io _ _ ⟨hfree, hinv⟩,
          state_connStep_ne_closed io w.conn⟩

/-- The stream is in place, or, from a start before the handshake, not begun. -/
def Receiving (P : Peer) (k f : Nat) (c : Conn) (w : World) : Prop :=
  w.Satisfies (Joined P k f c.ringBytes) ∨
    (k = 0 ∧ f = 0 ∧ w.Satisfies (Opening P c.ringBytes c.rcvNxt))

/-- **One event keeps the invariant**, a segment coming from within reach. -/
theorem receiving_step {P : Peer} {k f : Nat} {c : Conn} {w : World} {e : Event}
    (h : Receiving P k f c w) (hreach : InReach P k f w e) : Receiving P k f c (w.step e) := by
  obtain hj | ⟨rfl, rfl, ho⟩ := h
  · exact .inl (joined_step hj hreach)
  · obtain hopen | hjoin := opening_step ho hreach
    · exact .inr ⟨rfl, rfl, hopen⟩
    · exact .inl hjoin

/-! ## the stream arrives in order -/

/-- What the queue holds is what the ring's cells from head to tail hold. -/
theorem RecvRing.ringBytes_eq {init content : List UInt8} {lo : Nat} {c : Conn}
    {tr : List Effect} (h : RecvRing init lo content c tr) : c.ringBytes = content := by
  have hcell : c.rbHead.toNat % rcvCap = lo % rcvCap := by
    rw [h.head_eq, toNat_ofNat_mod_rcvCap]
  unfold Conn.ringBytes
  rw [readWrap_congr _ hcell, h.rbUsed, h.holds.readWrap (by decide) (Nat.le_refl _) h.fits,
    List.take_length]

/-- A ring with any fill, at the start. -/
theorem recvRing_start {c : Conn} (hle : c.rbUsed ≤ rcvCap) :
    RecvRing c.ringBytes c.rbHead.toNat c.ringBytes c [] := by
  have hlen : c.ringBytes.length = c.rbUsed := by
    unfold Conn.ringBytes
    rw [readWrap_eq _ (by decide) hle]
    simp
  exact { head_eq := by rw [BitVec.ofNat_toNat, BitVec.setWidth_eq]
          tail_eq := by
            rw [hlen]
            have h := eq_ofNat_add_toNat_sub 64 c.rbHead.toNat c.rbTail
            rwa [BitVec.ofNat_toNat, BitVec.setWidth_eq] at h
          fits := by rw [hlen]; exact hle
          holds := holds_readWrap _ (by decide) hle
          stored_eq := List.append_nil _ }

theorem Synced.joined {P : Peer} {k f : Nat} {c : Conn} (h : Synced P k f c)
    (hst : c.state ≠ .synSent) : World.Satisfies (Joined P k f c.ringBytes) ⟨c, []⟩ where
  phase := hst
  ring := ⟨_, _, recvRing_start h.ring_le⟩
  inOrder := List.nil_prefix
  rcvNxt_eq := (h.rcvNxt_eq hst).trans (BitVec.add_zero _).symm
  finOnce := h.fin_le
  finAll := h.fin_last
  finLast := each_nil _
  untouched := nofun

theorem Synced.opens {P : Peer} {k f : Nat} {c : Conn} (h : Synced P k f c)
    (hst : c.state = .synSent) : Receiving P k f c ⟨c, []⟩ := by
  obtain ⟨rfl, rfl⟩ := h.opening hst
  refine .inr ⟨rfl, rfl, ?_, by simp [hst]⟩
  exact { phase := .inl hst
          ring := ⟨_, _, recvRing_start h.ring_le⟩
          inOrder := List.nil_prefix
          rcvNxt_eq := (BitVec.add_zero _).symm
          finOnce := h.fin_le
          finAll := h.fin_last
          finLast := each_nil _
          untouched := fun _ => ⟨rfl, rfl⟩ }

/-- What the invariant says of the stream, RCV_NXT set aside. -/
theorem ReceiveInv.received {P : Peer} {k f : Nat} {joined : Bool} {base : W32} {c : Conn}
    {w : World} (h : ReceiveInv P k f c.ringBytes joined base w.conn w.trace)
    (hpast : c.state ≠ .synSent → w.conn.rcvNxt =
      c.rcvNxt + BitVec.ofNat 32 ((stored w.trace).length + fins w.trace))
    (hopening : c.state = .synSent →
      (w.conn.rcvNxt = c.rcvNxt ∧ stored w.trace = [] ∧ fins w.trace = 0) ∨
      w.conn.rcvNxt =
        P.irs + 1#32 + BitVec.ofNat 32 ((stored w.trace).length + fins w.trace)) :
    ReceivedInOrder P k f c w := by
  obtain ⟨lo, content, hring⟩ := h.ring
  exact { inOrder := h.inOrder
          inRing := by rw [hring.ringBytes_eq]; exact hring.stored_eq
          rcvNxt_eq := hpast
          rcvNxt_opening := hopening
          finOnce := h.finOnce
          finLast := h.finLast
          ring_le := by rw [hring.rbUsed]; exact hring.fits }

/-- **The stream is received in order** by a connection with any fill of its
ring, every segment coming from within reach of RCV_NXT. -/
theorem received_in_order (P : Peer) (k f : Nat) (c : Conn) (hc : Synced P k f c)
    (es : List Event) (h : Along World.step (InReach P k f) ⟨c, []⟩ es) :
    ReceivedInOrder P k f c (run World.step ⟨c, []⟩ es) := by
  by_cases hst : c.state = .synSent
  · have hrun : Receiving P k f c (run World.step ⟨c, []⟩ es) :=
      run_inv (fun w e hw hr => receiving_step hw hr) (hc.opens hst) h
    obtain ⟨rfl, rfl⟩ := hc.opening hst
    obtain hjoin | ⟨-, -, hopen⟩ := hrun
    · exact ReceiveInv.received hjoin (absurd hst) fun _ => .inr hjoin.rcvNxt_eq
    · obtain ⟨hnone, hzero⟩ := hopen.1.untouched rfl
      have hnxt := hopen.1.rcvNxt_eq
      rw [hnone, hzero, List.length_nil, BitVec.add_zero] at hnxt
      exact hopen.1.received (absurd hst) fun _ => .inl ⟨hnxt, hnone, hzero⟩
  · have hrun : (run World.step ⟨c, []⟩ es).Satisfies (Joined P k f c.ringBytes) :=
      run_inv (fun w e hw hr => joined_step hw hr) (hc.joined hst) h
    refine ReceiveInv.received hrun (fun _ => ?_) (absurd · hst)
    rw [hc.rcvNxt_eq hst]
    exact hrun.rcvNxt_eq

/-! ### a stream to try -/

/-- A peer whose first byte is a one and the `n` others zeros. -/
def zerosPeer (n : Nat) : Peer := ⟨5000#32, 1 :: List.replicate n 0⟩

/-- The connection after its handshake with a peer of that number. -/
def acceptedConn : Conn :=
  (run World.step (opened emptySlot 5 22 40000 1000#32)
    [.segment (cardSegment 5000#32 1001#32 (tcpSyn ||| tcpAck) [] nothing_fits) true ⟨0, 0⟩]).conn

/-- The peer's first segment, of one byte. -/
def firstSegment : Segment := cardSegment 5001#32 1001#32 tcpAck [1] (by decide)

/-- A turn in which the host program takes all there is. -/
def takingTurn : StepIO := { quietTurn with write := .wrote rcvCap }

theorem sends_firstSegment (n : Nat) : (zerosPeer n).Sends 1 firstSegment where
  seq_eq := by
    show firstSegment.seq = 5000#32 + 1#32
    decide
  payload_eq _ := ⟨by decide, by simp [zerosPeer, firstSegment, cardSegment]⟩
  syn_first h := absurd h (by decide)
  fin_last h := absurd h (by decide)

theorem synced_acceptedConn (n : Nat) : Synced (zerosPeer n) 0 0 acceptedConn where
  opening h := absurd h (by decide)
  rcvNxt_eq _ := by
    show acceptedConn.rcvNxt = 5000#32 + 1#32
    decide
  stream_le := Nat.zero_le _
  fin_le := by decide
  fin_last h := absurd h (by decide)
  ring_le := by decide

/-- The same duplicate, in reach, is not taken again. -/
theorem received_in_order_duplicate : ReceivedInOrder (zerosPeer 0) 0 0 acceptedConn
    (run World.step ⟨acceptedConn, []⟩ [.segment firstSegment true ⟨0, 0⟩,
      .segment firstSegment true ⟨0, 0⟩, .turn takingTurn]) :=
  received_in_order (zerosPeer 0) 0 0 acceptedConn (synced_acceptedConn 0) _
    ⟨⟨1, sends_firstSegment 0, by decide +kernel, by decide +kernel⟩,
      ⟨1, sends_firstSegment 0, by decide +kernel, by decide +kernel⟩, trivial, trivial⟩

/-! ## a duplicate a revolution late -/

/-- A connection with nothing to send and nothing in its ring. -/
structure Drained (c : Conn) : Prop where
  state_eq : c.state = .established
  hostEof_eq : c.hostEof = false
  cardEof_eq : c.cardEof = false
  acked : c.sndNxt = c.sndUna
  sent : c.sbTail = c.sbHead
  head_eq : c.rbHead = 0#64
  tail_eq : c.rbTail = 0#64

/-- With nothing to send, only the write to the host matters in a turn. -/
theorem middleParts_idle (io : StepIO) (c : Conn) (hio : io.read = .again)
    (heof : c.hostEof = false) (hcard : c.cardEof = false)
    (hacked : c.sndNxt = c.sndUna) (hsent : c.sbTail = c.sbHead) :
    (middleParts io c).conn = c ∧ (middleParts io c).effects = [] := by
  have hshut : shutHost c = .pure c := by simp [shutHost, hcard]
  have hread : readHost io c = .pure c := by
    unfold readHost
    rw [hio]
    split
    · rfl
    · rfl
  have hunsent : c.unsent = 0 := by
    simp [Conn.unsent, Conn.nextIndex, Conn.inFlight, hacked, hsent]
  have hdata : sendData io c = .pure c := by
    unfold sendData
    split
    · simp [sendQuota, sendLoop, hunsent]
    · rfl
  have hfin : sendFin io c = .pure c := by simp [sendFin, heof]
  have hre : retransmit io c = .pure c := by simp [retransmit, hacked]
  simp [middleParts, hshut, hread, hdata, hfin, hre]

/-- A segment in order fills an empty ring. -/
theorem drained_segment {c : Conn} (hc : Drained c) {s : Segment} (t : Timespec)
    (hseq : s.seq = c.rcvNxt) (hflags : s.flags = tcpAck) (hack : s.ackNo = c.sndUna)
    (hne : s.payload ≠ []) :
    ∃ wnd adv buf, (tcpIn true t s c).conn = { c with
        sndWnd := wnd, advWnd := adv, rcvBuf := buf
        rbTail := BitVec.ofNat 64 s.payload.length
        rcvNxt := c.rcvNxt + BitVec.ofNat 32 s.payload.length } ∧
      stored (tcpIn true t s c).effects = s.payload := by
  have hle := s.payload_le
  have hpos : 0 < s.payload.length := List.length_pos_iff.mpr hne
  have htake : c.takesAck s = false := by simp [Conn.takesAck, Conn.acked, hack]
  have hin : tcpIn true t s c = applyPayload true s (applyAck s t c) := by
    have hrst : s.has tcpRst = false := by rw [Segment.has, hflags]; rfl
    simp [tcpIn, hrst, hc.state_eq]
  have hfin : s.has tcpFin = false := by rw [Segment.has, hflags]; rfl
  rw [hin, applyAck_of_not_takesAck t s c htake]
  generalize (if s.has tcpAck then s.wnd else c.sndWnd) = wnd
  have hmin : min s.payload.length { c with sndWnd := wnd }.rbFree = s.payload.length := by
    simp [Conn.rbFree, hc.head_eq, hc.tail_eq, rcvCap]
    omega
  obtain ⟨c1, hc1⟩ : ∃ c1 : Conn, c1 = { c with
      sndWnd := wnd
      rcvBuf := writeWrap c.rcvBuf rcvCap c.rbTail.toNat s.payload
      rbTail := c.rbTail + BitVec.ofNat 64 s.payload.length
      rcvNxt := c.rcvNxt + BitVec.ofNat 32 s.payload.length } := ⟨_, rfl⟩
  have hstore : storePayload s { c with sndWnd := wnd } = ⟨c1, [.stored s.payload], false⟩ := by
    unfold storePayload
    dsimp only
    rw [hmin, if_neg (by omega), List.take_length, hc1]
  have hno : c1.finInOrder s = false := by simp [Conn.finInOrder, hfin]
  have happly : applyPayload true s { c with sndWnd := wnd } =
      Res.bind ⟨c1, [.stored s.payload], false⟩ (sendAck true) := by
    unfold applyPayload
    rw [if_pos hseq, hstore]
    simp [Res.bind, takeFin_of_not_finInOrder s c1 hno, Res.pure]
  rw [happly]
  refine ⟨wnd, c1.window, writeWrap c.rcvBuf rcvCap c.rbTail.toNat s.payload, ?_, ?_⟩
  · rw [Res.conn_bind, sendAck, conn_sendSegment, if_pos rfl]
    rw [hc1, hc.tail_eq, BitVec.zero_add]
  · rw [Res.effects_bind, stored_append, (bare_sendAck true c1).onlyEmits.recvQuiet.stored,
      List.append_nil]
    exact List.append_nil _

/-- The host program's turn empties the ring. -/
theorem drained_turn {c : Conn} {n : Nat} (hst : c.state = .established)
    (heof : c.hostEof = false) (hcard : c.cardEof = false) (hacked : c.sndNxt = c.sndUna)
    (hsent : c.sbTail = c.sbHead) (hhead : c.rbHead = 0#64) (htail : c.rbTail = BitVec.ofNat 64 n)
    (hpos : 0 < n) (hn : n ≤ rcvCap) :
    ∃ adv, (connStep takingTurn c).conn = { c with rbTail := 0#64, advWnd := adv } ∧
      stored (connStep takingTurn c).effects = [] := by
  have hused : c.rbUsed = n := by
    unfold rcvCap at hn
    simp [Conn.rbUsed, hhead, htail]
    omega
  have hpiece : min rcvCap c.rbPiece = n := by
    simp [Conn.rbPiece, hused, hhead]
    omega
  have hadv : c.advanceRb n = { c with rbTail := 0#64 } := by
    simp [Conn.advanceRb, hhead, htail]
  have hwrite : writeHost takingTurn c = Res.bind ⟨{ c with rbTail := 0#64 },
      [.hostWrite (c.frontBytes n)], true⟩ (windowUpdate true) := by
    unfold writeHost
    rw [if_neg (by omega)]
    simp only [takingTurn, quietTurn, hpiece, hadv]
    rfl
  obtain ⟨adv, hconn⟩ : ∃ adv, (writeHost takingTurn c).conn =
      { c with rbTail := 0#64, advWnd := adv } := by
    rw [hwrite, Res.conn_bind]
    unfold windowUpdate
    split
    · exact ⟨_, conn_sendSegment true _ _ _ _⟩
    · exact ⟨c.advWnd, rfl⟩
  have hquiet : stored (writeHost takingTurn c).effects = [] := by
    rw [hwrite, Res.effects_bind, stored_append]
    exact (bare_windowUpdate takingTurn _).onlyEmits.recvQuiet.stored
  obtain ⟨hmid, heff⟩ := middleParts_idle takingTurn (writeHost takingTurn c).conn rfl
    (by rw [hconn]; exact heof) (by rw [hconn]; exact hcard) (by rw [hconn]; exact hacked)
    (by rw [hconn]; exact hsent)
  have hopen : (writeHost takingTurn c).conn.state ≠ .closed := by
    rw [hconn]
    simp [hst]
  have hclose : closeHost (writeHost takingTurn c).conn = .pure (writeHost takingTurn c).conn := by
    simp [closeHost, hopen]
  have hstep : connStep takingTurn c =
      ((writeHost takingTurn c).bind (middleParts takingTurn)).bind closeHost := by
    have hst' : c.state ≠ .closed := by simp [hst]
    unfold connStep
    rw [if_neg hst']
    exact if_neg hopen
  rw [hstep]
  refine ⟨adv, ?_, ?_⟩
  · simp only [Res.conn_bind, hmid, hclose, Res.conn_pure]
    exact hconn
  · simp only [Res.effects_bind, Res.conn_bind, hmid, heff, hclose, Res.effects_pure,
      List.append_nil]
    exact hquiet

/-- The segment at position `k + 1` with the next 32768 bytes at most. -/
def Peer.piece (P : Peer) (ackNo : W32) (k : Nat) : Segment where
  srcPort := 40000
  dstPort := 22
  seq := P.irs + BitVec.ofNat 32 (1 + k)
  ackNo := ackNo
  flags := tcpAck
  wnd := 65535
  payload := (P.stream.drop k).take 32768
  payload_le := by rw [List.length_take]; omega

theorem Peer.sends_piece (P : Peer) (ackNo : W32) (k : Nat) :
    P.Sends (1 + k) (P.piece ackNo k) where
  seq_eq := rfl
  payload_eq _ := by
    have hk : 1 + k - 1 = k := by omega
    refine ⟨by omega, ?_⟩
    rw [hk]
    show (P.stream.drop k).take 32768 = _
    rw [Peer.piece, List.length_take, ← List.take_eq_take_min]
  syn_first h := by simp [Segment.has, Peer.piece, tcpAck, tcpSyn] at h
  fin_last h := by simp [Segment.has, Peer.piece, tcpAck, tcpFin] at h

/-- Piece after piece, each taken by the host program before the next. -/
def Peer.rounds (P : Peer) (ackNo : W32) (n : Nat) : List Event :=
  (List.range n).flatMap fun i =>
    [.segment (P.piece ackNo (32768 * i)) true ⟨0, 0⟩, .turn takingTurn]

/-- The rounds take the stream's first bytes and leave the ring empty. -/
theorem rounds_take (P : Peer) {c : Conn} (hc : Drained c) (hnxt : c.rcvNxt = P.irs + 1#32)
    (n : Nat) (hlen : 32768 * n ≤ P.stream.length) :
    let w := run World.step ⟨c, []⟩ (P.rounds c.sndUna n)
    Drained w.conn ∧ w.conn.sndUna = c.sndUna ∧
      w.conn.rcvNxt = P.irs + BitVec.ofNat 32 (1 + 32768 * n) ∧
      stored w.trace = P.stream.take (32768 * n) := by
  induction n with
  | zero => exact ⟨hc, rfl, hnxt, rfl⟩
  | succ n ih =>
      obtain ⟨hd, huna, hq, hs⟩ := ih (by omega)
      have hrounds : P.rounds c.sndUna (n + 1) = P.rounds c.sndUna n ++
          [.segment (P.piece c.sndUna (32768 * n)) true ⟨0, 0⟩, .turn takingTurn] := by
        simp [Peer.rounds, List.range_succ]
      rw [hrounds, run_append]
      generalize run World.step ⟨c, []⟩ (P.rounds c.sndUna n) = w at hd huna hq hs ⊢
      have hplen : (P.piece c.sndUna (32768 * n)).payload.length = 32768 := by
        show ((P.stream.drop (32768 * n)).take 32768).length = 32768
        rw [List.length_take, List.length_drop]
        omega
      obtain ⟨wnd, adv, buf, hseg, hseff⟩ := drained_segment hd ⟨0, 0⟩
        (s := P.piece c.sndUna (32768 * n)) (by rw [hq]; rfl) rfl (by rw [huna]; rfl)
        (by rw [← List.length_pos_iff, hplen]; decide)
      rw [hplen] at hseg
      obtain ⟨adv', hturn, hteff⟩ := drained_turn (c := (tcpIn true ⟨0, 0⟩
          (P.piece c.sndUna (32768 * n)) w.conn).conn) (n := 32768)
        (by rw [hseg]; exact hd.state_eq) (by rw [hseg]; exact hd.hostEof_eq)
        (by rw [hseg]; exact hd.cardEof_eq) (by rw [hseg]; exact hd.acked)
        (by rw [hseg]; exact hd.sent) (by rw [hseg]; exact hd.head_eq) (by rw [hseg])
        (by decide) (by decide)
      have hst : w.conn.state ≠ .free := by simp [hd.state_eq]
      have hst1 : (tcpIn true ⟨0, 0⟩ (P.piece c.sndUna (32768 * n)) w.conn).conn.state ≠ .free := by
        rw [hseg]
        exact hst
      have hrun : run World.step w [.segment (P.piece c.sndUna (32768 * n)) true ⟨0, 0⟩,
          .turn takingTurn] =
          ⟨(connStep takingTurn
              (tcpIn true ⟨0, 0⟩ (P.piece c.sndUna (32768 * n)) w.conn).conn).conn,
            w.trace ++ (tcpIn true ⟨0, 0⟩ (P.piece c.sndUna (32768 * n)) w.conn).effects ++
              (connStep takingTurn
                (tcpIn true ⟨0, 0⟩ (P.piece c.sndUna (32768 * n)) w.conn).conn).effects⟩ := by
        simp only [run_cons, run_nil, World.step, Event.apply, hst, hst1, if_false]
      rw [hrun]
      dsimp only
      rw [stored_append, stored_append, hseff, hteff, List.append_nil, hs, hturn, hseg]
      refine ⟨⟨hd.state_eq, hd.hostEof_eq, hd.cardEof_eq, hd.acked, hd.sent, hd.head_eq, rfl⟩,
        huna, ?_, ?_⟩
      · show w.conn.rcvNxt + BitVec.ofNat 32 32768 = _
        have hsum : 1 + 32768 * (n + 1) = 1 + 32768 * n + 32768 := by omega
        rw [hq, BitVec.add_assoc, hsum, BitVec.ofNat_add (1 + 32768 * n)]
      · show _ ++ (P.stream.drop (32768 * n)).take 32768 = _
        rw [← List.take_add]
        rfl

/-- A segment with the next number is taken next, whatever it carries. -/
theorem taken_after_rounds (P : Peer) {c : Conn} (hc : Drained c) (hnxt : c.rcvNxt = P.irs + 1#32)
    (n : Nat) (hlen : 32768 * n ≤ P.stream.length) {s : Segment} (t : Timespec)
    (hseq : s.seq = P.irs + BitVec.ofNat 32 (1 + 32768 * n)) (hflags : s.flags = tcpAck)
    (hack : s.ackNo = c.sndUna) (hne : s.payload ≠ []) :
    stored (run World.step ⟨c, []⟩ (P.rounds c.sndUna n ++ [.segment s true t])).trace =
      P.stream.take (32768 * n) ++ s.payload := by
  obtain ⟨hd, huna, hq, hs⟩ := rounds_take P hc hnxt n hlen
  rw [run_append]
  generalize run World.step ⟨c, []⟩ (P.rounds c.sndUna n) = w at hd huna hq hs ⊢
  obtain ⟨_, _, _, -, heff⟩ := drained_segment hd t (hseq.trans hq.symm) hflags
    (hack.trans huna.symm) hne
  have hst : w.conn.state ≠ .free := by simp [hd.state_eq]
  have hrun : (run World.step w [.segment s true t]).trace =
      w.trace ++ (tcpIn true t s w.conn).effects := by
    simp only [run_cons, run_nil, World.step, Event.apply, hst, if_false]
  rw [hrun, stored_append, heff, hs]

/-- Every piece is the peer's. -/
theorem fromPeer_rounds (P : Peer) (ackNo : W32) (n : Nat) :
    ∀ e ∈ P.rounds ackNo n, FromPeer P e := by
  intro e he
  simp only [Peer.rounds, List.mem_flatMap, List.mem_cons, List.not_mem_nil, or_false] at he
  obtain ⟨i, -, rfl | rfl⟩ := he
  · exact ⟨_, P.sends_piece _ _⟩
  · trivial

/-- The first segment comes again after `n` rounds. -/
def lateRun (n : Nat) : List Event :=
  (zerosPeer (32768 * n)).rounds acceptedConn.sndUna n ++ [.segment firstSegment true ⟨0, 0⟩]

theorem drained_acceptedConn : Drained acceptedConn :=
  ⟨by decide, by decide, by decide, by decide, by decide, by decide, by decide⟩

/-- When the rounds come to a whole revolution of the sequence numbers, the
first byte is taken for the next one. -/
theorem not_receivedInOrder_lateRun {n : Nat} (hn : BitVec.ofNat 32 (1 + 32768 * n) = 1#32)
    (hpos : 0 < n) : ¬ReceivedInOrder (zerosPeer (32768 * n)) 0 0 acceptedConn
      (run World.step ⟨acceptedConn, []⟩ (lateRun n)) := by
  intro h
  have hin := h.inOrder
  have hlen : (zerosPeer (32768 * n)).stream.length = 32768 * n + 1 := by
    simp only [zerosPeer, List.length_cons, List.length_replicate]
  have hnxt : acceptedConn.rcvNxt = (zerosPeer (32768 * n)).irs + 1#32 := by
    show acceptedConn.rcvNxt = 5000#32 + 1#32
    decide
  have hseq : firstSegment.seq = (zerosPeer (32768 * n)).irs + BitVec.ofNat 32 (1 + 32768 * n) := by
    rw [hn]
    show firstSegment.seq = 5000#32 + 1#32
    decide
  have hst := taken_after_rounds (zerosPeer (32768 * n)) drained_acceptedConn hnxt n
    (by rw [hlen]; omega) ⟨0, 0⟩ hseq (by decide) (by decide) (by decide)
  unfold lateRun at hin
  rw [hst, List.drop_zero] at hin
  -- the byte after the rounds is a zero in the stream, and a one in the ring
  obtain ⟨rest, hrest⟩ := hin
  have htake : ((zerosPeer (32768 * n)).stream.take (32768 * n)).length = 32768 * n := by
    rw [List.length_take, hlen]
    omega
  have hone : (zerosPeer (32768 * n)).stream[32768 * n]? = some 1 := by
    rw [← hrest, List.append_assoc, List.getElem?_append_right (Nat.le_of_eq htake), htake,
      Nat.sub_self]
    rfl
  have hzero : (zerosPeer (32768 * n)).stream[32768 * n]? = some 0 := by
    obtain ⟨m, hm⟩ := Nat.exists_eq_add_one_of_ne_zero (show 32768 * n ≠ 0 by omega)
    unfold zerosPeer
    rw [hm, List.getElem?_cons_succ, List.getElem?_replicate, if_pos (by omega)]
  rw [hone] at hzero
  exact absurd hzero (by decide)

/-- **A duplicate that is 2^32 bytes late is taken again**: every segment is
the peer's, and the byte stored last is not the stream's next. -/
theorem late_duplicate_taken :
    Synced (zerosPeer (32768 * 131072)) 0 0 acceptedConn ∧
      (∀ e ∈ lateRun 131072, FromPeer (zerosPeer (32768 * 131072)) e) ∧
      ¬ReceivedInOrder (zerosPeer (32768 * 131072)) 0 0 acceptedConn
        (run World.step ⟨acceptedConn, []⟩ (lateRun 131072)) := by
  refine ⟨synced_acceptedConn _, ?_, not_receivedInOrder_lateRun (by decide) (by decide)⟩
  intro e he
  cases List.mem_append.mp he with
  | inl hl => exact fromPeer_rounds _ _ _ e hl
  | inr hr =>
      rw [List.mem_singleton.mp hr]
      exact ⟨1, sends_firstSegment _⟩

end Phi.Tcp
