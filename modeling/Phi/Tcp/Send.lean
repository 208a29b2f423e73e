import Phi.Lib.Modular
import Phi.Tcp.Frame

/-!
# Phi.Tcp.Send

What the card gets of the host's stream.

The host's bytes are numbered from one past the initial sequence number, our
FIN comes after the last.  The send ring's 64-bit indices count bytes, SND_UNA
and SND_NXT count sequence numbers, and an acknowledgement moves both; the two
counts differ by the FIN, which `tcp_in` recognises by comparing FIN_SEQ with
the acknowledgement as plain numbers, 0 standing for no FIN.  `AckCounted` is
the condition on a segment under which that comparison tells right; then the
ring and the sequence numbers stay in step over any run, around 2^32 as well.
-/

namespace Phi.Tcp

open Circular Phi.Modular

/-! ## the host's stream and its numbers -/

/-- Bytes an effect takes from the host socket. -/
def Effect.readBytes : Effect → List UInt8
  | .hostRead bs => bs
  | _ => []

/-- The host's stream so far. -/
def hostBytes (tr : List Effect) : List UInt8 := collect Effect.readBytes tr

@[simp] theorem hostBytes_append (tr es : List Effect) :
    hostBytes (tr ++ es) = hostBytes tr ++ hostBytes es := collect_append _ tr es

/-- The sequence number of the stream's byte `k`, and of the FIN after `k`
bytes. -/
def seqAt (iss : W32) (k : Nat) : W32 := iss + BitVec.ofNat 32 (1 + k)

/-- The segment carries our FIN. -/
def OutSegment.isFin (s : OutSegment) : Bool := s.flags &&& tcpFin ≠ 0#8

/-- The segment's payload is the stream's bytes at its sequence number, at a
place less than a ring from the end of what was read. -/
def CarriesStream (iss : W32) (stream : List UInt8) (s : OutSegment) : Prop :=
  s.payload ≠ [] → ∃ k, s.seq = seqAt iss k ∧ stream.length ≤ k + sndCap ∧
    k + s.payload.length ≤ stream.length ∧ s.payload = (stream.drop k).take s.payload.length

/-- Every segment sent carries the stream as read until then. -/
def SentAt (iss : W32) (pre : List Effect) (e : Effect) : Prop :=
  ∀ s, e = .emit s → CarriesStream iss (hostBytes pre) s

/-- The sending side is right: with `u` bytes acknowledged the ring holds the
rest of what was read, SND_UNA is the number of the byte at the ring's head (or
of the SYN while that is not acknowledged, or past the FIN when it is), every
segment carries the stream's bytes at its numbers, and our FIN has the number
after the last byte in every segment that carries it. -/
structure SendRight (iss : W32) (w : World) : Prop where
  ring : ∃ u, u ≤ (hostBytes w.trace).length ∧
    w.conn.sbHead = BitVec.ofNat 64 u ∧
    w.conn.sbTail = BitVec.ofNat 64 (hostBytes w.trace).length ∧
    w.conn.sbUsed = (hostBytes w.trace).length - u ∧ w.conn.sbUsed ≤ sndCap ∧
    readWrap w.conn.sndBuf sndCap w.conn.sbHead.toNat w.conn.sbUsed = (hostBytes w.trace).drop u ∧
    (w.conn.sndUna = seqAt iss u ∨
      (hostBytes w.trace = [] ∧ w.conn.sndUna = iss ∧ w.conn.sndNxt = iss + 1#32) ∨
      (u = (hostBytes w.trace).length ∧ .finSent ∈ w.trace ∧ w.conn.sndUna = seqAt iss (u + 1)))
  sent : Each (SentAt iss) w.trace
  fin : .finSent ∈ w.trace → w.conn.finSeq = seqAt iss (hostBytes w.trace).length ∧
    w.conn.sndNxt = w.conn.finSeq + 1#32
  finFixed : ∀ s, .emit s ∈ w.trace → s.isFin = true →
    .finSent ∈ w.trace ∧ s.seq = seqAt iss (hostBytes w.trace).length

/-! ## the condition -/

/-- The acknowledgement covers everything sent, which is one more than the
bytes of the ring: the FIN, that is. -/
def Conn.coversFin (c : Conn) (s : Segment) : Bool :=
  c.inFlight.toNat = c.sbUsed + 1 && s.ackNo = c.sndNxt

/-- A new acknowledgement, past the handshake, is counted as covering the FIN
just when it does. -/
def AckCounted (w : World) : Event → Bool
  | .segment s _ _ => w.conn.state = .free || w.conn.state = .synSent || s.has tcpRst ||
      !w.conn.takesAck s || w.conn.coversFin s == w.conn.countsFin s
  | .turn _ => true

/-! ## the invariant -/

/-- Bytes acknowledged when SND_UNA is `a` past the initial number. -/
def headAt (a : Nat) (stream : List UInt8) : Nat := min (a - 1) stream.length

/-- SND_UNA is `a` and SND_NXT `b` past the initial number: the SYN is 0, the
bytes follow, and the FIN, if sent, comes last. -/
structure SendPos (iss : W32) (stream : List UInt8) (fin : Prop) (a b : Nat) (c : Conn) : Prop where
  una_eq : c.sndUna = iss + BitVec.ofNat 32 a
  nxt_eq : c.sndNxt = iss + BitVec.ofNat 32 b
  head_eq : c.sbHead = BitVec.ofNat 64 (headAt a stream)
  tail_eq : c.sbTail = BitVec.ofNat 64 stream.length
  fits : stream.length ≤ headAt a stream + sndCap
  holds : Holds c.sndBuf sndCap (headAt a stream) (stream.drop (headAt a stream))
  range : (a = 0 ∧ b = 1 ∧ stream = [] ∧ ¬fin) ∨
    (1 ≤ a ∧ a ≤ b ∧ (fin ∧ b = stream.length + 2 ∨ ¬fin ∧ b ≤ stream.length + 1))
  finSeq_eq : fin → c.finSeq = iss + BitVec.ofNat 32 (1 + stream.length)
  noFin : ¬fin → c.finSeq = 0#32

/-- Every segment sent so far carries the stream, and the FIN its number. -/
structure SentRight (iss : W32) (tr : List Effect) : Prop where
  sent : Each (SentAt iss) tr
  finFixed : ∀ s, .emit s ∈ tr → s.isFin = true →
    .finSent ∈ tr ∧ s.seq = seqAt iss (hostBytes tr).length

/-- The invariant of the sending side. -/
structure SendInv (iss : W32) (c : Conn) (tr : List Effect) : Prop extends SentRight iss tr where
  pos : ∃ a b, SendPos iss (hostBytes tr) (.finSent ∈ tr) a b c ∧
    (c.sends = true → 1 ≤ a) ∧ (c.state = .synSent → a = 0)
  sending : c.state = .synSent ∨ c.sends = true → .finSent ∉ tr

/-! ## sizes -/

section sizes

variable {iss : W32} {stream : List UInt8} {fin : Prop} {a b : Nat} {c : Conn}

/-- Sequence numbers count from the initial one. -/
theorem sub_eq_of_add (iss x y : W32) : iss + x - (iss + y) = x - y := by
  bv_omega

theorem SendPos.bounds (h : SendPos iss stream fin a b c) : a ≤ b ∧ b - a ≤ sndCap + 1 := by
  have hfits := h.fits
  unfold headAt at hfits
  have hr := h.range
  omega

theorem SendPos.inFlight (h : SendPos iss stream fin a b c) : c.inFlight.toNat = b - a := by
  obtain ⟨hle, hb⟩ := h.bounds
  unfold sndCap at hb
  rw [Conn.inFlight, h.una_eq, h.nxt_eq, sub_eq_of_add, toNat_ofNat_sub 32 hle (by omega)]

theorem SendPos.sbUsed (h : SendPos iss stream fin a b c) :
    c.sbUsed = stream.length - headAt a stream := by
  have hfits := h.fits
  unfold sndCap at hfits
  have hle : headAt a stream ≤ stream.length := Nat.min_le_right _ _
  rw [Conn.sbUsed, h.head_eq, h.tail_eq, toNat_ofNat_sub 64 hle (by omega)]

theorem SendPos.sbFree (h : SendPos iss stream fin a b c) : c.sbFree = sndCap - c.sbUsed := by
  have hused := h.sbUsed
  have hfits := h.fits
  unfold Conn.sbUsed Conn.sbFree sndCap at *
  bv_omega

/-- The next byte to send is the stream's byte `b - 1`. -/
theorem SendPos.nextIndex (h : SendPos iss stream fin a b c) (ha : 1 ≤ a) (hf : ¬fin) :
    c.nextIndex = BitVec.ofNat 64 (b - 1) ∧ c.unsent = stream.length - (b - 1) ∧
      b - 1 ≤ stream.length ∧ headAt a stream = a - 1 := by
  have hr := h.range
  obtain ⟨hle, hb⟩ := h.bounds
  have hfits := h.fits
  have hfl := h.inFlight
  unfold sndCap at hb hfits
  have hbl : b ≤ stream.length + 1 := by
    obtain ⟨h0, -⟩ | ⟨-, -, ⟨hf', -⟩ | ⟨-, hb'⟩⟩ := hr
    · omega
    · exact absurd hf' hf
    · exact hb'
  have hhead : headAt a stream = a - 1 := by
    unfold headAt
    omega
  have hnext : c.nextIndex = BitVec.ofNat 64 (b - 1) := by
    have hw : c.inFlight.setWidth 64 = BitVec.ofNat 64 (b - a) := by
      rw [← hfl, BitVec.ofNat_toNat]
    rw [Conn.nextIndex, h.head_eq, hw, ← BitVec.ofNat_add, hhead]
    congr 1
    omega
  refine ⟨hnext, ?_, by omega, hhead⟩
  rw [Conn.unsent, hnext, h.tail_eq, toNat_ofNat_sub 64 (by omega) (by omega)]

/-- The bytes of the ring from the stream's byte `k` on. -/
theorem SendPos.read (h : SendPos iss stream fin a b c) {k n : Nat} {i : W64}
    (hi : i = BitVec.ofNat 64 k) (hk : headAt a stream ≤ k) (hn : k + n ≤ stream.length)
    (hend : n ≤ sndCap - i.toNat % sndCap) :
    read c.sndBuf (i.toNat % sndCap) n = (stream.drop k).take n := by
  have hcell : i.toNat % sndCap = k % sndCap := by
    rw [hi, BitVec.toNat_ofNat, Nat.mod_mod_of_dvd _ (by decide)]
  have hlt : k % sndCap < sndCap := Nat.mod_lt _ (by decide)
  have hdrop := h.holds.drop (n := k - headAt a stream)
  rw [List.drop_drop, show headAt a stream + (k - headAt a stream) = k by omega] at hdrop
  rw [hcell] at hend ⊢
  exact hdrop.read (by rw [List.length_drop]; omega) (by omega)

/-- While bytes wait in the ring, SND_UNA is the number of the first. -/
theorem SendPos.headAt_of_used (h : SendPos iss stream fin a b c) (hused : c.sbUsed ≠ 0) :
    1 ≤ a ∧ headAt a stream = a - 1 := by
  have hu := h.sbUsed
  unfold headAt at hu ⊢
  obtain ⟨-, -, hnil, -⟩ | ⟨h1, -⟩ := h.range
  · rw [hnil, List.length_nil] at hu
    omega
  · exact ⟨h1, by omega⟩

/-- The position depends on the sending side alone. -/
theorem SendPos.congr {c' : Conn} (h : SendPos iss stream fin a b c) (hsame : SameSend c' c) :
    SendPos iss stream fin a b c' where
  una_eq := hsame.sndUna.trans h.una_eq
  nxt_eq := hsame.sndNxt.trans h.nxt_eq
  head_eq := hsame.sbHead.trans h.head_eq
  tail_eq := hsame.sbTail.trans h.tail_eq
  fits := h.fits
  holds := by rw [hsame.sndBuf]; exact h.holds
  range := h.range
  finSeq_eq hf := hsame.finSeq.trans (h.finSeq_eq hf)
  noFin hf := hsame.finSeq.trans (h.noFin hf)

/-- The host's bytes go in behind those the ring holds. -/
theorem SendPos.append (h : SendPos iss stream fin a b c) (ha : 1 ≤ a) (hf : ¬fin)
    {bs : List UInt8} (hlen : bs.length ≤ c.sbPiece) :
    SendPos iss (stream ++ bs) fin a b { c with
      sndBuf := write c.sndBuf (c.sbTail.toNat % sndCap) bs
      sbTail := c.sbTail + BitVec.ofNat 64 bs.length } := by
  obtain ⟨-, -, hbl, hhead⟩ := h.nextIndex ha hf
  have hused := h.sbUsed
  have hfree := h.sbFree
  have hfits := h.fits
  have hle : headAt a stream ≤ stream.length := Nat.min_le_right _ _
  have hroom : bs.length ≤ c.sbFree ∧ bs.length ≤ sndCap - c.sbTail.toNat % sndCap := by
    unfold Conn.sbPiece at hlen
    omega
  have hhead' : headAt a (stream ++ bs) = headAt a stream := by
    unfold headAt at hhead ⊢
    rw [List.length_append]
    omega
  have hend : headAt a stream + (stream.drop (headAt a stream)).length = stream.length := by
    rw [List.length_drop]
    omega
  have hcell : c.sbTail.toNat % sndCap = stream.length % sndCap := by
    rw [h.tail_eq, BitVec.toNat_ofNat, Nat.mod_mod_of_dvd _ (by decide)]
  have hmod := Nat.mod_lt c.sbTail.toNat (show 0 < sndCap by decide)
  have hwrite : write c.sndBuf (c.sbTail.toNat % sndCap) bs =
      writeWrap c.sndBuf sndCap stream.length bs := by
    rw [write_eq_writeWrap _ (by omega), writeWrap_congr _ hcell]
  have hlive : (stream.drop (headAt a stream)).length + bs.length ≤ sndCap := by
    rw [List.length_drop]
    omega
  have hholds := h.holds.writeWrap hlive
  rw [hend] at hholds
  exact { una_eq := h.una_eq
          nxt_eq := h.nxt_eq
          head_eq := by rw [hhead']; exact h.head_eq
          tail_eq := by
            show c.sbTail + _ = _
            rw [h.tail_eq, ← BitVec.ofNat_add, List.length_append]
          fits := by
            rw [hhead', List.length_append]
            omega
          holds := by
            rw [hhead', List.drop_append_of_le_length hle, hwrite]
            exact hholds
          range := by
            rw [List.length_append]
            exact .inr ⟨ha, h.bounds.1, .inr ⟨hf, by omega⟩⟩
          finSeq_eq := fun hf' => absurd hf' hf
          noFin := h.noFin }

/-- Bytes of the ring are sent. -/
theorem SendPos.sendBytes (h : SendPos iss stream fin a b c) (ha : 1 ≤ a) (hf : ¬fin) {n : Nat}
    (hn : b + n ≤ stream.length + 1) :
    SendPos iss stream fin a (b + n) { c with sndNxt := c.sndNxt + BitVec.ofNat 32 n } where
  una_eq := h.una_eq
  nxt_eq := by
    show c.sndNxt + _ = _
    rw [h.nxt_eq, BitVec.add_assoc, ← BitVec.ofNat_add]
  head_eq := h.head_eq
  tail_eq := h.tail_eq
  fits := h.fits
  holds := h.holds
  range := .inr ⟨ha, by have := h.bounds.1; omega, .inr ⟨hf, hn⟩⟩
  finSeq_eq hf' := absurd hf' hf
  noFin := h.noFin

/-- The FIN is sent behind the last byte. -/
theorem SendPos.sendFin {fin' : Prop} (h : SendPos iss stream fin a b c) (ha : 1 ≤ a)
    (hb : b = stream.length + 1) (hf : fin') :
    SendPos iss stream fin' a (b + 1)
      { c with finSeq := c.sndNxt, sndNxt := c.sndNxt + 1#32 } where
  una_eq := h.una_eq
  nxt_eq := by
    show c.sndNxt + 1#32 = _
    rw [h.nxt_eq, BitVec.add_assoc, BitVec.ofNat_add b 1]
  head_eq := h.head_eq
  tail_eq := h.tail_eq
  fits := h.fits
  holds := h.holds
  range := .inr ⟨ha, by have := h.bounds.1; omega, .inl ⟨hf, by omega⟩⟩
  finSeq_eq _ := by
    show c.sndNxt = _
    rw [h.nxt_eq, hb, Nat.add_comm]
  noFin hf' := absurd hf hf'

end sizes

/-! ## effects of no concern -/

/-- Nothing is read from the host, no FIN is sent, and segments are bare. -/
def SendQuiet (es : List Effect) : Prop :=
  ∀ e ∈ es, e.readBytes = [] ∧ e ≠ .finSent ∧ ∀ s, e = .emit s → s.bare = true

theorem Bare.sendQuiet {es : List Effect} (h : Bare es) : SendQuiet es := by
  intro e he
  obtain ⟨s, rfl, hs⟩ := h e he
  refine ⟨rfl, by simp, fun s' hs' => ?_⟩
  cases hs'
  exact hs

section quiet

variable {iss : W32} {c c' : Conn} {tr es : List Effect}

theorem SendQuiet.hostBytes (h : SendQuiet es) : hostBytes es = [] :=
  collect_eq_nil fun e he => (h e he).1

theorem SendQuiet.finSent (h : SendQuiet es) : (.finSent ∈ tr ++ es) = (.finSent ∈ tr) := by
  have hno : .finSent ∉ es := fun hmem => (h _ hmem).2.1 rfl
  simp [hno]

/-- What reads nothing and sends neither bytes nor FIN keeps the invariant. -/
theorem SendInv.quiet (h : SendInv iss c tr) (hsame : SameSend c' c)
    (hsends : c'.sends = true → c.sends = true)
    (hsyn : c'.state = .synSent → c.state = .synSent) (hes : SendQuiet es) :
    SendInv iss c' (tr ++ es) where
  pos := by
    obtain ⟨a, b, hp, ha, hs⟩ := h.pos
    rw [hostBytes_append, hes.hostBytes, List.append_nil, hes.finSent]
    exact ⟨a, b, hp.congr hsame, fun hs' => ha (hsends hs'), fun hs' => hs (hsyn hs')⟩
  sending hs := by
    rw [hes.finSent]
    exact h.sending (hs.imp hsyn hsends)
  sent := by
    refine each_append_of_forall h.sent fun e he pre s hs hne => ?_
    have hb := (hes e he).2.2 s hs
    simp only [OutSegment.bare, Bool.and_eq_true, decide_eq_true_eq] at hb
    exact absurd hb.1 hne
  finFixed s hs hfin := by
    rw [hes.finSent, hostBytes_append, hes.hostBytes, List.append_nil]
    cases List.mem_append.mp hs with
    | inl hl => exact h.finFixed s hl hfin
    | inr hr =>
        have hb := (hes _ hr).2.2 s rfl
        simp only [OutSegment.bare, Bool.and_eq_true, decide_eq_true_eq] at hb
        simp [OutSegment.isFin, hb.2] at hfin

/-- Windows, timers and bare segments do not matter. -/
theorem SendInv.idle (h : SendInv iss c tr) (hcore : SameCore c' c) (hes : Bare es) :
    SendInv iss c' (tr ++ es) :=
  h.quiet hcore.toSameSend (by rw [Conn.sends, Conn.sends, hcore.state]; exact id)
    (by rw [hcore.state]; exact id) hes.sendQuiet

/-- Segments are not read from the host. -/
theorem OnlyEmits.hostBytes (h : OnlyEmits es) : hostBytes (tr ++ es) = hostBytes tr := by
  have hes : Tcp.hostBytes es = [] := collect_eq_nil fun e he => by
    obtain ⟨s, rfl⟩ := h e he
    rfl
  rw [hostBytes_append, hes, List.append_nil]

theorem OnlyEmits.finSent (h : OnlyEmits es) : (.finSent ∈ tr ++ es) = (.finSent ∈ tr) := by
  simp [not_finSent_mem_of_onlyEmits h]

/-- The one segment that goes out. -/
theorem eq_of_emit_mem {mac : Bool} {flags : BitVec 8} {q : W32} {bs : List UInt8}
    {s : OutSegment} (h : .emit s ∈ (sendSegment mac flags bs q c).effects) :
    s = ⟨q, c.rcvNxt, flags, c.window, bs⟩ := by
  rw [effects_sendSegment] at h
  cases mac with
  | false => simp at h
  | true => simpa using h

/-- A segment that carries the stream and no FIN. -/
theorem SentRight.emit (h : SentRight iss tr) {mac : Bool} {flags : BitVec 8} {q : W32}
    {bs : List UInt8} (hfin : flags &&& tcpFin = 0#8)
    (hs : bs ≠ [] → ∃ k, q = seqAt iss k ∧ (hostBytes tr).length ≤ k + sndCap ∧
      k + bs.length ≤ (hostBytes tr).length ∧ bs = ((hostBytes tr).drop k).take bs.length) :
    SentRight iss (tr ++ (sendSegment mac flags bs q c).effects) := by
  have hemit := onlyEmits_sendSegment mac flags bs q c
  constructor
  · rw [effects_sendSegment]
    cases mac with
    | false => simpa using h.sent
    | true =>
        rw [if_pos rfl, each_append, each_singleton, List.append_nil]
        refine ⟨h.sent, fun s' hs' => ?_⟩
        cases hs'
        exact hs
  · intro s' hs' hf
    rw [hemit.finSent, hemit.hostBytes]
    cases List.mem_append.mp hs' with
    | inl hl => exact h.finFixed s' hl hf
    | inr hr =>
        rw [eq_of_emit_mem hr] at hf
        simp [OutSegment.isFin, hfin] at hf

/-- A segment without bytes carries the stream, whatever its number. -/
theorem sent_emit_nil (h : Each (SentAt iss) tr) {mac : Bool} {flags : BitVec 8} {q : W32} :
    Each (SentAt iss) (tr ++ (sendSegment mac flags [] q c).effects) := by
  refine each_append_of_forall h fun e he pre s hs hne => ?_
  rw [hs] at he
  rw [eq_of_emit_mem he] at hne
  exact absurd rfl hne

end quiet

/-! ## a turn -/

section turn

variable (iss : W32) (io : StepIO)

theorem sendInv_writeHost : Keeps (SendInv iss) (writeHost io) := by
  intro c tr ⟨hfree, h⟩
  obtain ⟨hcore, hes⟩ | ⟨n, es, -, hbare, hcore, hes⟩ | ⟨es, hbare, hsend, -, -, hst, hes⟩ :=
    writeHost_spec io c
  · exact ⟨by rw [hcore.state]; exact hfree, h.idle hcore (by simp [hes])⟩
  · obtain ⟨hsend, hst, -⟩ := sameSend_advanceRb c n
    have hst' := hcore.state.trans hst
    have hquiet : SendQuiet (.hostWrite (c.frontBytes n) :: es) := by
      intro e he
      cases List.mem_cons.mp he with
      | inl heq => simp [heq, Effect.readBytes]
      | inr hmem => exact hbare.sendQuiet e hmem
    rw [hes]
    exact ⟨by rw [hst']; exact hfree, h.quiet (hcore.toSameSend.trans hsend)
      (by rw [Conn.sends, Conn.sends, hst']; exact id) (by rw [hst']; exact id) hquiet⟩
  · have hquiet : SendQuiet (es ++ [.hostFailed]) := by
      intro e he
      cases List.mem_append.mp he with
      | inl hl => exact hbare.sendQuiet e hl
      | inr hr => simp [List.mem_singleton.mp hr, Effect.readBytes]
    rw [hes]
    exact ⟨by simp [hst], h.quiet hsend (by simp [Conn.sends, hst]) (by simp [hst]) hquiet⟩

theorem sendInv_shutHost : Keeps (SendInv iss) shutHost := by
  intro c tr ⟨hfree, h⟩
  obtain hr | ⟨-, -, -, hr⟩ := shutHost_spec c
  · rw [hr]
    simpa using ⟨hfree, h⟩
  · rw [hr]
    refine ⟨hfree, h.quiet ⟨rfl, rfl, rfl, rfl, rfl, rfl⟩ id id ?_⟩
    intro e he
    simp [List.mem_singleton.mp he, Effect.readBytes]

/-- Bytes read from the host are appended to the ring and to the stream. -/
theorem sendInv_readHost : Keeps (SendInv iss) (readHost io) := by
  intro c tr ⟨hfree, h⟩
  obtain ⟨b, hr⟩ | ⟨bs, hsends, hlen, hr⟩ := readHost_spec io c
  · rw [hr]
    refine ⟨hfree, h.quiet ⟨rfl, rfl, rfl, rfl, rfl, rfl⟩ id id ?_⟩
    intro e he
    simp at he
  · have hno := h.sending (.inr hsends)
    obtain ⟨a, b, hp, ha, hsyn⟩ := h.pos
    have hfs : (.finSent ∈ tr ++ [Effect.hostRead bs]) = (.finSent ∈ tr) := by simp
    have hhb : hostBytes (tr ++ [.hostRead bs]) = hostBytes tr ++ bs := by
      rw [hostBytes_append]
      exact congrArg _ (List.append_nil bs)
    rw [hr]
    refine ⟨hfree, ?_⟩
    exact { pos := by
              rw [hfs, hhb]
              exact ⟨a, b, hp.append (ha hsends) hno hlen, ha, hsyn⟩
            sending := fun hs => by
              rw [hfs]
              exact h.sending hs
            sent := each_append_of_forall h.sent fun e he pre s hs => by
              rw [List.mem_singleton.mp he] at hs
              cases hs
            finFixed := fun s hs hf => by
              have hs' : .emit s ∈ tr := by simpa using hs
              exact absurd (h.finFixed s hs' hf).1 hno }

/-- One segment of bytes: SND_NXT passes what it carries. -/
theorem sendInv_sendOne {c : Conn} {tr : List Effect} (hsends : c.sends = true)
    (h : SendInv iss c tr) : SendInv iss (sendOne io c).conn (tr ++ (sendOne io c).effects) := by
  have hno := h.sending (.inr hsends)
  obtain ⟨a, b, hp, ha, hsyn⟩ := h.pos
  have ha1 := ha hsends
  obtain ⟨hnext, hunsent, hbl, hhead⟩ := hp.nextIndex ha1 hno
  obtain ⟨hle, -⟩ := hp.bounds
  have hlen := nextLen_le_unsent c
  have hfits := hp.fits
  obtain ⟨-, hst, -, hsame, -, heff⟩ := sendOne_spec io c
  have hemit : OnlyEmits (sendOne io c).effects := by
    rw [heff]
    exact onlyEmits_sendSegment _ _ _ _ _
  have hbytes := hp.read (n := c.nextLen) hnext (by omega) (by omega) (Nat.min_le_right _ _)
  have hsent : SentRight iss (tr ++ (sendOne io c).effects) := by
    rw [heff]
    refine h.toSentRight.emit (by decide) fun _ => ⟨b - 1, ?_, by omega, ?_, ?_⟩
    · rw [hp.nxt_eq, seqAt]
      congr 2
      omega
    · rw [length_read]
      omega
    · rw [length_read]
      exact hbytes
  refine { hsent with pos := ?_, sending := ?_ }
  · rw [hemit.hostBytes, hemit.finSent, hst, Conn.sends, hst]
    exact ⟨a, b + c.nextLen, (hp.sendBytes ha1 hno (by omega)).congr hsame, fun _ => ha1, hsyn⟩
  · rw [hemit.finSent, hst, Conn.sends, hst]
    exact h.sending

theorem sendInv_sendLoop (quota : Nat) {c : Conn} {tr : List Effect} (hsends : c.sends = true)
    (h : SendInv iss c tr) :
    SendInv iss (sendLoop io quota c).conn (tr ++ (sendLoop io quota c).effects) := by
  induction quota generalizing c tr with
  | zero => simpa [sendLoop] using h
  | succ quota ih =>
      unfold sendLoop
      split
      · simpa using h
      · have hsends' : (sendOne io c).conn.sends = true := by
          have hst := (sendOne_spec io c).2.1
          rw [Conn.sends, hst]
          exact hsends
        rw [Res.effects_bind, ← List.append_assoc]
        exact ih hsends' (sendInv_sendOne iss io hsends h)

theorem sendInv_sendData : Keeps (SendInv iss) (sendData io) := by
  intro c tr ⟨hfree, h⟩
  have hst := (sendData_spec io c).2.1
  refine ⟨by rw [hst]; exact hfree, ?_⟩
  unfold sendData
  split
  · next hsends => exact sendInv_sendLoop iss io sendQuota hsends h
  · simpa using h

/-- Our FIN takes the number after the last byte, all bytes being sent. -/
theorem sendInv_sendFin : Keeps (SendInv iss) (sendFin io) := by
  intro c tr ⟨hfree, h⟩
  obtain hr | ⟨-, -, hunsent0, hsends, -, -, hst, hsame, hes⟩ := sendFin_spec io c
  · rw [hr]
    simpa using ⟨hfree, h⟩
  · have hno := h.sending (.inr hsends)
    obtain ⟨a, b, hp, ha, -⟩ := h.pos
    have ha1 := ha hsends
    obtain ⟨-, hunsent, hbl, -⟩ := hp.nextIndex ha1 hno
    obtain ⟨hle, -⟩ := hp.bounds
    have hb : b = (hostBytes tr).length + 1 := by omega
    have hnxt : c.sndNxt = seqAt iss (hostBytes tr).length := by
      rw [hp.nxt_eq, hb, seqAt, Nat.add_comm]
    have hhb : hostBytes (tr ++ (sendFin io c).effects) = hostBytes tr := by
      rw [hes, ← List.append_assoc, hostBytes_append,
        (onlyEmits_sendSegment _ _ _ _ _).hostBytes]
      exact List.append_nil _
    have hfs : .finSent ∈ tr ++ (sendFin io c).effects := by simp [hes]
    have hstate : (sendFin io c).conn.state ≠ .free ∧ (sendFin io c).conn.state ≠ .synSent ∧
        (sendFin io c).conn.sends = false := by
      rw [Conn.sends, hst]
      cases c.state <;> simp [finSentState]
    refine ⟨hstate.1, ?_⟩
    exact { pos := by
              rw [hhb]
              exact ⟨a, b + 1, (hp.sendFin ha1 hb hfs).congr hsame,
                by simp [hstate.2.2], fun hs => absurd hs hstate.2.1⟩
            sending := fun hs => by simp [hstate.2.1, hstate.2.2] at hs
            sent := by
              rw [hes, ← List.append_assoc]
              refine each_append_of_forall (sent_emit_nil h.sent) fun e he pre s hs => ?_
              rw [List.mem_singleton.mp he] at hs
              cases hs
            finFixed := fun s hs hf => by
              refine ⟨hfs, ?_⟩
              rw [hhb]
              cases List.mem_append.mp hs with
              | inl hl => exact absurd (h.finFixed s hl hf).1 hno
              | inr hr =>
                  rw [hes, List.mem_append, List.mem_singleton] at hr
                  obtain hout | heq := hr
                  · rw [eq_of_emit_mem hout]
                    exact hnxt
                  · cases heq }

/-- What is resent carries the stream from SND_UNA on, or is the FIN. -/
theorem sendInv_resend {c : Conn} {tr : List Effect} (h : SendInv iss c tr) :
    SendInv iss (resend io c).conn (tr ++ (resend io c).effects) := by
  obtain ⟨hcore, hcases⟩ := resend_spec io c
  have hemit := onlyEmits_resend io c
  obtain ⟨a, b, hp, ha, hsyn⟩ := h.pos
  have hsent : SentRight iss (tr ++ (resend io c).effects) := by
    obtain hes | ⟨-, hes⟩ | ⟨hst, hused, hes⟩ | ⟨hst, hused, hfin, hes⟩ := hcases
    · rw [hes, List.append_nil]
      exact h.toSentRight
    · rw [hes]
      exact h.toSentRight.emit (by decide) fun hne => absurd rfl hne
    · have hu := hp.sbUsed
      have hfits := hp.fits
      obtain ⟨ha1, hhead⟩ := hp.headAt_of_used hused
      have hlen : c.resendLen ≤ c.sbUsed := by
        unfold Conn.resendLen
        omega
      have hbytes := hp.read (n := c.resendLen) hp.head_eq (Nat.le_refl _) (by omega)
        (Nat.min_le_right _ _)
      rw [hes]
      refine h.toSentRight.emit (by decide) fun _ => ⟨a - 1, ?_, by omega, ?_, ?_⟩
      · rw [hp.una_eq, seqAt]
        congr 2
        omega
      · rw [length_read]
        omega
      · rw [length_read, ← hhead]
        exact hbytes
    · have hfs : .finSent ∈ tr := by
        by_cases hfs : .finSent ∈ tr
        · exact hfs
        · exact absurd (hp.noFin hfs) hfin
      constructor
      · rw [hes]
        exact sent_emit_nil h.sent
      · intro s hs hf
        rw [hemit.finSent, hemit.hostBytes]
        cases List.mem_append.mp hs with
        | inl hl => exact h.finFixed s hl hf
        | inr hr =>
            rw [hes] at hr
            rw [eq_of_emit_mem hr]
            exact ⟨hfs, hp.finSeq_eq hfs⟩
  have hidle := h.quiet hcore.toSameSend (by rw [Conn.sends, Conn.sends, hcore.state]; exact id)
    (by rw [hcore.state]; exact id) bare_nil.sendQuiet
  rw [List.append_nil] at hidle
  exact { hsent with
    pos := by rw [hemit.hostBytes, hemit.finSent]; exact hidle.pos
    sending := by rw [hemit.finSent]; exact hidle.sending }

theorem sendInv_retransmit : Keeps (SendInv iss) (retransmit io) := by
  intro c tr ⟨hfree, h⟩
  obtain hr | ⟨hsend, -, -, hst, hes⟩ | ⟨-, c', hcore, hr⟩ := retransmit_spec io c
  · rw [hr]
    simpa using ⟨hfree, h⟩
  · refine ⟨by simp [hst], h.quiet hsend (by simp [Conn.sends, hst]) (by simp [hst]) ?_⟩
    rw [hes]
    intro e he
    simp [List.mem_singleton.mp he, Effect.readBytes]
  · have hidle := h.idle hcore bare_nil
    rw [List.append_nil] at hidle
    rw [hr]
    exact ⟨by rw [(sameCore_resend io c').state, hcore.state]; exact hfree,
      sendInv_resend iss io hidle⟩

theorem sendInv_closeHost : Carries (InUse (SendInv iss)) (SendInv iss) closeHost := by
  intro c tr ⟨hfree, h⟩
  obtain ⟨-, hr⟩ | ⟨-, hr⟩ := closeHost_spec c
  · rw [hr]
    simpa using h
  · rw [hr]
    refine h.quiet ⟨rfl, rfl, rfl, rfl, rfl, rfl⟩ (by simp [Conn.sends]) (by simp) ?_
    intro e he
    dsimp only at he
    split at he <;> simp at he
    · simp [he, Effect.readBytes]
    · cases he with
      | inl h0 => simp [h0, Effect.readBytes]
      | inr h0 => simp [h0, Effect.readBytes]

theorem sendInv_connStep : Carries (InUse (SendInv iss)) (SendInv iss) (connStep io) :=
  carries_connStep (sendInv_writeHost iss io) (sendInv_shutHost iss) (sendInv_readHost iss io)
    (sendInv_sendData iss io) (sendInv_sendFin iss io) (sendInv_retransmit iss io)
    (sendInv_closeHost iss)

end turn

/-! ## a segment -/

section input

variable {iss : W32} {mac : Bool} {t : Timespec} {s : Segment} {c : Conn} {tr : List Effect}

/-- The handshake's acknowledgement passes the SYN. -/
theorem sendInv_applySynAck (h : SendInv iss c tr) (hst : c.state = .synSent) :
    SendInv iss (applySynAck mac s c).conn (tr ++ (applySynAck mac s c).effects) := by
  unfold applySynAck
  split
  · refine SendInv.idle ?_ (sameCore_sendAck mac _) (bare_sendAck mac _)
    have hno := h.sending (.inl hst)
    obtain ⟨a, b, hp, -, hsyn⟩ := h.pos
    have ha := hsyn hst
    obtain ⟨-, hb, hnil, -⟩ | ⟨h1, -⟩ := hp.range
    · subst ha hb
      have hhead : headAt 1 (hostBytes tr) = headAt 0 (hostBytes tr) := rfl
      refine { h.toSentRight with
        pos := ⟨1, 1, ?_, fun _ => Nat.le_refl 1, by simp⟩, sending := fun _ => hno }
      exact { una_eq := hp.nxt_eq
              nxt_eq := hp.nxt_eq
              head_eq := hp.head_eq
              tail_eq := hp.tail_eq
              fits := hp.fits
              holds := hp.holds
              range := .inr ⟨Nat.le_refl 1, Nat.le_refl 1, .inr ⟨hno, by omega⟩⟩
              finSeq_eq := hp.finSeq_eq
              noFin := hp.noFin }
    · omega
  · simpa using h

/-- The position a new acknowledgement names. -/
theorem ackNo_eq {stream : List UInt8} {fin : Prop} {a b : Nat}
    (hp : SendPos iss stream fin a b c) (htake : c.takesAck s = true) :
    ∃ d, 1 ≤ d ∧ a + d ≤ b ∧ c.acked s = BitVec.ofNat 32 d ∧
      s.ackNo = iss + BitVec.ofNat 32 (a + d) ∧ (s.ackNo = c.sndNxt ↔ a + d = b) := by
  simp only [Conn.takesAck, Bool.and_eq_true, decide_eq_true_eq, ne_eq] at htake
  obtain ⟨⟨-, hle⟩, hne⟩ := htake
  have hfl := hp.inFlight
  obtain ⟨hab, hb⟩ := hp.bounds
  unfold sndCap at hb
  have hd1 : 1 ≤ (c.acked s).toNat := by bv_omega
  have hd2 : (c.acked s).toNat ≤ b - a := by
    rw [← hfl]
    exact hle
  have hacked : c.acked s = BitVec.ofNat 32 (c.acked s).toNat := by
    rw [BitVec.ofNat_toNat, BitVec.setWidth_eq]
  have hno : s.ackNo = iss + BitVec.ofNat 32 (a + (c.acked s).toNat) := by
    rw [BitVec.ofNat_add, ← BitVec.add_assoc, ← hp.una_eq, ← hacked, Conn.acked]
    bv_omega
  refine ⟨(c.acked s).toNat, hd1, by omega, hacked, hno, ?_⟩
  rw [hno, hp.nxt_eq, BitVec.add_right_inj, ofNat_inj_of_lt 32 (by omega) (by omega)]

/-- A new acknowledgement, counted right, moves SND_UNA and the ring's head in
step. -/
theorem sendPos_ack {stream : List UInt8} {fin : Prop} {a b : Nat}
    (hp : SendPos iss stream fin a b c) (htake : c.takesAck s = true)
    (hcount : c.coversFin s = c.countsFin s) :
    ∃ a', 1 ≤ a' ∧ s.ackNo = iss + BitVec.ofNat 32 a' ∧ a' ≤ b ∧
      c.sbHead + (c.ackedBytes s).setWidth 64 = BitVec.ofNat 64 (headAt a' stream) ∧
      headAt a stream ≤ headAt a' stream := by
  obtain ⟨d, hd, hdb, hacked, hno, hnxt⟩ := ackNo_eq hp htake
  have hfl := hp.inFlight
  have hused := hp.sbUsed
  have hr := hp.range
  obtain ⟨hab, hb⟩ := hp.bounds
  unfold sndCap at hb
  have hcov : c.coversFin s = true ↔ b - a = stream.length - headAt a stream + 1 ∧ a + d = b := by
    rw [Conn.coversFin, Bool.and_eq_true, decide_eq_true_eq, decide_eq_true_eq, hnxt, hfl, hused]
  have hstream : stream = [] → stream.length = 0 := fun h0 => by rw [h0]; rfl
  have hsmall : d < 2 ^ 32 := by omega
  -- the bytes acknowledged are the sequence numbers less the FIN, if it is one
  have hbytes : (c.ackedBytes s).setWidth 64 =
      BitVec.ofNat 64 (if c.countsFin s then d - 1 else d) := by
    unfold Conn.ackedBytes
    rw [hacked]
    cases c.countsFin s with
    | false =>
        simp only [Bool.false_eq_true, if_false]
        exact BitVec.setWidth_ofNat_of_le_of_lt (by decide) hsmall
    | true =>
        simp only [if_true]
        rw [BitVec.ofNat_sub_ofNat_of_le d 1 (by decide) hd]
        exact BitVec.setWidth_ofNat_of_le_of_lt (by decide) (by omega)
  have hhead : headAt (a + d) stream =
      headAt a stream + if c.countsFin s then d - 1 else d := by
    rw [hcount] at hcov
    unfold headAt at hcov ⊢
    cases hc : c.countsFin s with
    | false =>
        simp only [hc, Bool.false_eq_true, false_iff, if_false] at hcov ⊢
        grind
    | true =>
        simp only [hc, true_iff, if_true] at hcov ⊢
        grind
  refine ⟨a + d, by omega, hno, hdb, ?_, by omega⟩
  rw [hp.head_eq, hbytes, ← BitVec.ofNat_add, hhead]

/-- An acknowledgement counted right keeps the invariant. -/
theorem sendInv_applyAck (t : Timespec) (h : SendInv iss c tr) (hsyn : c.state ≠ .synSent)
    (hcount : c.takesAck s = true → c.coversFin s = c.countsFin s) :
    SendInv iss (applyAck s t c) tr := by
  cases htake : c.takesAck s with
  | false =>
      have hidle := h.idle (sameCore_applyAck t s c htake) bare_nil
      rwa [List.append_nil] at hidle
  | true =>
      obtain ⟨a, b, hp, ha, -⟩ := h.pos
      obtain ⟨a', ha1, hno, hab', hhead, hle⟩ := sendPos_ack hp htake (hcount htake)
      have hst := state_applyAck t s c
      have hsends : (applyAck s t c).sends = true → c.sends = true := by
        intro hs
        rw [Conn.sends, hst] at hs
        split at hs
        · cases hc : c.state <;> simp [hc, finAckedState, Conn.sends] at hs ⊢
        · exact hs
      have hsyn' := state_applyAck_ne t s c (.inr rfl) hsyn
      have hfit := hp.fits
      have hhead' : headAt a' (hostBytes tr) ≤ (hostBytes tr).length := Nat.min_le_right _ _
      have hdrop := hp.holds.drop (n := headAt a' (hostBytes tr) - headAt a (hostBytes tr))
      rw [List.drop_drop, Nat.add_sub_cancel' hle] at hdrop
      have hrange := hp.range
      refine { h.toSentRight with
        pos := ⟨a', b, ?_, fun _ => ha1, fun hs => absurd hs hsyn'⟩
        sending := fun hs => h.sending (.inr (hs.elim (fun h0 => absurd h0 hsyn') hsends)) }
      rw [applyAck_of_takesAck t s c htake]
      exact { una_eq := hno
              nxt_eq := hp.nxt_eq
              head_eq := hhead
              tail_eq := hp.tail_eq
              fits := by omega
              holds := hdrop
              range := by
                obtain ⟨-, hb, hnil, hf⟩ | ⟨-, -, hf⟩ := hrange
                · exact .inr ⟨ha1, hab', .inr ⟨hf, by omega⟩⟩
                · exact .inr ⟨ha1, hab', hf⟩
              finSeq_eq := hp.finSeq_eq
              noFin := hp.noFin }

/-- Payload and the peer's FIN concern the other half. -/
theorem sendInv_applyPayload (mac : Bool) (h : SendInv iss c tr) (hsyn : c.state ≠ .synSent) :
    SendInv iss (applyPayload mac s c).conn (tr ++ (applyPayload mac s c).effects) := by
  obtain ⟨hsend, -⟩ := sameSend_applyPayload mac s c
  have hst := state_applyPayload mac s c
  refine h.quiet hsend (fun hs => ?_) (fun hs => ?_) ?_
  · rw [Conn.sends, hst] at hs
    split at hs
    · cases hc : c.state <;> simp [hc, finTakenState, Conn.sends] at hs ⊢
    · exact hs
  · rw [hst] at hs
    split at hs
    · cases hc : c.state <;> simp [hc, finTakenState] at hs hsyn
    · exact hs
  · obtain ⟨-, -, hes⟩ | ⟨-, -, es, hes, heff⟩ := applyPayload_spec mac s c
    · exact hes.sendQuiet
    · rw [heff, effects_storePayload]
      intro e he
      cases List.mem_append.mp he with
      | inr hr => exact hes.sendQuiet e hr
      | inl hl =>
          cases List.mem_append.mp hl with
          | inl hl =>
              split at hl
              · simp at hl
              · simp [List.mem_singleton.mp hl, Effect.readBytes]
          | inr hr =>
              cases hfin : (storePayload s c).conn.finInOrder s with
              | false =>
                  rw [takeFin_of_not_finInOrder s _ hfin] at hr
                  simp at hr
              | true =>
                  rw [takeFin_of_finInOrder s _ hfin] at hr
                  simp [List.mem_singleton.mp hr, Effect.readBytes]

end input

/-- **One event keeps the invariant**, an acknowledgement being counted right. -/
theorem sendInv_step {iss : W32} {w : World} {e : Event} (h : w.Satisfies (SendInv iss))
    (hcount : AckCounted w e = true) : (w.step e).Satisfies (SendInv iss) := by
  refine satisfies_step h ?_ fun io _ => sendInv_connStep iss io
  rintro s mac t rfl hfree
  have h' : SendInv iss w.conn w.trace := h
  unfold tcpIn
  cases hrst : s.has tcpRst with
  | true =>
      simp only [if_true]
      refine h'.quiet ⟨rfl, rfl, rfl, rfl, rfl, rfl⟩ (by simp [Conn.sends]) (by simp) ?_
      intro e he
      simp [List.mem_singleton.mp he, Effect.readBytes]
  | false =>
      by_cases hsyn : w.conn.state = .synSent
      · simpa [hsyn] using sendInv_applySynAck h' hsyn
      · simp only [Bool.false_eq_true, if_false, hsyn]
        have hright : w.conn.takesAck s = true → w.conn.coversFin s = w.conn.countsFin s := by
          intro htake
          simpa [AckCounted, hfree, hsyn, hrst, htake] using hcount
        have hack := sendInv_applyAck t h' hsyn hright
        exact sendInv_applyPayload mac hack (state_applyAck_ne t s w.conn (.inr rfl) hsyn)

theorem sendInv_opened (old : Conn) (fd : Int) (lport rport : Nat) (iss : W32) :
    (opened old fd lport rport iss).Satisfies (SendInv iss) where
  sent := each_nil _
  finFixed s hs := by simp [opened] at hs
  pos := by
    refine ⟨0, 1, ?_, by simp [opened, openConn, Conn.sends], fun _ => rfl⟩
    exact { una_eq := (BitVec.add_zero iss).symm
            nxt_eq := rfl
            head_eq := rfl
            tail_eq := rfl
            fits := Nat.zero_le _
            holds := holds_nil _ _ _
            range := .inl ⟨rfl, rfl, rfl, by simp [opened]⟩
            finSeq_eq := fun hf => by simp [opened] at hf
            noFin := fun _ => rfl }
  sending _ := by simp [opened]

/-! ## the card gets the stream -/

theorem SendInv.right {iss : W32} {w : World} (h : w.Satisfies (SendInv iss)) :
    SendRight iss w := by
  have h' : SendInv iss w.conn w.trace := h
  obtain ⟨a, b, hp, -, -⟩ := h'.pos
  have hused := hp.sbUsed
  have hfits := hp.fits
  have hle : headAt a (hostBytes w.trace) ≤ (hostBytes w.trace).length := Nat.min_le_right _ _
  have hcell : w.conn.sbHead.toNat % sndCap = headAt a (hostBytes w.trace) % sndCap := by
    rw [hp.head_eq, BitVec.toNat_ofNat, Nat.mod_mod_of_dvd _ (by decide)]
  refine ⟨⟨headAt a (hostBytes w.trace), hle, hp.head_eq, hp.tail_eq, hused, by omega, ?_, ?_⟩,
    h'.sent, fun hf => ?_, h'.finFixed⟩
  · have hlen : ((hostBytes w.trace).drop (headAt a (hostBytes w.trace))).length =
        w.conn.sbUsed := by
      rw [List.length_drop, hused]
    rw [readWrap_congr _ hcell, hp.holds.readWrap (by decide) (by omega) (by omega), ← hlen,
      List.take_length]
  · have hr := hp.range
    unfold headAt
    obtain ⟨rfl, rfl, hnil, -⟩ | ⟨h1, hab, ⟨hf, hb⟩ | ⟨-, hb⟩⟩ := hr
    · right
      left
      exact ⟨hnil, by rw [hp.una_eq]; exact BitVec.add_zero iss, hp.nxt_eq⟩
    · by_cases hall : a = (hostBytes w.trace).length + 2
      · right
        right
        refine ⟨by omega, hf, ?_⟩
        rw [hp.una_eq, seqAt]
        congr 2
        omega
      · left
        rw [hp.una_eq, seqAt]
        congr 2
        omega
    · left
      rw [hp.una_eq, seqAt]
      congr 2
      omega
  · refine ⟨hp.finSeq_eq hf, ?_⟩
    have hb : b = (hostBytes w.trace).length + 2 := by
      obtain ⟨-, -, -, hn⟩ | ⟨-, -, ⟨-, hb⟩ | ⟨hn, -⟩⟩ := hp.range
      · exact absurd hf hn
      · exact hb
      · exact absurd hf hn
    rw [hp.nxt_eq, hp.finSeq_eq hf, hb, BitVec.add_assoc, ← BitVec.ofNat_add]
    congr 2
    omega

/-- **The sending side stays right** in every run whose acknowledgements are
counted right, from any initial sequence number. -/
theorem sending_right (old : Conn) (fd : Int) (lport rport : Nat) (iss : W32) (es : List Event)
    (h : Along World.step (fun w e => AckCounted w e = true) (opened old fd lport rport iss) es) :
    SendRight iss (run World.step (opened old fd lport rport iss) es) :=
  SendInv.right (run_inv (fun _ _ hw hc => sendInv_step hw hc)
    (sendInv_opened old fd lport rport iss) h)

/-- A connection is accepted, the host writes 75 bytes and ends, and the card
acknowledges all of it with the FIN. -/
def shortStream (iss : W32) : List Event :=
  [.segment (cardSegment 5000#32 (iss + 1#32) (tcpSyn ||| tcpAck) [] nothing_fits) true ⟨0, 0⟩,
   .turn { quietTurn with read := .data (List.replicate 75 120) },
   .turn hostEnds,
   .segment (cardSegment 5001#32 (iss + 77#32) tcpAck [] nothing_fits) true ⟨0, 0⟩]

/-- From the initial number 1000 all stays right. -/
theorem sending_right_1000 : SendRight 1000#32
    (run World.step (opened emptySlot 5 22 40000 1000#32) (shortStream 1000#32)) :=
  sending_right emptySlot 5 22 40000 1000#32 (shortStream 1000#32) (by decide +kernel)

/-- 21711835 microseconds after the start of the clock the initial number makes
the FIN's number 0, which stands for no FIN: its acknowledgement moves the
ring's head past its tail. -/
theorem fin_zero_miscounted :
    (run World.step (opened emptySlot 5 22 40000 (issOf 21711835))
        (shortStream (issOf 21711835))).conn.sbTail -
      (run World.step (opened emptySlot 5 22 40000 (issOf 21711835))
        (shortStream (issOf 21711835))).conn.sbHead = -1#64 ∧
    ¬SendRight (issOf 21711835) (run World.step (opened emptySlot 5 22 40000 (issOf 21711835))
      (shortStream (issOf 21711835))) := by
  refine ⟨by decide +kernel, fun h => ?_⟩
  obtain ⟨u, -, -, -, -, hle, -⟩ := h.ring
  have hmany : ¬(run World.step (opened emptySlot 5 22 40000 (issOf 21711835))
      (shortStream (issOf 21711835))).conn.sbUsed ≤ sndCap := by decide +kernel
  exact hmany hle

end Phi.Tcp
