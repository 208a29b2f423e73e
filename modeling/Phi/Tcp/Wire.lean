import Phi.Tcp.Sending

/-!
# Phi.Tcp.Wire

What the forwarder puts on the wire, against the window.

A segment that starts at `SND_NXT` is a first transmission and has to lie in
the peer's window; any other repeats numbers that were sent.  The send path
takes the length of a segment from the window, the timer takes it from the
send ring, and the FIN goes out without a look at the window.  So the timer
may send bytes ahead of `SND_NXT`, and the acknowledgement of these is outside
what `tcp_in` accepts.
-/

namespace Phi.Tcp

open Circular

/-! ## segments and the window -/

/-- Sequence numbers the segment takes: its payload, a SYN and a FIN. -/
def OutSegment.span (s : OutSegment) : Nat :=
  s.payload.length + (if s.flags &&& tcpSyn = 0#8 then 0 else 1) +
    if s.flags &&& tcpFin = 0#8 then 0 else 1

/-- `SND_NXT` as the wire shows it: a segment that starts there moves it on. -/
def afterSent (nxt : W32) : Effect → W32
  | .emit s => if s.seq = nxt then nxt + BitVec.ofNat 32 s.span else nxt
  | _ => nxt

/-- A first transmission lies inside the window of `wnd` numbers from `una` on,
a retransmission inside what was sent. -/
def Fits (una : W32) (wnd : Nat) (nxt : W32) : Effect → Prop
  | .emit s => s.span ≠ 0 →
      if s.seq = nxt then (nxt - una).toNat + s.span ≤ wnd
      else (s.seq - una).toNat + s.span ≤ (nxt - una).toNat
  | _ => True

/-- The end of all that was put on the wire, `word` being at position `una`. -/
def reach (una : Nat) (word : W32) (top : Nat) : Effect → Nat
  | .emit s => if s.span = 0 then top else max top (una + (s.seq - word).toNat + s.span)
  | _ => top

/-! ## runs of a connection -/

/-- A connection, the position of its `SND_UNA`, and the end of all that was put
on the wire. -/
structure Wire where
  conn : Conn
  una : Nat
  top : Nat

namespace Wire

/-- The position of `SND_NXT`. -/
def nxt (w : Wire) : Nat := w.una + w.conn.inFlight.toNat

def step (w : Wire) (e : Event) : Wire :=
  let r := e.apply w.conn
  ⟨r.conn, w.una + (r.conn.sndUna - w.conn.sndUna).toNat,
    run (reach w.una w.conn.sndUna) w.top r.effects⟩

/-- `tcp_connect`: positions count from the initial sequence number. -/
def connected (old : Conn) (fd : Int) (lport rport us : Nat) (mac : Bool) (t : Timespec) : Wire :=
  let r := tcpConnect old fd lport rport us mac t
  ⟨r.conn, (issOf us).toNat, run (reach (issOf us).toNat (issOf us)) (issOf us).toNat r.effects⟩

/-- The segment acknowledges numbers up to `a`; the first one also answers the
SYN. -/
def Acks (w : Wire) (s : Segment) (a : Nat) : Prop :=
  s.has tcpRst = false ∧ s.has tcpAck = true ∧ (w.conn.state = .synSent → s.has tcpSyn = true) ∧
    s.ackNo = BitVec.ofNat 32 a

/-- Every acknowledgement that is new and of something put on the wire is taken. -/
def AcksTaken (w : Wire) : Prop :=
  w.conn.state ≠ .free → ∀ (s : Segment) (mac : Bool) (t : Timespec) (a : Nat), w.Acks s a →
    w.una < a → a ≤ w.top → (tcpIn mac t s w.conn).conn.sndUna = s.ackNo

/-- What goes out fits, nothing past `SND_NXT` is on the wire after it, and what
the peer can acknowledge is taken. -/
structure Right (w : Wire) (e : Event) : Prop where
  fits : Along afterSent (Fits w.conn.sndUna w.conn.sndWnd) w.conn.sndNxt
    (e.apply w.conn).effects
  within : (w.step e).top ≤ (w.step e).nxt
  taken : (w.step e).AcksTaken

end Wire

/-! ## when a turn is right -/

/-- The FIN goes out. -/
def Conn.finDue (c : Conn) : Bool :=
  c.hostEof && c.finSeq = 0#32 && c.unsent = 0 && c.sends

/-- The timer resends data. -/
def Conn.resendsData (t : Timespec) (c : Conn) : Bool :=
  c.sndNxt ≠ c.sndUna && !(nowMs t < c.rtoAt) && !(maxRetries < c.retries + 1) &&
    c.state ≠ .synSent && c.sbUsed ≠ 0

/-- All the ring holds is in flight, or a whole segment is, or all up to the
ring's edge. -/
def Conn.Covered (c : Conn) : Prop :=
  c.sbUsed ≤ c.inFlight.toNat ∨ mss ≤ c.inFlight.toNat ∨
    sndCap - c.sbHead.toNat % sndCap ≤ c.inFlight.toNat

/-- The connection as the turn comes to the FIN. -/
def Conn.atFin (io : StepIO) (c : Conn) : Conn :=
  (((shutHost c).bind (readHost io)).bind (sendData io)).conn

/-- The connection as the turn comes to the timer. -/
def Conn.atTimer (io : StepIO) (c : Conn) : Conn := (sendFin io (c.atFin io)).conn

/-- The window has room for the FIN, and the timer finds in flight what it
resends. -/
def Conn.Roomy (io : StepIO) (c : Conn) : Prop :=
  ((c.atFin io).finDue = true → (c.atFin io).inFlight.toNat < (c.atFin io).sndWnd) ∧
    ((c.atTimer io).resendsData io.clkCheck = true → (c.atTimer io).Covered)

/-- The condition on an event: in a turn that gets past the write to the host,
with the card's MAC known. -/
def Wire.InWindow (w : Wire) : Event → Prop
  | .segment .. => True
  | .turn io => w.conn.state ≠ .free → w.conn.state ≠ .closed →
      (writeHost io w.conn).conn.state ≠ .closed → io.mac = true →
        (writeHost io w.conn).conn.Roomy io

instance (c : Conn) : Decidable c.Covered := inferInstanceAs (Decidable (_ ∨ _ ∨ _))

/-! ## silent effects -/

/-- The effect takes no sequence number. -/
def Effect.silent : Effect → Bool
  | .emit s => s.span = 0
  | _ => true

section silent

variable {es : List Effect}

theorem run_afterSent_of_silent (h : ∀ e ∈ es, e.silent = true) (nxt : W32) :
    run afterSent nxt es = nxt := by
  induction es with
  | nil => rfl
  | cons e es ih =>
      have hstep : afterSent nxt e = nxt := by
        cases e with
        | emit s =>
            have hspan : s.span = 0 := of_decide_eq_true (h _ List.mem_cons_self)
            simp [afterSent, hspan]
        | _ => rfl
      rw [run_cons, hstep]
      exact ih fun e he => h e (List.mem_cons_of_mem _ he)

theorem run_reach_of_silent (h : ∀ e ∈ es, e.silent = true) (una : Nat) (word : W32) (top : Nat) :
    run (reach una word) top es = top := by
  induction es with
  | nil => rfl
  | cons e es ih =>
      have hstep : reach una word top e = top := by
        cases e with
        | emit s => exact if_pos (of_decide_eq_true (h _ List.mem_cons_self))
        | _ => rfl
      rw [run_cons, hstep]
      exact ih fun e he => h e (List.mem_cons_of_mem _ he)

theorem along_fits_of_silent (h : ∀ e ∈ es, e.silent = true) (una : W32) (wnd : Nat)
    (nxt : W32) : Along afterSent (Fits una wnd) nxt es := by
  induction es generalizing nxt with
  | nil => trivial
  | cons e es ih =>
      refine ⟨?_, ih (fun e he => h e (List.mem_cons_of_mem _ he)) _⟩
      cases e with
      | emit s => exact fun hspan => absurd (of_decide_eq_true (h _ List.mem_cons_self)) hspan
      | _ => trivial

end silent

/-! ## one routine -/

/-- What the sequence numbers keep to. -/
structure Conn.Sane (c : Conn) : Prop where
  sending : c.sends = true → c.SendOk ∧ c.finSeq = 0#32
  opening : c.state = .synSent → c.inFlight = 1#32 ∧ c.sbUsed = 0 ∧ c.finSeq = 0#32
  ended : c.finSeq ≠ 0#32 → c.sndNxt = c.finSeq + 1#32

theorem Conn.Sane.congr {c c' : Conn} (h : c.Sane) (hsame : SameSend c' c)
    (hst : c'.state = c.state) : c'.Sane where
  sending hs := by
    rw [Conn.sends, hst] at hs
    obtain ⟨hok, hfin⟩ := h.sending hs
    exact ⟨hok.congr hsame, hsame.finSeq.trans hfin⟩
  opening hs := by
    rw [hst] at hs
    rw [hsame.inFlight, hsame.sbUsed, hsame.finSeq]
    exact h.opening hs
  ended hs := by
    rw [hsame.finSeq] at hs
    rw [hsame.sndNxt, hsame.finSeq]
    exact h.ended hs

/-- A connection that is closed or released. -/
theorem Conn.Sane.gone {c c' : Conn} (h : c.Sane) (hsame : SameSend c' c)
    (hst : c'.state = .closed ∨ c'.state = .free) : c'.Sane where
  sending hs := by
    rcases hst with hst | hst <;> simp [Conn.sends, hst] at hs
  opening hs := by
    rcases hst with hst | hst <;> simp [hst] at hs
  ended hs := by
    rw [hsame.finSeq] at hs
    rw [hsame.sndNxt, hsame.finSeq]
    exact h.ended hs

/-- What a part `r` of a turn puts on the wire, `c` being the connection before
it: with the card's MAC known it fits exactly under the condition `D`. -/
structure Puts (mac : Bool) (c : Conn) (D : Prop) (r : Res) : Prop where
  sane : r.conn.Sane
  una : r.conn.sndUna = c.sndUna
  wnd : r.conn.sndWnd = c.sndWnd
  grows : c.inFlight.toNat ≤ r.conn.inFlight.toNat
  off : mac = false → ∀ e ∈ r.effects, e.silent = true
  next : mac = true → run afterSent c.sndNxt r.effects = r.conn.sndNxt
  fits : mac = true →
    (Along afterSent (Fits c.sndUna c.sndWnd) c.sndNxt r.effects ↔ D)
  reached : mac = true → D → ∀ p top, top ≤ p + c.inFlight.toNat →
    run (reach p c.sndUna) top r.effects ≤ p + r.conn.inFlight.toNat

section puts

variable {mac : Bool} {c : Conn} {D E : Prop} {r : Res}

/-- One part after another. -/
theorem Puts.bind {f : Conn → Res} (h : Puts mac c D r) (hf : Puts mac r.conn E (f r.conn)) :
    Puts mac c (D ∧ E) (r.bind f) where
  sane := hf.sane
  una := hf.una.trans h.una
  wnd := hf.wnd.trans h.wnd
  grows := Nat.le_trans h.grows hf.grows
  off hmac e he := by
    rcases List.mem_append.mp he with he | he
    · exact h.off hmac e he
    · exact hf.off hmac e he
  next hmac := by
    rw [Res.effects_bind, run_append, h.next hmac]
    exact hf.next hmac
  fits hmac := by
    have hfit := hf.fits hmac
    rw [h.una, h.wnd] at hfit
    rw [Res.effects_bind, along_append, h.next hmac, h.fits hmac, hfit]
  reached hmac hDE p top htop := by
    have hreach := hf.reached hmac hDE.2 p _ (h.reached hmac hDE.1 p top htop)
    rw [h.una] at hreach
    rw [Res.effects_bind, run_append]
    exact hreach

/-- A part that sends nothing with a number. -/
theorem Puts.of_silent (hsane : r.conn.Sane) (hsame : SameSend r.conn c)
    (hwnd : r.conn.sndWnd = c.sndWnd) (hes : ∀ e ∈ r.effects, e.silent = true) :
    Puts mac c True r where
  sane := hsane
  una := hsame.sndUna
  wnd := hwnd
  grows := Nat.le_of_eq (congrArg BitVec.toNat hsame.inFlight.symm)
  off _ := hes
  next _ := by rw [run_afterSent_of_silent hes, hsame.sndNxt]
  fits _ := iff_of_true (along_fits_of_silent hes _ _ _) trivial
  reached _ _ p top htop := by
    rw [run_reach_of_silent hes, hsame.inFlight]
    exact htop

theorem Puts.iff (h : Puts mac c D r) (hDE : D ↔ E) : Puts mac c E r where
  sane := h.sane
  una := h.una
  wnd := h.wnd
  grows := h.grows
  off := h.off
  next := h.next
  fits hmac := (h.fits hmac).trans hDE
  reached hmac hE := h.reached hmac (hDE.mpr hE)

end puts

section routines

variable {c : Conn} (io : StepIO)

/-- A segment without payload, SYN and FIN. -/
theorem silent_sendSegment (mac : Bool) {flags : BitVec 8} (hsyn : flags &&& tcpSyn = 0#8)
    (hfin : flags &&& tcpFin = 0#8) (q : W32) (c : Conn) :
    ∀ e ∈ (sendSegment mac flags [] q c).effects, e.silent = true := by
  intro e he
  rw [effects_sendSegment] at he
  cases mac with
  | false => simp at he
  | true =>
      rw [List.mem_singleton.mp he]
      simp [Effect.silent, OutSegment.span, hsyn, hfin]

theorem silent_sendAck (mac : Bool) (c : Conn) :
    ∀ e ∈ (sendAck mac c).effects, e.silent = true :=
  silent_sendSegment mac rfl rfl _ c

/-- The wire sees of a segment only what `tcp_send_segment` is given. -/
theorem wnd_sendSegment (mac : Bool) (flags : BitVec 8) (bs : List UInt8) (q : W32) (c : Conn) :
    (sendSegment mac flags bs q c).conn.sndWnd = c.sndWnd := by
  rw [conn_sendSegment]

theorem puts_writeHost (h : c.Sane) : Puts io.mac c True (writeHost io c) := by
  unfold writeHost
  split
  · exact .of_silent h (.refl c) rfl (by simp)
  · split
    · next n _ =>
        obtain ⟨hsame, hst, -⟩ := sameSend_advanceRb c (min n c.rbPiece)
        have hcore := sameCore_windowUpdate io (c.advanceRb (min n c.rbPiece))
        have hwnd : (c.advanceRb (min n c.rbPiece)).sndWnd = c.sndWnd := by
          unfold Conn.advanceRb
          dsimp only
          split
          · rfl
          · rfl
        dsimp only
        refine .of_silent ?_ (hcore.toSameSend.trans hsame) ?_ ?_
        · exact h.congr (hcore.toSameSend.trans hsame) (hcore.state.trans hst)
        · rw [Res.conn_bind]
          unfold windowUpdate
          split
          · exact (wnd_sendSegment ..).trans hwnd
          · exact hwnd
        · intro e he
          rcases List.mem_cons.mp he with rfl | he
          · rfl
          · unfold windowUpdate at he
            split at he
            · exact silent_sendAck _ _ e he
            · simp at he
    · exact .of_silent h (.refl c) rfl (by simp)
    · have hcore := sameCore_sendSegment io.mac tcpRst [] c.sndNxt c
      have hsame : SameSend ((sendSegment io.mac tcpRst [] c.sndNxt c).bind fun c =>
          ⟨{ c with state := .closed }, [.hostFailed], false⟩).conn c :=
        ⟨hcore.sndUna, hcore.sndNxt, hcore.sbHead, hcore.sbTail, hcore.finSeq, hcore.sndBuf⟩
      refine .of_silent (h.gone hsame (.inl rfl)) hsame (wnd_sendSegment ..) ?_
      intro e he
      rcases List.mem_append.mp he with he | he
      · exact silent_sendSegment _ rfl rfl _ _ e he
      · rw [List.mem_singleton.mp he]
        rfl

theorem puts_shutHost (mac : Bool) (h : c.Sane) : Puts mac c True (shutHost c) := by
  unfold shutHost
  split
  · exact .of_silent (h.congr ⟨rfl, rfl, rfl, rfl, rfl, rfl⟩ rfl) ⟨rfl, rfl, rfl, rfl, rfl, rfl⟩ rfl
      (by simp [Effect.silent])
  · exact .of_silent h (.refl c) rfl (by simp)

theorem puts_closeHost (mac : Bool) (h : c.Sane) : Puts mac c True (closeHost c) := by
  unfold closeHost
  split
  · refine .of_silent (h.gone ⟨rfl, rfl, rfl, rfl, rfl, rfl⟩ (.inr rfl))
      ⟨rfl, rfl, rfl, rfl, rfl, rfl⟩ rfl ?_
    intro e he
    dsimp only at he
    split at he
    · rw [List.mem_singleton.mp he]
      rfl
    · rcases List.mem_cons.mp he with rfl | he
      · rfl
      · rw [List.mem_singleton.mp he]
        rfl
  · exact .of_silent h (.refl c) rfl (by simp)

theorem puts_readHost (h : c.Sane) : Puts io.mac c True (readHost io c) := by
  have hsane : (readHost io c).conn.Sane ∧ (readHost io c).conn.inFlight = c.inFlight := by
    have hok := fun hs => (h.sending hs).1.readHost io
    obtain ⟨b, hr⟩ | ⟨bs, hsends, -, hr⟩ := readHost_spec io c
    · rw [hr]
      exact ⟨h.congr ⟨rfl, rfl, rfl, rfl, rfl, rfl⟩ rfl, rfl⟩
    · rw [hr] at hok ⊢
      refine ⟨⟨fun _ => ⟨hok hsends, (h.sending hsends).2⟩, fun hs => ?_, h.ended⟩, rfl⟩
      have hsyn : c.state = .synSent := hs
      simp [Conn.sends, hsyn] at hsends
  obtain ⟨b, hr⟩ | ⟨bs, -, -, hr⟩ := readHost_spec io c
  all_goals
    rw [hr] at hsane ⊢
    exact {
      sane := hsane.1
      una := rfl
      wnd := rfl
      grows := Nat.le_of_eq (congrArg BitVec.toNat hsane.2.symm)
      off := fun _ => by simp [Effect.silent]
      next := fun _ => rfl
      fits := fun _ => by simp [Along, Fits]
      reached := fun _ _ p top htop => by
        show top ≤ p + _
        rw [hsane.2]
        exact htop }

/-- One segment with `n` numbers put at `q`. -/
theorem puts_segment {mac : Bool} {r : Res} {c₀ : Conn} {flags : BitVec 8} {bs : List UInt8}
    {q : W32} {n : Nat} {es : List Effect} {D : Prop} (hsane : r.conn.Sane)
    (huna : r.conn.sndUna = c.sndUna) (hwnd : r.conn.sndWnd = c.sndWnd)
    (heff : r.effects = (sendSegment mac flags bs q c₀).effects ++ es)
    (hes : ∀ e ∈ es, e.silent = true)
    (hn : bs.length + (if flags &&& tcpSyn = 0#8 then 0 else 1) +
      (if flags &&& tcpFin = 0#8 then 0 else 1) = n) (hpos : n ≠ 0)
    (hnxt : r.conn.sndNxt = if q = c.sndNxt then c.sndNxt + BitVec.ofNat 32 n else c.sndNxt)
    (hlt : q = c.sndNxt → c.inFlight.toNat + n < 2 ^ 32)
    (hD : D ↔ if q = c.sndNxt then c.inFlight.toNat + n ≤ c.sndWnd
      else (q - c.sndUna).toNat + n ≤ c.inFlight.toNat) : Puts mac c D r := by
  have hfly : r.conn.inFlight.toNat =
      if q = c.sndNxt then c.inFlight.toNat + n else c.inFlight.toNat := by
    simp only [Conn.inFlight] at hlt ⊢
    rw [huna, hnxt]
    split
    · next hq =>
        have hroom := hlt hq
        bv_omega
    · rfl
  have hone : mac = true → r.effects = .emit ⟨q, c₀.rcvNxt, flags, c₀.window, bs⟩ :: es := by
    rintro rfl
    rw [heff, effects_sendSegment]
    rfl
  have hspan : OutSegment.span ⟨q, c₀.rcvNxt, flags, c₀.window, bs⟩ = n := hn
  exact {
    sane := hsane
    una := huna
    wnd := hwnd
    grows := by
      rw [hfly]
      split
      · exact Nat.le_add_right _ _
      · exact Nat.le_refl _
    off := by
      rintro rfl e he
      rw [heff, effects_sendSegment] at he
      exact hes e he
    next := fun hmac => by
      rw [hone hmac, run_cons, run_afterSent_of_silent hes, hnxt]
      unfold afterSent
      dsimp only
      rw [hspan]
    fits := fun hmac => by
      have hfits : Fits c.sndUna c.sndWnd c.sndNxt
          (.emit ⟨q, c₀.rcvNxt, flags, c₀.window, bs⟩) ↔ D := by
        rw [hD]
        unfold Fits
        dsimp only
        rw [hspan]
        exact ⟨fun h => h hpos, fun h _ => h⟩
      rw [hone hmac]
      exact ⟨fun h => hfits.mp h.1, fun h => ⟨hfits.mpr h, along_fits_of_silent hes _ _ _⟩⟩
    reached := fun hmac h p top htop => by
      rw [hone hmac, run_cons, run_reach_of_silent hes, hfly]
      unfold reach
      dsimp only
      rw [hspan, if_neg hpos]
      rw [hD] at h
      by_cases hq : q = c.sndNxt
      · rw [if_pos hq, hq]
        show max top (p + c.inFlight.toNat + n) ≤ _
        omega
      · rw [if_neg hq] at h ⊢
        omega }

theorem wnd_sendOne (c : Conn) : (sendOne io c).conn.sndWnd = c.sndWnd := by
  unfold sendOne
  dsimp only
  rw [Res.conn_bind]
  split
  · exact wnd_sendSegment ..
  · exact wnd_sendSegment ..

theorem puts_sendOne (h : c.Sane) (hsends : c.sends = true) (hunsent : c.unsent ≠ 0)
    (hroom : c.inFlight.toNat < c.sndWnd) : Puts io.mac c True (sendOne io c) := by
  obtain ⟨hok, hfin⟩ := h.sending hsends
  obtain ⟨-, hst, -, hsame, -, heff⟩ := sendOne_spec io c
  have hpos : c.nextLen ≠ 0 := by
    have hedge : c.nextIndex.toNat % sndCap < sndCap := Nat.mod_lt _ (by decide)
    unfold Conn.nextLen mss
    omega
  have hlen : c.inFlight.toNat + c.nextLen ≤ c.sndWnd := by
    unfold Conn.nextLen
    omega
  have hsane : (sendOne io c).conn.Sane := by
    refine ⟨fun _ => ⟨hok.sendOne io, hsame.finSeq.trans hfin⟩, fun hs => ?_, fun hne => ?_⟩
    · rw [hst] at hs
      simp [Conn.sends, hs] at hsends
    · exact absurd (hsame.finSeq.trans hfin) hne
  have hlt : c.inFlight.toNat + c.nextLen < 2 ^ 32 := by
    have hle := nextLen_le_unsent c
    have hall := unsent_eq hok
    have hfly := hok.inFlight_le
    have hused := hok.sbUsed_le
    unfold sndCap at hused
    omega
  refine puts_segment hsane hsame.sndUna (wnd_sendOne io c) (heff.trans (List.append_nil _).symm)
    (by simp) (by rw [length_read]; rfl) hpos ?_ (fun _ => hlt) ?_
  · rw [if_pos rfl]
    exact hsame.sndNxt
  · rw [if_pos rfl]
    exact iff_of_true trivial hlen

theorem puts_sendLoop (quota : Nat) {c : Conn} (h : c.Sane) (hsends : c.sends = true) :
    Puts io.mac c True (sendLoop io quota c) := by
  induction quota generalizing c with
  | zero => exact .of_silent h (.refl c) rfl (by simp [sendLoop])
  | succ quota ih =>
      unfold sendLoop
      split
      · exact .of_silent h (.refl c) rfl (by simp)
      · next hgo =>
          have hone := puts_sendOne io h hsends (fun h0 => hgo (.inl h0)) (by omega)
          have hsends' : (sendOne io c).conn.sends = true := by
            rw [Conn.sends, (sendOne_spec io c).2.1]
            exact hsends
          exact (hone.bind (ih hone.sane hsends')).iff and_self_iff

theorem puts_sendData (h : c.Sane) : Puts io.mac c True (sendData io c) := by
  unfold sendData
  split
  · next hsends => exact puts_sendLoop io _ h hsends
  · exact .of_silent h (.refl c) rfl (by simp)

theorem finDue_iff : c.finDue = true ↔
    c.hostEof = true ∧ c.finSeq = 0#32 ∧ c.unsent = 0 ∧ c.sends = true := by
  simp [Conn.finDue, and_assoc]

/-- The FIN fits when the window has room for it. -/
theorem puts_sendFin (h : c.Sane) : Puts io.mac c
    (c.finDue = true → c.inFlight.toNat < c.sndWnd) (sendFin io c) := by
  by_cases hdue : c.finDue = true
  · have hgo := finDue_iff.mp hdue
    have hwnd : (sendFin io c).conn.sndWnd = c.sndWnd := by
      unfold sendFin
      rw [if_pos hgo]
      exact wnd_sendSegment ..
    obtain hr | ⟨-, -, -, hsends, -, -, hst, hsame, heff⟩ := sendFin_spec io c
    · have hsent : .finSent ∈ (sendFin io c).effects := by
        unfold sendFin
        rw [if_pos hgo]
        exact List.mem_append_right _ (List.mem_singleton_self _)
      rw [hr] at hsent
      cases hsent
    · obtain ⟨hok, -⟩ := h.sending hsends
      have hpast : (sendFin io c).conn.sends = false ∧
          (sendFin io c).conn.state ≠ .synSent := by
        unfold Conn.sends at hsends ⊢
        rw [hst]
        cases hc : c.state <;> simp [hc] at hsends <;> exact ⟨rfl, by simp [finSentState]⟩
      have hlt : c.inFlight.toNat + 1 < 2 ^ 32 := by
        have hfly := hok.inFlight_le
        have hused := hok.sbUsed_le
        unfold sndCap at hused
        omega
      refine puts_segment ?_ hsame.sndUna hwnd heff (by simp [Effect.silent]) rfl (by decide) ?_
        (fun _ => hlt) ?_
      · refine ⟨fun hs => ?_, fun hs => absurd hs hpast.2, fun _ => ?_⟩
        · rw [hpast.1] at hs
          cases hs
        · rw [hsame.sndNxt, hsame.finSeq]
      · rw [if_pos rfl]
        exact hsame.sndNxt
      · rw [if_pos rfl]
        exact ⟨fun hd => hd hdue, fun hle _ => hle⟩
  · have hr : sendFin io c = .pure c := by
      unfold sendFin
      exact if_neg fun hgo => hdue (finDue_iff.mpr hgo)
    have hput : Puts io.mac c True (.pure c) := .of_silent h (.refl c) rfl (by simp)
    rw [hr]
    exact hput.iff (iff_of_true trivial fun hd => absurd hd hdue)

theorem resendsData_iff {t : Timespec} : c.resendsData t = true ↔
    c.sndNxt ≠ c.sndUna ∧ ¬ nowMs t < c.rtoAt ∧ ¬ maxRetries < c.retries + 1 ∧
      c.state ≠ .synSent ∧ c.sbUsed ≠ 0 := by
  simp [Conn.resendsData, and_assoc]

/-- The length of a resent segment is in flight. -/
theorem resendLen_le_iff : c.resendLen ≤ c.inFlight.toNat ↔ c.Covered := by
  unfold Conn.resendLen Conn.Covered
  omega

theorem wnd_resend (c : Conn) : (resend io c).conn.sndWnd = c.sndWnd := by
  unfold resend
  split
  · exact wnd_sendSegment ..
  · split
    · exact wnd_sendSegment ..
    · split
      · rfl
      · exact wnd_sendSegment ..

/-- The SYN and the FIN were sent; of the data, what is in flight. -/
theorem puts_resend (h : c.Sane) (hfly : c.sndNxt ≠ c.sndUna) : Puts io.mac c
    (c.state ≠ .synSent → c.sbUsed ≠ 0 → c.Covered) (resend io c) := by
  have hcore := sameCore_resend io c
  have hsane := h.congr hcore.toSameSend hcore.state
  have hwnd := wnd_resend io c
  by_cases hsyn : c.state = .synSent
  · -- the SYN is all that is in flight
    obtain ⟨hone, -, -⟩ := h.opening hsyn
    have heff : (resend io c).effects =
        (sendSegment io.mac tcpSyn [] c.sndUna c).effects ++ [] := by
      unfold resend
      rw [if_pos hsyn]
      rfl
    refine puts_segment (n := 1) hsane hcore.sndUna hwnd heff (by simp) rfl (by decide) ?_
      (fun hq => absurd hq.symm hfly) ?_
    · rw [if_neg hfly.symm]
      exact hcore.sndNxt
    · rw [if_neg hfly.symm, hone]
      exact iff_of_true (fun hne => absurd hsyn hne) (by simp)
  · by_cases hused : c.sbUsed ≠ 0
    · have heff : (resend io c).effects = (sendSegment io.mac (tcpAck ||| tcpPsh)
          (read c.sndBuf (c.sbHead.toNat % sndCap) c.resendLen) c.sndUna c).effects ++ [] := by
        unfold resend
        rw [if_neg hsyn, if_pos hused]
        rfl
      have hpos : c.resendLen ≠ 0 := by
        have hedge : c.sbHead.toNat % sndCap < sndCap := Nat.mod_lt _ (by decide)
        unfold Conn.resendLen mss
        omega
      refine puts_segment (n := c.resendLen) hsane hcore.sndUna hwnd heff (by simp)
        (by rw [length_read]; rfl) hpos ?_ (fun hq => absurd hq.symm hfly) ?_
      · rw [if_neg hfly.symm]
        exact hcore.sndNxt
      · rw [if_neg hfly.symm, BitVec.sub_self, ← resendLen_le_iff]
        exact ⟨fun hD => by simpa using hD hsyn hused, fun hle _ _ => by simpa using hle⟩
    · have hD : c.state ≠ .synSent → c.sbUsed ≠ 0 → c.Covered := fun _ hne => absurd hne hused
      by_cases hfin : c.finSeq = 0#32
      · have hr : resend io c = .pure c := by
          unfold resend
          rw [if_neg hsyn, if_neg hused, if_pos hfin]
        have hput : Puts io.mac c True (.pure c) := .of_silent h (.refl c) rfl (by simp)
        rw [hr]
        exact hput.iff (iff_of_true trivial hD)
      · -- the FIN is the last of what was sent
        have heff : (resend io c).effects =
            (sendSegment io.mac (tcpFin ||| tcpAck) [] c.finSeq c).effects ++ [] := by
          unfold resend
          rw [if_neg hsyn, if_neg hused, if_neg hfin]
          rfl
        have hlast := h.ended hfin
        have hne : c.finSeq ≠ c.sndNxt := by
          rw [hlast]
          bv_omega
        refine puts_segment (n := 1) hsane hcore.sndUna hwnd heff (by simp) rfl (by decide) ?_
          (fun hq => absurd hq hne) ?_
        · rw [if_neg hne]
          exact hcore.sndNxt
        · rw [if_neg hne]
          refine iff_of_true hD ?_
          unfold Conn.inFlight
          rw [hlast] at hfly ⊢
          bv_omega

/-- The timer. -/
theorem puts_retransmit (h : c.Sane) : Puts io.mac c
    (c.resendsData io.clkCheck = true → c.Covered) (retransmit io c) := by
  unfold retransmit
  split
  · next hidle =>
      have hput : Puts io.mac c True (.pure c) := .of_silent h (.refl c) rfl (by simp)
      refine hput.iff (iff_of_true trivial fun hdue => ?_)
      obtain ⟨hfly, hlate, -⟩ := resendsData_iff.mp hdue
      rcases hidle with hnone | hearly
      · exact absurd hnone hfly
      · exact absurd hearly hlate
  · next hgo =>
      dsimp only
      split
      · next hmax =>
          have hsame : SameSend { c with retries := c.retries + 1, state := .closed } c :=
            ⟨rfl, rfl, rfl, rfl, rfl, rfl⟩
          have hput : Puts io.mac c True
              ⟨{ c with retries := c.retries + 1, state := .closed }, [.gaveUp], false⟩ :=
            .of_silent (h.gone hsame (.inl rfl)) hsame rfl (by simp [Effect.silent])
          refine hput.iff (iff_of_true trivial fun hdue => ?_)
          exact absurd hmax (resendsData_iff.mp hdue).2.2.1
      · next hmax =>
          let c' : Conn := { c with
            retries := c.retries + 1, rto := min (c.rto + c.rto) rtoMaxMs }
          have hput : Puts io.mac c' _ (resend io c') :=
            puts_resend io (c := c') (h.congr ⟨rfl, rfl, rfl, rfl, rfl, rfl⟩ rfl)
              (fun heq => hgo (.inl heq))
          have hD : (c'.state ≠ .synSent → c'.sbUsed ≠ 0 → c'.Covered) ↔
              (c.resendsData io.clkCheck = true → c.Covered) := by
            rw [resendsData_iff]
            exact ⟨fun hD hdue => hD hdue.2.2.2.1 hdue.2.2.2.2, fun hD hsyn hused =>
              hD ⟨fun heq => hgo (.inl heq), fun hlt => hgo (.inr hlt), hmax, hsyn, hused⟩⟩
          have hput' := hput.iff hD
          exact ⟨hput'.sane, hput'.una, hput'.wnd, hput'.grows, hput'.off, hput'.next, hput'.fits,
            hput'.reached⟩

theorem puts_middleParts (h : c.Sane) : Puts io.mac c (c.Roomy io) (middleParts io c) := by
  have hshut := puts_shutHost io.mac h
  have hread := hshut.bind (puts_readHost io hshut.sane)
  have hdata := hread.bind (puts_sendData io hread.sane)
  have hfin := hdata.bind (puts_sendFin io hdata.sane)
  have htimer := hfin.bind (puts_retransmit io hfin.sane)
  refine htimer.iff ?_
  exact ⟨fun hD => ⟨hD.1.2, hD.2⟩, fun hD => ⟨⟨⟨⟨trivial, trivial⟩, trivial⟩, hD.1⟩, hD.2⟩⟩

/-- A whole turn. -/
theorem puts_connStep (h : c.Sane) : Puts io.mac c
    (c.state ≠ .closed → (writeHost io c).conn.state ≠ .closed →
      (writeHost io c).conn.Roomy io) (connStep io c) := by
  unfold connStep
  split
  · next hclosed =>
      refine (puts_closeHost io.mac h).iff (iff_of_true trivial fun hne => absurd hclosed hne)
  · next hopen =>
      have hwrite := puts_writeHost io h
      dsimp only
      split
      · next hfailed =>
          refine (hwrite.bind (puts_closeHost io.mac hwrite.sane)).iff ?_
          exact iff_of_true ⟨trivial, trivial⟩ fun _ hne => absurd hfailed hne
      · next hgo =>
          have hmid := hwrite.bind (puts_middleParts io hwrite.sane)
          refine (hmid.bind (puts_closeHost io.mac hmid.sane)).iff ?_
          exact ⟨fun hD _ _ => hD.1.2, fun hD => ⟨⟨trivial, hD hopen hgo⟩, trivial⟩⟩

end routines

/-! ## a segment from the card -/

section input

variable {c : Conn} (mac : Bool) (t : Timespec) (s : Segment)

theorem silent_applyPayload (c : Conn) :
    ∀ e ∈ (applyPayload mac s c).effects, e.silent = true := by
  have htaken : ∀ e ∈ ((storePayload s c).bind (takeFin s)).effects, e.silent = true := by
    intro e he
    rcases List.mem_append.mp he with he | he
    · rw [effects_storePayload] at he
      split at he
      · cases he
      · rw [List.mem_singleton.mp he]
        rfl
    · unfold takeFin at he
      split at he
      · rw [List.mem_singleton.mp he]
        rfl
      · cases he
  unfold applyPayload
  split
  · dsimp only
    split
    · exact htaken
    · intro e he
      rcases List.mem_append.mp he with he | he
      · exact htaken e he
      · exact silent_sendAck mac _ e he
  · exact silent_sendAck mac c

/-- The state after a segment: what sends was sending. -/
theorem sends_applyPayload (c : Conn) :
    ((applyPayload mac s c).conn.sends = true → c.sends = true) ∧
      ((applyPayload mac s c).conn.state = .synSent → c.state = .synSent) := by
  unfold Conn.sends
  rw [state_applyPayload]
  split
  · cases c.state <;> simp [finTakenState]
  · exact ⟨id, id⟩

theorem sends_applyAck (c : Conn) :
    ((applyAck s t c).sends = true → c.sends = true) ∧
      ((applyAck s t c).state = .synSent → c.state = .synSent) := by
  unfold Conn.sends
  rw [state_applyAck]
  split
  · cases c.state <;> simp [finAckedState]
  · exact ⟨id, id⟩

theorem Conn.Sane.applyAck (h : c.Sane) (hsyn : c.state ≠ .synSent) : (applyAck s t c).Sane := by
  have hfin : (Tcp.applyAck s t c).finSeq = c.finSeq ∧
      (Tcp.applyAck s t c).sndNxt = c.sndNxt := by
    cases htake : c.takesAck s with
    | false =>
        have hcore := sameCore_applyAck t s c htake
        exact ⟨hcore.finSeq, hcore.sndNxt⟩
    | true =>
        rw [applyAck_of_takesAck t s c htake]
        exact ⟨rfl, rfl⟩
  refine ⟨fun hs => ?_, fun hs => ?_, fun hne => ?_⟩
  · obtain ⟨hok, hzero⟩ := h.sending ((sends_applyAck t s c).1 hs)
    exact ⟨hok.applyAck hzero t s, hfin.1.trans hzero⟩
  · exact absurd ((sends_applyAck t s c).2 hs) hsyn
  · rw [hfin.1] at hne
    rw [hfin.1, hfin.2]
    exact h.ended hne

theorem Conn.Sane.applyPayload (h : c.Sane) (hsyn : c.state ≠ .synSent) :
    (applyPayload mac s c).conn.Sane := by
  have hsame := (sameSend_applyPayload mac s c).1
  refine ⟨fun hs => ?_, fun hs => ?_, fun hne => ?_⟩
  · obtain ⟨hok, hzero⟩ := h.sending ((sends_applyPayload mac s c).1 hs)
    exact ⟨hok.congr hsame, hsame.finSeq.trans hzero⟩
  · exact absurd ((sends_applyPayload mac s c).2 hs) hsyn
  · rw [hsame.finSeq] at hne
    rw [hsame.finSeq, hsame.sndNxt]
    exact h.ended hne

/-- What a segment does to the numbers in flight: what it acknowledges is taken
off their front. -/
structure Advances (c : Conn) (r : Res) : Prop where
  sane : r.conn.Sane
  silent : ∀ e ∈ r.effects, e.silent = true
  front : (r.conn.sndUna - c.sndUna).toNat + r.conn.inFlight.toNat = c.inFlight.toNat

theorem Advances.of_same {r : Res} (hsane : r.conn.Sane)
    (hsilent : ∀ e ∈ r.effects, e.silent = true) (hsame : SameSend r.conn c) : Advances c r where
  sane := hsane
  silent := hsilent
  front := by
    rw [hsame.sndUna, hsame.inFlight]
    simp

theorem advances_tcpIn (h : c.Sane) : Advances c (tcpIn mac t s c) := by
  unfold tcpIn
  split
  · have hsame : SameSend { c with state := .closed, cardEof := true } c :=
      ⟨rfl, rfl, rfl, rfl, rfl, rfl⟩
    exact .of_same (h.gone hsame (.inl rfl)) (by simp [Effect.silent]) hsame
  · split
    · next hsyn =>
        obtain ⟨hone, hused, hfin⟩ := h.opening hsyn
        unfold applySynAck
        split
        · have hcore := sameCore_sendAck mac { c with
            rcvNxt := s.seq + 1#32, sndUna := c.sndNxt, sndWnd := s.wnd
            state := .established, retries := 0, rto := rtoMs }
          have hzero : (c.sndNxt - c.sndNxt).toNat = 0 := by simp
          refine ⟨Conn.Sane.congr ?_ hcore.toSameSend hcore.state, silent_sendAck _ _, ?_⟩
          · refine ⟨fun _ => ⟨⟨?_, ?_⟩, hfin⟩, (by simp), fun hne => absurd hfin hne⟩
            · show (c.sndNxt - c.sndNxt).toNat ≤ c.sbUsed
              omega
            · show c.sbUsed ≤ sndCap
              omega
          · rw [hcore.sndUna, hcore.inFlight]
            show (c.sndNxt - c.sndUna).toNat + (c.sndNxt - c.sndNxt).toNat = c.inFlight.toNat
            rw [hzero]
            rfl
        · exact .of_same h (by simp) (.refl c)
    · next hsyn =>
        have hack := h.applyAck t s hsyn
        have hpay := hack.applyPayload mac s fun hs => hsyn ((sends_applyAck t s c).2 hs)
        have hsame := (sameSend_applyPayload mac s (applyAck s t c)).1
        refine ⟨hpay, silent_applyPayload mac s _, ?_⟩
        rw [hsame.sndUna, hsame.inFlight]
        cases htake : c.takesAck s with
        | false =>
            have hcore := sameCore_applyAck t s c htake
            rw [hcore.sndUna, hcore.inFlight]
            simp
        | true =>
            rw [applyAck_of_takesAck t s c htake]
            have hle : c.acked s ≤ c.inFlight := by
              simp only [Conn.takesAck, Bool.and_eq_true, decide_eq_true_eq] at htake
              exact htake.1.2
            show (s.ackNo - c.sndUna).toNat + (c.sndNxt - s.ackNo).toNat = c.inFlight.toNat
            simp only [Conn.acked, Conn.inFlight] at hle ⊢
            bv_omega

end input

/-! ## whole runs -/

/-- The invariant: the ghost positions are those of the words, and nothing past
`SND_NXT` is on the wire. -/
structure Wire.Ok (w : Wire) : Prop where
  sane : w.conn.Sane
  word : w.conn.sndUna = BitVec.ofNat 32 w.una
  within : w.top ≤ w.nxt

section runs

variable {w : Wire}

/-- The position of `SND_UNA` follows the word. -/
theorem Wire.Ok.word_step (h : w.Ok) (e : Event) :
    (w.step e).conn.sndUna = BitVec.ofNat 32 (w.step e).una := by
  show (e.apply w.conn).conn.sndUna =
    BitVec.ofNat 32 (w.una + ((e.apply w.conn).conn.sndUna - w.conn.sndUna).toNat)
  rw [h.word]
  exact Modular.eq_ofNat_add_toNat_sub 32 w.una _

/-- What the peer can acknowledge is in flight. -/
theorem Wire.Ok.acksTaken (h : w.Ok) : w.AcksTaken := by
  rintro - s mac t a ⟨hrst, hack, hsyn, hno⟩ hnew hle
  have hnxt : a ≤ w.una + w.conn.inFlight.toNat := Nat.le_trans hle h.within
  have hlt : w.conn.inFlight.toNat < 2 ^ 32 := w.conn.inFlight.isLt
  have hacked : (w.conn.acked s).toNat = a - w.una := by
    unfold Conn.acked
    rw [hno, h.word]
    exact Modular.toNat_ofNat_sub 32 (Nat.le_of_lt hnew) (by omega)
  unfold tcpIn
  rw [if_neg (by simp [hrst])]
  split
  · next hopening =>
      have hone := (h.sane.opening hopening).1
      have ha : w.conn.sndNxt = s.ackNo := by
        rw [hone] at hnxt
        have hdiff : w.conn.acked s = w.conn.inFlight := by
          rw [hone]
          apply BitVec.eq_of_toNat_eq
          rw [hacked]
          have h1 : (1#32).toNat = 1 := rfl
          omega
        unfold Conn.acked Conn.inFlight at hdiff
        bv_omega
      unfold applySynAck
      rw [if_pos (by simp [hsyn hopening, hack, ha]), (sameCore_sendAck mac _).sndUna]
      exact ha
  · have htake : w.conn.takesAck s = true := by
      unfold Conn.takesAck
      have hin : w.conn.acked s ≤ w.conn.inFlight := by
        rw [BitVec.le_def, hacked]
        omega
      have hne : w.conn.acked s ≠ 0#32 := by
        intro hzero
        rw [hzero] at hacked
        have h0 : (0#32).toNat = 0 := rfl
        omega
      simp [hack, hin, hne]
    rw [(sameSend_applyPayload mac s _).1.sndUna, applyAck_of_takesAck t s _ htake]

/-- An event whose effects reach no further than `SND_NXT` is right when they
fit. -/
theorem Wire.Ok.right (h : w.Ok) {e : Event} (hsane : (e.apply w.conn).conn.Sane)
    (hfits : Along afterSent (Fits w.conn.sndUna w.conn.sndWnd) w.conn.sndNxt
      (e.apply w.conn).effects) (hwithin : (w.step e).top ≤ (w.step e).nxt) :
    w.Right e ∧ (w.step e).Ok := by
  have hok : (w.step e).Ok := ⟨hsane, h.word_step e, hwithin⟩
  exact ⟨⟨hfits, hwithin, hok.acksTaken⟩, hok⟩

/-- A free slot. -/
theorem Wire.Ok.right_idle (h : w.Ok) {e : Event} (he : e.apply w.conn = .pure w.conn) :
    w.Right e ∧ (w.step e).Ok := by
  refine h.right (by rw [he]; exact h.sane) (by rw [he]; trivial) ?_
  unfold Wire.step Wire.nxt
  rw [he]
  simpa [Wire.nxt] using h.within

theorem Wire.Ok.right_segment (h : w.Ok) (s : Segment) (mac : Bool) (t : Timespec) :
    w.Right (.segment s mac t) ∧ (w.step (.segment s mac t)).Ok := by
  by_cases hfree : w.conn.state = .free
  · exact h.right_idle (if_pos hfree)
  · have he : Event.apply w.conn (.segment s mac t) = tcpIn mac t s w.conn := if_neg hfree
    have hadv := advances_tcpIn mac t s h.sane
    refine h.right (by rw [he]; exact hadv.sane) ?_ ?_
    · rw [he]
      exact along_fits_of_silent hadv.silent _ _ _
    · unfold Wire.step Wire.nxt
      rw [he]
      dsimp only
      rw [run_reach_of_silent hadv.silent, Nat.add_assoc, hadv.front]
      exact h.within

theorem Wire.Ok.right_turn (h : w.Ok) (io : StepIO) :
    (w.Right (.turn io) ↔ w.InWindow (.turn io)) ∧
      (w.Right (.turn io) → (w.step (.turn io)).Ok) := by
  by_cases hfree : w.conn.state = .free
  · have hidle := h.right_idle (e := .turn io) (if_pos hfree)
    exact ⟨iff_of_true hidle.1 fun hne => absurd hfree hne, fun _ => hidle.2⟩
  · have he : Event.apply w.conn (.turn io) = connStep io w.conn := if_neg hfree
    have hput := puts_connStep io h.sane
    have hsane : (Event.apply w.conn (.turn io)).conn.Sane := by rw [he]; exact hput.sane
    have hnxt : (w.step (.turn io)).nxt = w.una + (connStep io w.conn).conn.inFlight.toNat := by
      unfold Wire.step Wire.nxt
      rw [he]
      dsimp only
      rw [hput.una]
      simp
    refine ⟨⟨fun hr => ?_, fun hD => ?_⟩, fun hr => ⟨hsane, h.word_step _, hr.within⟩⟩
    · intro _ hopen hgo hmac
      have hfits := hr.fits
      rw [he] at hfits
      exact (hput.fits hmac).mp hfits hopen hgo
    · refine (h.right hsane ?_ ?_).1
      · rw [he]
        cases hmac : io.mac with
        | false => exact along_fits_of_silent (hput.off hmac) _ _ _
        | true => exact (hput.fits hmac).mpr fun hopen hgo => hD hfree hopen hgo hmac
      · rw [hnxt]
        show run _ _ (Event.apply w.conn (.turn io)).effects ≤ _
        rw [he]
        cases hmac : io.mac with
        | false =>
            rw [run_reach_of_silent (hput.off hmac)]
            exact Nat.le_trans h.within (Nat.add_le_add_left hput.grows _)
        | true =>
            exact hput.reached hmac (fun hopen hgo => hD hfree hopen hgo hmac) _ _ h.within

end runs

theorem Wire.ok_connected (old : Conn) (fd : Int) (lport rport us : Nat) (mac : Bool)
    (t : Timespec) : (Wire.connected old fd lport rport us mac t).Ok := by
  have hone : issOf us + 1#32 - issOf us = 1#32 := by bv_omega
  have hfly : (tcpConnect old fd lport rport us mac t).conn.inFlight = 1#32 := by
    rw [conn_tcpConnect]
    exact hone
  have hword : (tcpConnect old fd lport rport us mac t).conn.sndUna = issOf us := by
    rw [conn_tcpConnect]
    rfl
  have hsane : (tcpConnect old fd lport rport us mac t).conn.Sane := by
    have hused : (0#64 - 0#64).toNat = 0 := by simp
    refine ⟨fun hs => ?_, fun _ => ⟨hfly, ?_, ?_⟩, fun hne => absurd ?_ hne⟩
    · rw [conn_tcpConnect] at hs
      cases hs
    · rw [conn_tcpConnect]
      exact hused
    · rw [conn_tcpConnect]
      rfl
    · rw [conn_tcpConnect]
      rfl
  refine ⟨hsane, ?_, ?_⟩
  · show (tcpConnect old fd lport rport us mac t).conn.sndUna = BitVec.ofNat 32 (issOf us).toNat
    rw [hword, BitVec.ofNat_toNat, BitVec.setWidth_eq]
  · show run (reach (issOf us).toNat (issOf us)) (issOf us).toNat
      (tcpConnect old fd lport rport us mac t).effects ≤
      (issOf us).toNat + (tcpConnect old fd lport rport us mac t).conn.inFlight.toNat
    have hsyn : OutSegment.span ⟨issOf us, 0#32, tcpSyn,
        (openConn old fd lport rport (issOf us)).window, []⟩ = 1 := by
      simp [OutSegment.span, tcpSyn, tcpFin]
    have h1 : (1#32).toNat = 1 := rfl
    have heff : (tcpConnect old fd lport rport us mac t).effects =
        if mac then [.emit ⟨issOf us, 0#32, tcpSyn,
          (openConn old fd lport rport (issOf us)).window, []⟩] else [] := by
      unfold tcpConnect sendSyn
      rw [Res.effects_bind, Res.effects_pure, List.append_nil, effects_sendSegment]
      rfl
    rw [hfly, heff, h1]
    cases mac with
    | false => exact Nat.le_add_right _ _
    | true =>
        rw [if_pos rfl, run_cons, run_nil]
        unfold reach
        dsimp only
        rw [hsyn, BitVec.sub_self, if_neg (by decide)]
        have h0 : (0#32).toNat = 0 := rfl
        omega

/-- **Transmissions stay inside the sent window**, and every acknowledgement the
peer can send is taken, exactly as long as no FIN goes out into a full window
and the timer resends no more than is in flight. -/
theorem wire_right_iff (old : Conn) (fd : Int) (lport rport us : Nat) (mac : Bool) (t : Timespec)
    (es : List Event) :
    Along Wire.step Wire.Right (.connected old fd lport rport us mac t) es ↔
      Along Wire.step Wire.InWindow (.connected old fd lport rport us mac t) es := by
  refine along_iff (fun w e (h : w.Ok) => ?_) es (Wire.ok_connected ..)
  cases e with
  | segment s mac t =>
      obtain ⟨hright, hok⟩ := h.right_segment s mac t
      exact ⟨iff_of_true hright trivial, fun _ => hok⟩
  | turn io => exact h.right_turn io

/-! ### a small window -/

/-- The SYN's answer, with a window of one byte. -/
def smallWindow : Segment :=
  { cardSegment 0#32 (issOf 0 + 1#32) (tcpSyn ||| tcpAck) [] nothing_fits with wnd := 1 }

/-- The host has three bytes, of which one goes out; the timer then resends all
three. -/
def smallWindowRun : List Event :=
  [.segment smallWindow true ⟨0, 0⟩, .turn { quietTurn with read := .data [1, 2, 3] },
    .turn { quietTurn with clkCheck := ⟨1, 0⟩ }]

/-- Past what was sent goes out, and its acknowledgement is not taken. -/
theorem resent_ahead :
    ¬ Along Wire.step Wire.Right (.connected emptySlot 7 49152 22 0 true ⟨0, 0⟩)
      smallWindowRun := by
  rintro ⟨-, -, h, -⟩
  exact absurd h.within (by decide)

end Phi.Tcp
