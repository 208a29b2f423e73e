import Phi.Lib.Run
import Phi.Tcp.Frame

/-!
# Phi.Tcp.Table

The forwarder's table of connections.

A connection is told by its two ports.  `tcp_connect` takes the first free slot
and the next local port of a cycle of 16384; `tcp_in` gives a segment to the
first live connection with its ports; a slot is freed when its connection ends,
however long that takes.  Nothing looks at the ports in use when one is handed
out, so two connections to one card port are told apart as long as none outlives
a whole cycle.
-/

namespace Phi.Tcp

/-! ## the table -/

def nconn : Nat := 32
def firstPort : Nat := 49152
def lastPort : Nat := 65535

/-- How many local ports there are. -/
def portCycle : Nat := lastPort + 1 - firstPort

structure Table where
  conns : List Conn
  nextPort : Nat

/-- `tcp_init`. -/
def Table.start : Table := ⟨List.replicate nconn emptySlot, firstPort⟩

/-- The slot holds a connection. -/
def Conn.live (c : Conn) : Bool := c.state ≠ .free

/-- The local port after `port`. -/
def portAfter (port : Nat) : Nat := if port + 1 ≤ lastPort then port + 1 else firstPort

/-- The connection has the segment's ports. -/
def Conn.takes (s : Segment) (c : Conn) : Bool :=
  c.live && c.lport = s.dstPort && c.rport = s.srcPort

namespace Table

/-- The slot `tcp_connect` takes. -/
def freeSlot (t : Table) : Option Nat := t.conns.findIdx? fun c => !c.live

/-- `tcp_connect` in the slot found. -/
def connect (i : Nat) (fd : Int) (rport us : Nat) (mac : Bool) (clk : Timespec) (t : Table) :
    Table where
  conns := t.conns.modify i fun old => (tcpConnect old fd t.nextPort rport us mac clk).conn
  nextPort := portAfter t.nextPort

/-- The slot `tcp_in` finds for a segment. -/
def lookup (s : Segment) (t : Table) : Option Nat := t.conns.findIdx? (Conn.takes s)

/-- `tcp_in`: `b` is the TCP header and what follows it. -/
def segment (mac : Bool) (clk : Timespec) (b : List UInt8) (t : Table) : Table :=
  match parseSegment b with
  | none => t
  | some s => match t.lookup s with
      | none => t
      | some i => { t with conns := t.conns.modify i fun c => (tcpIn mac clk s c).conn }

/-- The turn of one slot in `tcp_step`. -/
def turn (i : Nat) (io : StepIO) (t : Table) : Table :=
  { t with conns := t.conns.modify i fun c => if c.live then (connStep io c).conn else c }

end Table

/-! ## runs -/

/-- What happens to the table: the host connects, a segment comes from the card,
or a slot has its turn. -/
inductive TableEvent where
  | connect (fd : Int) (rport us : Nat) (mac : Bool) (clk : Timespec)
  | segment (mac : Bool) (clk : Timespec) (b : List UInt8)
  | turn (i : Nat) (io : StepIO)

/-- The table, how many connections it opened so far, and which of them each
slot took last. -/
structure Opened where
  table : Table
  count : Nat
  serial : Nat → Nat

namespace Opened

def start : Opened := ⟨.start, 0, fun _ => 0⟩

def step (s : Opened) : TableEvent → Opened
  | .connect fd rport us mac clk => match s.table.freeSlot with
      | none => s
      | some i =>
          ⟨s.table.connect i fd rport us mac clk, s.count + 1,
            fun j => if j = i then s.count else s.serial j⟩
  | .segment mac clk b => { s with table := s.table.segment mac clk b }
  | .turn i io => { s with table := s.table.turn i io }

end Opened

/-! ## connections told apart -/

/-- The slot holds this live connection. -/
def Table.Holds (t : Table) (i : Nat) (c : Conn) : Prop :=
  t.conns[i]? = some c ∧ c.live = true

/-- No two live connections have the same ports, and a segment is given to the
one that has its ports. -/
structure Table.Told (t : Table) : Prop where
  distinct : ∀ (i j : Nat) (a b : Conn), t.Holds i a → t.Holds j b →
    a.lport = b.lport → a.rport = b.rport → i = j
  found : ∀ (s : Segment) (i : Nat) (c : Conn), t.Holds i c →
    c.lport = s.dstPort → c.rport = s.srcPort → t.lookup s = some i

/-- No live connection to the card port was opened a whole number of cycles
before the one that is opened now. -/
def Opened.Fresh (s : Opened) : TableEvent → Prop
  | .connect _ rport _ _ _ => s.table.freeSlot ≠ none →
      ∀ (i : Nat) (c : Conn), s.table.Holds i c → c.rport = rport →
        ¬ portCycle ∣ s.count - s.serial i
  | _ => True

/-- The ports follow from the order in which the connections were opened. -/
structure Opened.Ok (s : Opened) : Prop where
  next : s.table.nextPort = firstPort + s.count % portCycle
  port : ∀ (i : Nat) (c : Conn), s.table.Holds i c →
    s.serial i < s.count ∧ c.lport = firstPort + s.serial i % portCycle

/-- The first match is the only one. -/
theorem Table.told_of_distinct {t : Table} (h : ∀ (i j : Nat) (a b : Conn), t.Holds i a →
    t.Holds j b → a.lport = b.lport → a.rport = b.rport → i = j) : t.Told := by
  refine ⟨h, fun s i c hi hl hr => ?_⟩
  have htakes : c.takes s = true := by
    unfold Conn.takes
    simp [hi.2, hl, hr]
  have hsome : (t.lookup s).isSome = true := by
    unfold lookup
    rw [List.findIdx?_isSome, List.any_eq_true]
    exact ⟨c, List.mem_of_getElem? hi.1, htakes⟩
  obtain ⟨j, hj⟩ := Option.isSome_iff_exists.mp hsome
  obtain ⟨hlt, hfound, -⟩ := List.findIdx?_eq_some_iff_getElem.mp hj
  unfold Conn.takes at hfound
  simp only [Bool.and_eq_true, decide_eq_true_eq] at hfound
  rw [hj, h i j c _ hi ⟨List.getElem?_eq_getElem hlt, hfound.1.1⟩ (hl.trans hfound.1.2.symm)
    (hr.trans hfound.2.symm)]

/-! ## the ports of a connection stay -/

/-- What a connection is told by. -/
def Conn.ports (c : Conn) : Nat × Nat := (c.lport, c.rport)

section ports

variable (mac : Bool) (t : Timespec) (s : Segment) (io : StepIO) (c : Conn)

@[simp] theorem ports_sendSegment (flags : BitVec 8) (bs : List UInt8) (q : W32) :
    (sendSegment mac flags bs q c).conn.ports = c.ports := by
  rw [conn_sendSegment]
  rfl

@[simp] theorem ports_sendAck : (sendAck mac c).conn.ports = c.ports := ports_sendSegment ..

@[simp] theorem ports_sendSyn : (sendSyn mac t c).conn.ports = c.ports := by
  unfold sendSyn
  exact ports_sendSegment ..

theorem ports_applyAck : (applyAck s t c).ports = c.ports := by
  unfold applyAck
  dsimp only
  split
  · split
    · split
      · rfl
      · rfl
    · rfl
  · rfl

theorem ports_takeFin : (takeFin s c).conn.ports = c.ports := by
  unfold takeFin
  split
  · rfl
  · rfl

theorem ports_storePayload : (storePayload s c).conn.ports = c.ports := by
  unfold storePayload
  dsimp only
  split
  · rfl
  · rfl

theorem ports_applyPayload : (applyPayload mac s c).conn.ports = c.ports := by
  have hfin := (ports_takeFin s (storePayload s c).conn).trans (ports_storePayload s c)
  unfold applyPayload
  split
  · dsimp only
    split
    · exact hfin
    · exact (ports_sendAck mac _).trans hfin
  · exact ports_sendAck mac c

theorem ports_tcpIn : (tcpIn mac t s c).conn.ports = c.ports := by
  unfold tcpIn
  split
  · rfl
  · split
    · unfold applySynAck
      split
      · exact ports_sendAck mac _
      · rfl
    · exact (ports_applyPayload mac s _).trans (ports_applyAck t s c)

theorem ports_writeHost : (writeHost io c).conn.ports = c.ports := by
  unfold writeHost
  split
  · rfl
  · split
    · have hadvance : ∀ n, (c.advanceRb n).ports = c.ports := by
        intro n
        unfold Conn.advanceRb
        dsimp only
        split
        · rfl
        · rfl
      rw [Res.conn_bind]
      unfold windowUpdate
      split
      · exact (ports_sendAck _ _).trans (hadvance _)
      · exact hadvance _
    · rfl
    · exact ports_sendSegment ..

theorem ports_shutHost : (shutHost c).conn.ports = c.ports := by
  unfold shutHost
  split
  · rfl
  · rfl

theorem ports_readHost : (readHost io c).conn.ports = c.ports := by
  unfold readHost
  split
  · rfl
  · split
    · unfold Conn.ports
      dsimp only
      split
      · rfl
      · rfl
    · rfl
    · rfl

theorem ports_sendOne : (sendOne io c).conn.ports = c.ports := by
  unfold sendOne
  dsimp only
  rw [Res.conn_bind]
  split
  · exact ports_sendSegment ..
  · exact ports_sendSegment ..

theorem ports_sendLoop (quota : Nat) : (sendLoop io quota c).conn.ports = c.ports := by
  induction quota generalizing c with
  | zero => rfl
  | succ quota ih =>
      unfold sendLoop
      split
      · rfl
      · exact (ih _).trans (ports_sendOne io c)

theorem ports_sendData : (sendData io c).conn.ports = c.ports := by
  unfold sendData
  split
  · exact ports_sendLoop io c _
  · rfl

theorem ports_sendFin : (sendFin io c).conn.ports = c.ports := by
  unfold sendFin
  split
  · exact ports_sendSegment ..
  · rfl

theorem ports_retransmit : (retransmit io c).conn.ports = c.ports := by
  unfold retransmit
  split
  · rfl
  · dsimp only
    split
    · rfl
    · unfold resend
      split
      · exact ports_sendSyn ..
      · split
        · exact ports_sendSegment ..
        · split
          · rfl
          · exact ports_sendSegment ..

theorem ports_closeHost : (closeHost c).conn.ports = c.ports := by
  unfold closeHost
  split
  · rfl
  · rfl

theorem ports_connStep : (connStep io c).conn.ports = c.ports := by
  unfold connStep
  split
  · exact ports_closeHost c
  · dsimp only
    split
    · exact (ports_closeHost _).trans (ports_writeHost io c)
    · refine (ports_closeHost _).trans ?_
      refine Eq.trans ?_ (ports_writeHost io c)
      refine (ports_retransmit io _).trans ?_
      refine (ports_sendFin io _).trans ?_
      refine (ports_sendData io _).trans ?_
      exact (ports_readHost io _).trans (ports_shutHost _)

end ports

/-! ## one step -/

section step

variable {s : Opened}

/-- A routine that leaves the ports alone leaves the connections told apart. -/
theorem Table.holds_modify {t : Table} {k : Nat} {f : Conn → Conn}
    (hf : ∀ c, (f c).live = true → c.live = true ∧ (f c).ports = c.ports) {i : Nat} {c' : Conn}
    (h : Table.Holds { t with conns := t.conns.modify k f } i c') :
    ∃ c, t.Holds i c ∧ c'.ports = c.ports := by
  obtain ⟨hget, hlive⟩ := h
  dsimp only at hget
  rw [List.getElem?_modify] at hget
  obtain ⟨c, hc, rfl⟩ := Option.map_eq_some_iff.mp hget
  by_cases hk : k = i
  · rw [if_pos hk] at hlive ⊢
    obtain ⟨hold, hports⟩ := hf c hlive
    exact ⟨c, ⟨hc, hold⟩, hports⟩
  · rw [if_neg hk] at hlive ⊢
    exact ⟨c, ⟨hc, hlive⟩, rfl⟩

/-- A step that opens nothing: every live connection was there, with its ports. -/
structure Table.Shrinks (t t' : Table) : Prop where
  next : t'.nextPort = t.nextPort
  old : ∀ i c', t'.Holds i c' → ∃ c, t.Holds i c ∧ c'.ports = c.ports

theorem Table.shrinks_segment (mac : Bool) (clk : Timespec) (b : List UInt8) (t : Table) :
    t.Shrinks (t.segment mac clk b) := by
  unfold segment
  split
  · exact ⟨rfl, fun i c h => ⟨c, h, rfl⟩⟩
  · next seg _ =>
      split
      · exact ⟨rfl, fun i c h => ⟨c, h, rfl⟩⟩
      · next k hk =>
          refine ⟨rfl, fun i c' h => ?_⟩
          obtain ⟨hget, hlive⟩ := h
          dsimp only at hget
          rw [List.getElem?_modify] at hget
          obtain ⟨c, hc, rfl⟩ := Option.map_eq_some_iff.mp hget
          by_cases hki : k = i
          · -- the slot found is live
            obtain ⟨hlt, hfound, -⟩ := List.findIdx?_eq_some_iff_getElem.mp hk
            subst hki
            rw [List.getElem?_eq_getElem hlt] at hc
            cases hc
            unfold Conn.takes at hfound
            simp only [Bool.and_eq_true, decide_eq_true_eq] at hfound
            rw [if_pos rfl]
            exact ⟨_, ⟨List.getElem?_eq_getElem hlt, hfound.1.1⟩, ports_tcpIn ..⟩
          · rw [if_neg hki] at hlive ⊢
            exact ⟨c, ⟨hc, hlive⟩, rfl⟩

theorem Table.shrinks_turn (k : Nat) (io : StepIO) (t : Table) : t.Shrinks (t.turn k io) := by
  refine ⟨rfl, fun i c' h => Table.holds_modify (fun c hlive => ?_) h⟩
  by_cases hc : c.live = true
  · rw [if_pos hc]
    exact ⟨hc, ports_connStep io c⟩
  · rw [if_neg hc] at hlive
    exact absurd hlive hc

theorem Opened.Ok.shrink {t : Table} (h : s.Ok) (ht : s.table.Shrinks t) :
    ({ s with table := t } : Opened).Ok where
  next := ht.next.trans h.next
  port i c' hc' := by
    obtain ⟨c, hc, hports⟩ := ht.old i c' hc'
    obtain ⟨hlt, hport⟩ := h.port i c hc
    exact ⟨hlt, (congrArg Prod.fst hports).trans hport⟩

theorem Table.Told.shrink {t t' : Table} (h : t.Told) (ht : t.Shrinks t') : t'.Told := by
  refine Table.told_of_distinct fun i j a' b' ha' hb' hl hr => ?_
  obtain ⟨a, ha, hpa⟩ := ht.old i a' ha'
  obtain ⟨b, hb, hpb⟩ := ht.old j b' hb'
  have hports : a.ports = b.ports := by
    rw [← hpa, ← hpb]
    exact Prod.ext hl hr
  exact h.distinct i j a b ha hb (congrArg Prod.fst hports) (congrArg Prod.snd hports)

theorem portAfter_eq (n : Nat) :
    portAfter (firstPort + n % portCycle) = firstPort + (n + 1) % portCycle := by
  unfold portAfter portCycle firstPort lastPort
  split
  · omega
  · omega

/-- The live connections after a connect: those before, and the new one. -/
theorem Table.holds_connect {t : Table} {k : Nat} (fd : Int)
    (rport us : Nat) (mac : Bool) (clk : Timespec) {i : Nat} {c : Conn} :
    (t.connect k fd rport us mac clk).Holds i c →
      if i = k then c.ports = (t.nextPort, rport) else t.Holds i c := by
  rintro ⟨hget, hlive⟩
  unfold connect at hget
  dsimp only at hget
  rw [List.getElem?_modify] at hget
  obtain ⟨old, hold, rfl⟩ := Option.map_eq_some_iff.mp hget
  by_cases hki : k = i
  · rw [if_pos hki, if_pos hki.symm]
    exact ports_sendSyn ..
  · rw [if_neg hki] at hlive ⊢
    rw [if_neg (Ne.symm hki)]
    exact ⟨hold, hlive⟩

/-- A connection that was live keeps its slot. -/
theorem Table.holds_of_connect {t : Table} {k : Nat} (hk : t.freeSlot = some k) (fd : Int)
    (rport us : Nat) (mac : Bool) (clk : Timespec) :
    (∀ i c, t.Holds i c → i ≠ k ∧ (t.connect k fd rport us mac clk).Holds i c) ∧
      ∃ c, (t.connect k fd rport us mac clk).Holds k c ∧ c.ports = (t.nextPort, rport) := by
  obtain ⟨hlt, hfree, -⟩ := List.findIdx?_eq_some_iff_getElem.mp hk
  constructor
  · rintro i c ⟨hget, hlive⟩
    have hne : i ≠ k := by
      rintro rfl
      rw [List.getElem?_eq_getElem hlt] at hget
      cases hget
      rw [hlive] at hfree
      cases hfree
    refine ⟨hne, ?_, hlive⟩
    unfold connect
    dsimp only
    rw [List.getElem?_modify_ne _ _ (Ne.symm hne), hget]
  · refine ⟨(tcpConnect t.conns[k] fd t.nextPort rport us mac clk).conn, ⟨?_, ?_⟩,
      ports_sendSyn ..⟩
    · unfold connect
      dsimp only
      rw [List.getElem?_modify_eq, List.getElem?_eq_getElem hlt]
      rfl
    · rw [conn_tcpConnect]
      rfl

theorem Opened.Ok.step (h : s.Ok) (e : TableEvent) : (s.step e).Ok := by
  cases e with
  | connect fd rport us mac clk =>
      unfold Opened.step
      cases hk : s.table.freeSlot with
      | none => exact h
      | some k =>
          refine ⟨?_, fun i c hc => ?_⟩
          · show portAfter s.table.nextPort = _
            rw [h.next, portAfter_eq]
          · have hcases := Table.holds_connect fd rport us mac clk hc
            dsimp only
            by_cases hik : i = k
            · rw [if_pos hik] at hcases
              rw [if_pos hik, ← h.next]
              exact ⟨by omega, congrArg Prod.fst hcases⟩
            · rw [if_neg hik] at hcases
              rw [if_neg hik]
              obtain ⟨hlt, hport⟩ := h.port i c hcases
              exact ⟨by omega, hport⟩
  | segment mac clk b => exact h.shrink (Table.shrinks_segment mac clk b _)
  | turn i io => exact h.shrink (Table.shrinks_turn i io _)

/-- The new connection's ports are in use exactly when one to its card port was
opened whole cycles before it. -/
theorem Opened.Ok.told_step (h : s.Ok) (ht : s.table.Told) (e : TableEvent) :
    (s.step e).table.Told ↔ s.Fresh e := by
  cases e with
  | connect fd rport us mac clk =>
      unfold Opened.step Opened.Fresh
      cases hk : s.table.freeSlot with
      | none => simp [ht]
      | some k =>
          obtain ⟨hkept, new, hnew, hports⟩ := Table.holds_of_connect hk fd rport us mac clk
          have hsame : ∀ i c, s.table.Holds i c →
              (c.lport = new.lport ↔ portCycle ∣ s.count - s.serial i) := by
            intro i c hc
            obtain ⟨hlt, hport⟩ := h.port i c hc
            rw [hport, show new.lport = _ from congrArg Prod.fst hports, h.next]
            unfold portCycle lastPort firstPort
            omega
          have hr : new.rport = rport := congrArg Prod.snd hports
          constructor
          · intro htold _ i c hc hcr hdvd
            obtain ⟨hne, hc'⟩ := hkept i c hc
            exact hne (htold.distinct i k c new hc' hnew ((hsame i c hc).mpr hdvd)
              (hcr.trans hr.symm))
          · intro hfresh
            have hother : ∀ i c, s.table.Holds i c → c.ports ≠ (s.table.nextPort, rport) := by
              intro i c hc heq
              refine hfresh (by simp) i c hc (congrArg Prod.snd heq) ((hsame i c hc).mp ?_)
              rw [show new.lport = _ from congrArg Prod.fst hports]
              exact congrArg Prod.fst heq
            refine Table.told_of_distinct fun i j a b ha hb hl hr' => ?_
            have hab : a.ports = b.ports := Prod.ext hl hr'
            have ha' := Table.holds_connect fd rport us mac clk ha
            have hb' := Table.holds_connect fd rport us mac clk hb
            by_cases hi : i = k
            · by_cases hj : j = k
              · rw [hi, hj]
              · rw [if_pos hi] at ha'
                rw [if_neg hj] at hb'
                exact absurd (hab.symm.trans ha') (hother j b hb')
            · rw [if_neg hi] at ha'
              by_cases hj : j = k
              · rw [if_pos hj] at hb'
                exact absurd (hab.trans hb') (hother i a ha')
              · rw [if_neg hj] at hb'
                exact ht.distinct i j a b ha' hb' hl hr'
  | segment mac clk b =>
      exact iff_of_true (ht.shrink (Table.shrinks_segment mac clk b _)) trivial
  | turn i io => exact iff_of_true (ht.shrink (Table.shrinks_turn i io _)) trivial

end step

/-! ## whole runs -/

theorem Table.not_holds_start (i : Nat) (c : Conn) : ¬ Table.start.Holds i c := by
  rintro ⟨hget, hlive⟩
  unfold start at hget
  rw [List.getElem?_replicate] at hget
  split at hget
  · cases hget
    exact absurd hlive (by decide)
  · cases hget

/-- **Connections are told apart** in every state reached, and every segment is
given to the connection it belongs to, exactly as long as no connection is
opened while one to the same card port lives that was opened a whole number of
port cycles before. -/
theorem told_apart_iff (es : List TableEvent) :
    Along Opened.step (fun s e => (s.step e).table.Told) .start es ↔
      Along Opened.step Opened.Fresh .start es := by
  have hok : Opened.start.Ok :=
    ⟨rfl, fun i c hc => absurd hc (Table.not_holds_start i c)⟩
  have htold : Opened.start.table.Told :=
    Table.told_of_distinct fun i _ a _ ha => absurd ha (Table.not_holds_start i a)
  exact along_iff (fun s e (h : s.Ok ∧ s.table.Told) =>
    ⟨h.1.told_step h.2 e, fun htold => ⟨h.1.step e, htold⟩⟩) es ⟨hok, htold⟩

/-! ### a connection that outlives the cycle -/

def boot : Timespec := ⟨0, 0⟩
def opening : TableEvent := .connect 7 22 0 true boot

/-- A segment without payload from the card's port 22. -/
def fromCard (lport : Nat) (ackNo : List UInt8) (flags : UInt8) : List UInt8 :=
  [0, 22, UInt8.ofNat (lport / 256), UInt8.ofNat (lport % 256), 0, 0, 0, 0] ++ ackNo ++
    [0x50, flags, 255, 255, 0, 0, 0, 0]

def quiet : StepIO := ⟨true, .again, .again, boot, boot, boot, boot⟩

/-- The first connection, its SYN answered. -/
def lived : Conn :=
  { emptySlot with
    state := .established, fd := 7, lport := 49152, rport := 22
    sndUna := 0x5a5a1235#32, sndNxt := 0x5a5a1235#32, rcvNxt := 1#32, sndWnd := 65535
    rtoAt := 200, rto := rtoMs, advWnd := 65535 }

/-- A connection opened beside it, refused by the card, and freed. -/
def refused (lport : Nat) : List TableEvent :=
  [opening, .segment true boot (fromCard lport [0, 0, 0, 0] 4), .turn 0 quiet, .turn 1 quiet]

/-- One connection that stays, and `n` opened and refused after it. -/
def cycle (n : Nat) : List TableEvent :=
  [opening, .segment true boot (fromCard 49152 [0x5a, 0x5a, 0x12, 0x35] 18)] ++
    (List.range n).flatMap fun k => refused (49153 + k)

theorem connStep_lived : (connStep quiet lived).conn = lived := rfl

/-- The reset finds the new connection. -/
theorem parse_fromCard {lport : Nat} (h : lport < 65536) :
    ∃ s, parseSegment (fromCard lport [0, 0, 0, 0] 4) = some s ∧ s.dstPort = lport ∧
      s.srcPort = 22 ∧ s.has tcpRst = true := by
  have hhdr : (fromCard lport [0, 0, 0, 0] 4).getD 12 0 = 0x50 := rfl
  have hlength : (fromCard lport [0, 0, 0, 0] 4).length = 20 := rfl
  have hlen : ((fromCard lport [0, 0, 0, 0] 4).getD 12 0).toNat / 16 * 4 ≤
      (fromCard lport [0, 0, 0, 0] 4).length ∧
      (fromCard lport [0, 0, 0, 0] 4).length ≤ 65535 := by
    rw [hhdr, hlength]
    decide
  refine ⟨_, dif_pos hlen, ?_, ?_, ?_⟩
  · show (UInt8.ofNat (lport / 256)).toNat * 256 + (UInt8.ofNat (lport % 256)).toNat = lport
    rw [UInt8.toNat_ofNat', UInt8.toNat_ofNat']
    omega
  · show (0 : UInt8).toNat * 256 + (22 : UInt8).toNat = 22
    decide
  · show decide (BitVec.ofNat 8 (4 : UInt8).toNat &&& tcpRst ≠ 0#8) = true
    decide

theorem run_refused {s : Opened} {b : Conn} {rest : List Conn}
    (hconns : s.table.conns = lived :: b :: rest) (hfree : b.live = false)
    (hlo : 49152 < s.table.nextPort) (hhi : s.table.nextPort < 65536) :
    ∃ b', b'.live = false ∧ (run Opened.step s (refused s.table.nextPort)).table =
      ⟨lived :: b' :: rest, portAfter s.table.nextPort⟩ := by
  obtain ⟨seg, hparse, hdst, hsrc, hrst⟩ := parse_fromCard hhi
  have hslot : s.table.freeSlot = some 1 := by
    unfold Table.freeSlot
    rw [hconns, List.findIdx?_cons, List.findIdx?_cons, hfree]
    rfl
  generalize hp : s.table.nextPort = p at hlo hhi hparse hdst ⊢
  let new := (tcpConnect b 7 p 22 0 true boot).conn
  have hopened : (s.step opening).table = ⟨lived :: new :: rest, portAfter p⟩ := by
    unfold Opened.step opening
    dsimp only
    rw [hslot]
    unfold Table.connect
    dsimp only
    rw [hconns, hp]
    rfl
  have hlookup : Table.lookup seg ⟨lived :: new :: rest, portAfter p⟩ = some 1 := by
    have hfirst : lived.takes seg = false := by
      unfold Conn.takes
      rw [hdst]
      have hne : (lived.lport = p) = False := eq_false (by unfold lived; dsimp only; omega)
      simp [hne]
    have hsecond : new.takes seg = true := by
      have hports : new.ports = (p, 22) := ports_sendSyn ..
      have hl : new.lport = p := congrArg Prod.fst hports
      have hr : new.rport = 22 := congrArg Prod.snd hports
      have hlive : new.live = true := rfl
      unfold Conn.takes
      rw [hlive, hl, hr, hdst, hsrc]
      simp
    unfold Table.lookup
    rw [List.findIdx?_cons, List.findIdx?_cons, hfirst, hsecond]
    rfl
  have hrest : ∀ t : Table, t = ⟨lived :: new :: rest, portAfter p⟩ →
      ((t.segment true boot (fromCard p [0, 0, 0, 0] 4)).turn 0 quiet).turn 1 quiet =
        ⟨lived :: { new with state := .free, cardEof := true, fd := -1 } :: rest,
          portAfter p⟩ := by
    rintro t rfl
    unfold Table.segment
    rw [hparse]
    dsimp only
    rw [hlookup]
    have hin : (tcpIn true boot seg new).conn = { new with state := .closed, cardEof := true } := by
      unfold tcpIn
      rw [if_pos hrst]
    show Table.turn 1 quiet (Table.turn 0 quiet
      ⟨lived :: (tcpIn true boot seg new).conn :: rest, portAfter p⟩) = _
    rw [hin]
    rfl
  exact ⟨_, rfl, hrest _ hopened⟩

theorem run_cycle (n : Nat) (hn : n ≤ 16383) :
    ∃ b, b.live = false ∧ (run Opened.step .start (cycle n)).table =
      ⟨lived :: b :: List.replicate 30 emptySlot, firstPort + (1 + n) % portCycle⟩ := by
  induction n with
  | zero => exact ⟨emptySlot, rfl, rfl⟩
  | succ n ih =>
      obtain ⟨b, hfree, htable⟩ := ih (by omega)
      have hport : firstPort + (1 + n) % portCycle = 49153 + n := by
        unfold firstPort portCycle lastPort firstPort
        omega
      have hcycle : cycle (n + 1) = cycle n ++ refused (49153 + n) := by
        unfold cycle
        rw [List.range_succ, List.flatMap_append, List.flatMap_singleton, List.append_assoc]
      rw [hport] at htable
      rw [hcycle, run_append]
      generalize run Opened.step .start (cycle n) = s at htable ⊢
      have hnext : s.table.nextPort = 49153 + n := by rw [htable]
      obtain ⟨b', hfree', hrun⟩ := run_refused (s := s) (b := b) (by rw [htable]) hfree
        (by omega) (by omega)
      refine ⟨b', hfree', ?_⟩
      rw [hnext] at hrun
      rw [hrun, ← hport, portAfter_eq, Nat.add_assoc]

/-- A connect when the first port comes round again. -/
theorem not_told_opening {s : Opened} {b : Conn} {rest : List Conn}
    (htable : s.table = ⟨lived :: b :: rest, firstPort⟩) (hfree : b.live = false) :
    ¬ (s.step opening).table.Told := by
  intro htold
  have hslot : s.table.freeSlot = some 1 := by
    unfold Table.freeSlot
    rw [htable, List.findIdx?_cons, List.findIdx?_cons, hfree]
    rfl
  obtain ⟨hkept, new, hnew, hports⟩ := Table.holds_of_connect hslot 7 22 0 true boot
  have hstep : (s.step opening).table = s.table.connect 1 7 22 0 true boot := by
    unfold Opened.step opening
    dsimp only
    rw [hslot]
  have hlived : s.table.Holds 0 lived := ⟨by rw [htable]; rfl, rfl⟩
  have hsame : lived.ports = new.ports := by
    rw [hports, htable]
    rfl
  rw [hstep] at htold
  have h01 := htold.distinct 0 1 lived new (hkept 0 lived hlived).2 hnew
    (congrArg Prod.fst hsame) (congrArg Prod.snd hsame)
  cases h01

/-- After a whole cycle two live connections have the same ports. -/
theorem ports_met_again :
    ¬ Along Opened.step (fun s e => (s.step e).table.Told) .start (cycle 16383 ++ [opening]) := by
  intro h
  obtain ⟨b, hfree, htable⟩ := run_cycle 16383 (Nat.le_refl _)
  exact not_told_opening htable hfree (along_append.mp h).2.1

end Phi.Tcp
