import Phi.Ring.Link

/-!
# Phi.Dev.Typing

What is typed on the host, on its way to the card's tty: standard input is read
into `in_buf` and pushed into the host-to-card console ring (`console_step` of
`console.S`, labels 7 to 9), from which the card's `knc_rx_poll` takes it byte by
byte (`knc_ring_con_read` of `knc_earlycon.c`) and hands it to the tty.

The host's pushes are those of `Ring.Link`.  The card reads the head once for a
call and keeps the tail to itself; the host may push between any two bytes.
-/

namespace Phi.Dev.Typing

open Ring Circular Modular

/-! ## the machine -/

/-- The size of `in_buf`. -/
def inCap : Nat := 4096

/-- The size of `buf` in `knc_rx_poll`. -/
def rxCap : Nat := 256

/-- What a read of standard input returns: nothing at its end or on an error. -/
structure Chunk where
  bytes : List UInt8
  fits : bytes.length ≤ inCap

/-- Where `knc_rx_poll` is: waiting to run, in `knc_ring_con_read` with the head it
read, its tail and what it has copied, or past it with the bytes it returned. -/
inductive Poll where
  | waiting
  | reading (head tail : W32) (buf : List UInt8)
  | got (buf : List UInt8)

/-- Both ends.  The last two record what was read from standard input and what the
tty was handed. -/
structure State where
  link : Link
  /-- `region_ok` -/
  regionOk : Bool
  /-- `stdin_open` -/
  stdinOpen : Bool
  /-- `in_buf` up to `in_len` -/
  inBuf : List UInt8
  inHead : Nat
  /-- `knc_in` is set -/
  mapped : Bool
  poll : Poll
  typed : List UInt8
  handed : List UInt8

inductive Event where
  /-- `console_attach` succeeds -/
  | attach
  /-- standard input is ready, and this is read from it -/
  | stdin (c : Chunk)
  /-- `ring_push` of what `in_buf` still holds: the indices are read -/
  | push
  /-- the bytes are copied -/
  | copy
  /-- the head is published, and `in_head` moved -/
  | publish
  /-- `knc_earlycon_remap` finds the ring -/
  | map
  /-- the next step of `knc_rx_poll` -/
  | card

/-- What of `in_buf` has not gone to the ring. -/
def State.rest (s : State) : List UInt8 := s.inBuf.drop s.inHead

/-- The host is not inside `ring_push`. -/
def State.free (s : State) : Bool :=
  match s.link.producer with
  | .idle => true
  | _ => false

section machine

variable (g : Geometry)

/-- The end of `ring_push`, and what `console_step` does with the count. -/
def State.publish (s : State) : State :=
  match s.link.producer with
  | .copied _ bs =>
      { s with link := s.link.step g .host .card .pushPublish, inHead := s.inHead + bs.length }
  | _ => s

/-- `knc_ring_con_read` past its loop: the tail published when it has copied something. -/
def State.take (tail : W32) (buf : List UInt8) (s : State) : State :=
  if buf = [] then { s with poll := .waiting }
  else
    { s with
      link := { s.link with tail := tail, rxTail := tail, popped := s.link.popped ++ buf }
      poll := .got buf }

/-- The next step of `knc_rx_poll`: a call, one round of its loop, its end, or the
bytes it returned handed to the tty. -/
def State.card (s : State) : State :=
  match s.poll with
  | .waiting =>
      if s.mapped then { s with poll := .reading s.link.head s.link.rxTail [] } else s
  | .reading head tail buf =>
      if buf.length < rxCap ∧ head - tail ≠ 0#32 then
        { s with
          poll := .reading head (tail + 1#32) (buf ++ [s.link.data (tail % g.size).toNat]) }
      else s.take tail buf
  | .got buf =>
      { s with handed := s.handed ++ buf, poll := .reading s.link.head s.link.rxTail [] }

/-- One step; one that cannot be taken leaves everything as it is. -/
def State.step (s : State) : Event → State
  | .attach => if s.free then { s with regionOk := true } else s
  | .stdin c =>
      if s.stdinOpen && s.free && s.inHead == s.inBuf.length then
        { s with
          inBuf := c.bytes, inHead := 0, stdinOpen := c.bytes ≠ [], typed := s.typed ++ c.bytes }
      else s
  | .push =>
      if s.stdinOpen && s.regionOk && s.inHead != s.inBuf.length then
        { s with link := s.link.step g .host .card (.pushLoad s.rest) }
      else s
  | .copy => { s with link := s.link.step g .host .card .pushCopy }
  | .publish => s.publish g
  | .map => if s.mapped then s else
      { s with link := { s.link with rxTail := s.link.tail }, mapped := true }
  | .card => s.card g

/-- Neither side has looked at the region. -/
def start (st : Start g) : State where
  link := st.link
  regionOk := false
  stdinOpen := true
  inBuf := []
  inHead := 0
  mapped := false
  poll := .waiting
  typed := []
  handed := []

/-- What the ring holds. -/
def State.ring (s : State) : List UInt8 :=
  copyOut g.size s.link.tail s.link.data (s.link.head - s.link.tail).toNat

end machine

/-- What the card has taken and not handed over. -/
def Poll.taken : Poll → List UInt8
  | .got buf => buf
  | _ => []

/-! ## the invariant -/

/-- What the poll's phase says about the queue `live` from the true index `T` on. -/
def Poll.Ok (T : Nat) (live : List UInt8) : Poll → Prop
  | .reading head tail buf => buf <+: live ∧ tail = BitVec.ofNat 32 (T + buf.length) ∧
      ∃ n ≤ live.length, head = BitVec.ofNat 32 (T + n) ∧ buf.length ≤ n
  | _ => True

/-- What the host is pushing is the front of what it has to push. -/
def Pushes (rest : List UInt8) : Producer → Prop
  | .idle => True
  | .loaded _ bs | .copied _ bs => bs <+: rest

/-- The ring holds `live`, between what the card has taken and what the host still has. -/
structure Tied (g : Geometry) (st : Start g) (s : State) (T : Nat) (live : List UInt8) : Prop where
  link : s.link.Tied g T live
  quiet : s.link.consumer = .idle
  typed_eq : st.link.pushed ++ s.typed = s.link.pushed ++ s.rest
  pushes : Pushes s.rest s.link.producer
  inHead_le : s.inHead ≤ s.inBuf.length
  ended : s.stdinOpen = false → s.rest = []
  popped_eq : s.link.popped = s.handed ++ s.poll.taken
  poll_ok : s.poll.Ok T live

def Inv (g : Geometry) (st : Start g) (s : State) : Prop := ∃ T live, Tied g st s T live

/-! ## the steps keep it -/

section steps

variable {g : Geometry} {st : Start g} {s : State} {T : Nat} {live : List UInt8}

theorem State.free_iff : s.free = true ↔ s.link.producer = .idle := by
  unfold State.free
  cases s.link.producer <;> simp

/-- More in the ring leaves the card's phase right. -/
theorem Poll.Ok.append {p : Poll} (h : p.Ok T live) (bs : List UInt8) : p.Ok T (live ++ bs) := by
  cases p with
  | waiting => trivial
  | reading head tail buf =>
      obtain ⟨hpre, htail, n, hn, hhead, hle⟩ := h
      refine ⟨hpre.trans (List.prefix_append live bs), htail, n, ?_, hhead, hle⟩
      rw [List.length_append]
      omega
  | got buf => trivial

/-- Standard input is read once all before it has gone to the ring. -/
theorem Tied.stdin (h : Tied g st s T live) (c : Chunk) (hfree : s.free = true)
    (hend : s.inHead = s.inBuf.length) :
    Tied g st { s with
      inBuf := c.bytes, inHead := 0, stdinOpen := c.bytes ≠ [], typed := s.typed ++ c.bytes }
      T live := by
  have hrest : s.rest = [] := by rw [State.rest, hend, List.drop_length]
  have hidle : s.link.producer = .idle := State.free_iff.1 hfree
  exact { h with
    typed_eq := by
      rw [← List.append_assoc, h.typed_eq, hrest, List.append_nil]
      rfl
    pushes := by
      show Pushes _ s.link.producer
      rw [hidle]
      trivial
    inHead_le := Nat.zero_le _
    ended := fun hshut => by simpa [State.rest] using hshut }

/-- `ring_push` takes from the front of what there is to push. -/
theorem Tied.push (h : Tied g st s T live) :
    Tied g st { s with link := s.link.step g .host .card (.pushLoad s.rest) } T live := by
  simp only [Link.step]
  cases hp : s.link.producer with
  | idle =>
      refine { h with link := h.link.pushLoad .host s.rest, pushes := ?_ }
      show Pushes s.rest (s.link.pushLoad g .host s.rest).producer
      simp only [Link.pushLoad]
      split
      · trivial
      · exact List.take_prefix _ _
  | loaded head bs => exact h
  | copied head bs => exact h

theorem Tied.copy (h : Tied g st s T live) :
    Tied g st { s with link := s.link.step g .host .card .pushCopy } T live := by
  simp only [Link.step]
  cases hp : s.link.producer with
  | loaded head bs =>
      have hpre : bs <+: s.rest := by simpa [hp, Pushes] using h.pushes
      exact { h with link := h.link.pushCopy hp, pushes := hpre }
  | idle => exact h
  | copied head bs => exact h

/-- What was pushed moves from the buffer to the ring. -/
theorem Tied.publish (h : Tied g st s T live) : ∃ live', Tied g st (s.publish g) T live' := by
  unfold State.publish
  cases hp : s.link.producer with
  | copied head bs =>
      have hpre : bs <+: s.rest := by simpa [hp, Pushes] using h.pushes
      have hsplit : bs ++ s.rest.drop bs.length = s.rest := List.prefix_iff_eq_append.1 hpre
      have hlen := hpre.length_le
      have hle := h.inHead_le
      have hmoved : s.inBuf.drop (s.inHead + bs.length) = s.rest.drop bs.length :=
        List.drop_drop.symm
      rw [State.rest, List.length_drop] at hlen
      simp only [Link.step, hp]
      refine ⟨live ++ bs, { h with
        link := h.link.pushPublish hp
        typed_eq := ?_
        pushes := trivial
        inHead_le := by dsimp only; omega
        ended := fun hshut => ?_
        poll_ok := h.poll_ok.append bs }⟩
      · rw [h.typed_eq, ← hsplit, List.append_assoc]
        exact congrArg (fun r => s.link.pushed ++ (bs ++ r)) hmoved.symm
      · show s.inBuf.drop (s.inHead + bs.length) = []
        rw [hmoved, h.ended hshut, List.drop_nil]
  | idle => exact ⟨live, h⟩
  | loaded head bs => exact ⟨live, h⟩

/-- The tail that the driver takes over is its own. -/
theorem Tied.map (h : Tied g st s T live) :
    Tied g st { s with link := { s.link with rxTail := s.link.tail }, mapped := true } T live :=
  { h with link := { h.link with rxTail_eq := rfl } }

/-- Bytes copied by the card leave the ring when the tail is published. -/
theorem Tied.take (h : Tied g st s T live) {head tail : W32} {buf : List UInt8}
    (hp : s.poll = .reading head tail buf) :
    Tied g st (s.take tail buf) (T + buf.length) (live.drop buf.length) := by
  obtain ⟨hpre, htail, -⟩ : (Poll.reading head tail buf).Ok T live := hp ▸ h.poll_ok
  have htaken : s.link.popped = s.handed := by simpa [hp, Poll.taken] using h.popped_eq
  unfold State.take
  split
  · next hnil =>
      subst hnil
      exact { h with popped_eq := by simpa [Poll.taken] using htaken, poll_ok := trivial }
  · have hown : s.link.rxTail = BitVec.ofNat 32 T := h.link.rxTail_eq.trans h.link.tail_eq
    have hmid : Link.Tied g { s.link with consumer := .copied s.link.rxTail buf } T live :=
      { h.link with consumer_ok := ⟨hown, hpre⟩ }
    have hpop := hmid.popPublish rfl
    have hnew : s.link.rxTail + BitVec.ofNat 32 buf.length = tail := by
      rw [hown, ← BitVec.ofNat_add, htail]
    rw [hnew] at hpop
    have hlink : { s.link with
        tail := tail, rxTail := tail, consumer := .idle, popped := s.link.popped ++ buf } =
        { s.link with tail := tail, rxTail := tail, popped := s.link.popped ++ buf } := by
      rw [← h.quiet]
    exact { h with
      link := hlink ▸ hpop
      popped_eq := by rw [htaken]; rfl
      poll_ok := trivial }

/-- The byte that one round of the loop copies is the next of the queue. -/
theorem Tied.next (h : Tied g st s T live) {head tail : W32} {buf : List UInt8}
    (hp : s.poll = .reading head tail buf) (hne : head - tail ≠ 0#32) :
    ∃ hlt : buf.length < live.length, s.link.data (tail % g.size).toNat = live[buf.length] := by
  obtain ⟨hpre, htail, n, hn, hhead, hle⟩ : (Poll.reading head tail buf).Ok T live :=
    hp ▸ h.poll_ok
  have hlt : buf.length < n :=
    Nat.lt_of_le_of_ne hle fun heq => hne (by rw [hhead, htail, heq, BitVec.sub_self])
  have hcell : (tail % g.size).toNat = (T + buf.length) % g.size.toNat := by
    have hlog := g.log_lt
    rw [htail, BitVec.toNat_umod, BitVec.toNat_ofNat, g.size_eq,
      Nat.mod_mod_of_dvd _ (Nat.pow_dvd_pow 2 (Nat.le_of_lt hlog))]
  refine ⟨by omega, ?_⟩
  rw [hcell]
  exact h.link.producer_ok.holds buf.length (by omega)

theorem Tied.round (h : Tied g st s T live) {head tail : W32} {buf : List UInt8}
    (hp : s.poll = .reading head tail buf) (hne : head - tail ≠ 0#32) :
    Tied g st { s with
      poll := .reading head (tail + 1#32) (buf ++ [s.link.data (tail % g.size).toNat]) }
      T live := by
  obtain ⟨hlt, hbyte⟩ := h.next hp hne
  obtain ⟨hpre, htail, n, hn, hhead, hle⟩ : (Poll.reading head tail buf).Ok T live :=
    hp ▸ h.poll_ok
  have htaken : s.link.popped = s.handed ++ [] := by simpa [hp, Poll.taken] using h.popped_eq
  have hbuf : buf = live.take buf.length := List.prefix_iff_eq_take.1 hpre
  have hmore : buf ++ [live[buf.length]] = live.take (buf.length + 1) := by
    rw [List.take_add_one, ← hbuf, List.getElem?_eq_getElem hlt]
    rfl
  have hn' : buf.length ≠ n := fun heq => hne (by rw [hhead, htail, heq, BitVec.sub_self])
  refine { h with popped_eq := htaken, poll_ok := ⟨?_, ?_, n, hn, hhead, ?_⟩ }
  · rw [hbyte, hmore]
    exact List.take_prefix _ _
  · rw [htail, List.length_append, List.length_singleton, ← Nat.add_assoc,
      BitVec.ofNat_add (T + buf.length) 1]
  · rw [List.length_append, List.length_singleton]
    omega

/-- A call of `knc_ring_con_read` begins with the whole queue before it. -/
theorem Tied.call (h : Tied g st s T live) :
    (Poll.reading s.link.head s.link.rxTail []).Ok T live := by
  refine ⟨List.nil_prefix, ?_, live.length, Nat.le_refl _, h.link.head_eq, Nat.zero_le _⟩
  rw [h.link.rxTail_eq, h.link.tail_eq]
  rfl

/-- What a call returned is handed to the tty, and the next call begins. -/
theorem Tied.hand (h : Tied g st s T live) {buf : List UInt8} (hp : s.poll = .got buf) :
    Tied g st { s with
      handed := s.handed ++ buf, poll := .reading s.link.head s.link.rxTail [] } T live := by
  have htaken : s.link.popped = s.handed ++ buf := by simpa [hp, Poll.taken] using h.popped_eq
  exact { h with popped_eq := by simpa [Poll.taken] using htaken, poll_ok := h.call }

theorem Tied.card (h : Tied g st s T live) : ∃ T' live', Tied g st (s.card g) T' live' := by
  unfold State.card
  cases hp : s.poll with
  | waiting =>
      have htaken : s.link.popped = s.handed ++ [] := by simpa [hp, Poll.taken] using h.popped_eq
      dsimp only
      split
      · exact ⟨T, live, { h with popped_eq := htaken, poll_ok := h.call }⟩
      · exact ⟨T, live, h⟩
  | reading head tail buf =>
      dsimp only
      split
      · next hgo => exact ⟨T, live, h.round hp hgo.2⟩
      · exact ⟨_, _, h.take hp⟩
  | got buf => exact ⟨T, live, h.hand hp⟩

end steps

/-- **One step of either end keeps the invariant.** -/
theorem step_inv {g : Geometry} {st : Start g} (s : State) (e : Event) (h : Inv g st s) :
    Inv g st (s.step g e) := by
  obtain ⟨T, live, ht⟩ := h
  cases e with
  | attach =>
      simp only [State.step]
      split
      · exact ⟨T, live, { ht with }⟩
      · exact ⟨T, live, ht⟩
  | stdin c =>
      simp only [State.step]
      split
      · next hguard =>
          simp only [Bool.and_eq_true, beq_iff_eq] at hguard
          exact ⟨T, live, ht.stdin c hguard.1.2 hguard.2⟩
      · exact ⟨T, live, ht⟩
  | push =>
      simp only [State.step]
      split
      · exact ⟨T, live, ht.push⟩
      · exact ⟨T, live, ht⟩
  | copy => exact ⟨T, live, ht.copy⟩
  | publish => exact ⟨T, ht.publish⟩
  | map =>
      simp only [State.step]
      split
      · exact ⟨T, live, ht⟩
      · exact ⟨T, live, ht.map⟩
  | card => exact ht.card

/-- Before anything has been typed or taken. -/
theorem start_inv {g : Geometry} (st : Start g) : Inv g st (start g st) := by
  obtain ⟨T, live, ht⟩ := st.inv
  exact ⟨T, live,
    { link := ht
      quiet := rfl
      typed_eq := rfl
      pushes := trivial
      inHead_le := Nat.le_refl _
      ended := fun h => nomatch h
      popped_eq := rfl
      poll_ok := trivial }⟩

theorem run_inv {g : Geometry} (st : Start g) (es : List Event) :
    Inv g st (run (State.step g) (start g st) es) :=
  run_inv_all step_inv (start_inv st) es

/-! ## a poll while the host is quiet -/

section polls

variable {g : Geometry} {st : Start g} {s : State} {T : Nat} {live : List UInt8}

/-- `knc_rx_poll` gets from one state to another by its own steps. -/
def Polls (g : Geometry) (s s' : State) : Prop :=
  ∃ k, run (State.step g) s (List.replicate k .card) = s'

theorem Polls.refl (s : State) : Polls g s s := ⟨0, rfl⟩

theorem Polls.head {s' : State} (h : Polls g (s.card g) s') : Polls g s s' := by
  obtain ⟨k, hk⟩ := h
  exact ⟨k + 1, hk⟩

theorem Polls.trans {s₁ s₂ s₃ : State} (h : Polls g s₁ s₂) (h' : Polls g s₂ s₃) :
    Polls g s₁ s₃ := by
  obtain ⟨k, rfl⟩ := h
  obtain ⟨l, rfl⟩ := h'
  exact ⟨k + l, by rw [← List.replicate_append_replicate, run_append]⟩

/-- The ring's contents are the queue. -/
theorem Tied.ring_eq (h : Tied g st s T live) : s.ring g = live := by
  have hfits := h.link.fits
  have hsz := g.size.isLt
  have hused : (s.link.head - s.link.tail).toNat = live.length := by
    rw [h.link.head_eq, h.link.tail_eq, toNat_ofNat_sub 32 (by omega) (by omega)]
    omega
  rw [State.ring, hused, h.link.tail_eq, copyOut_eq_readWrap,
    h.link.producer_ok.holds.readWrap g.size_pos (Nat.le_refl _) hfits, List.take_length]

/-- The loop of `knc_ring_con_read` goes on while there is room in `buf` and something
in the ring. -/
theorem Tied.rounds (m : Nat) {tail : W32} {buf : List UInt8} (h : Tied g st s T live)
    (hp : s.poll = .reading s.link.head tail buf) (hm : buf.length + m ≤ live.length)
    (hcap : buf.length + m ≤ rxCap) :
    ∃ tail', Polls g s { s with
        poll := .reading s.link.head tail' (live.take (buf.length + m)) } ∧
      Tied g st { s with
        poll := .reading s.link.head tail' (live.take (buf.length + m)) } T live := by
  induction m generalizing s tail buf with
  | zero =>
      obtain ⟨hpre, -⟩ : (Poll.reading s.link.head tail buf).Ok T live := hp ▸ h.poll_ok
      refine ⟨tail, ?_⟩
      rw [Nat.add_zero, ← List.prefix_iff_eq_take.1 hpre, ← hp]
      exact ⟨Polls.refl s, h⟩
  | succ m ih =>
      obtain ⟨-, htail, -⟩ : (Poll.reading s.link.head tail buf).Ok T live := hp ▸ h.poll_ok
      have hfits := h.link.fits
      have hsz := g.size.isLt
      have hne : s.link.head - tail ≠ 0#32 := by
        rw [h.link.head_eq, htail, ← BitVec.toNat_inj.ne,
          toNat_ofNat_sub 32 (by omega) (by omega), BitVec.toNat_ofNat]
        omega
      have hstep : s.card g = { s with
          poll := .reading s.link.head (tail + 1#32)
            (buf ++ [s.link.data (tail % g.size).toNat]) } := by
        unfold State.card
        rw [hp]
        exact if_pos ⟨by omega, hne⟩
      have hlen : (buf ++ [s.link.data (tail % g.size).toNat]).length = buf.length + 1 :=
        List.length_append
      obtain ⟨tail', hrest⟩ := ih (h.round hp hne) rfl (by rw [hlen]; omega) (by rw [hlen]; omega)
      rw [hlen, Nat.add_assoc, Nat.add_comm 1 m] at hrest
      refine ⟨tail', Polls.head ?_, hrest.2⟩
      rw [hstep]
      exact hrest.1

/-- A whole call of `knc_ring_con_read`: as much as `buf` has room for. -/
theorem Tied.read (h : Tied g st s T live)
    (hp : s.poll = .reading s.link.head s.link.rxTail []) :
    ∃ tail', Polls g s (s.take tail' (live.take rxCap)) ∧
      Tied g st (s.take tail' (live.take rxCap)) (T + (live.take rxCap).length)
        (live.drop (live.take rxCap).length) := by
  have hlen : (live.take rxCap).length = min rxCap live.length := List.length_take
  have hwhole : live.take (live.take rxCap).length = live.take rxCap :=
    (List.prefix_iff_eq_take.1 (List.take_prefix rxCap live)).symm
  obtain ⟨tail', hpolls, hread⟩ := h.rounds (live.take rxCap).length hp
    (by rw [List.length_nil]; omega) (by rw [List.length_nil]; omega)
  rw [List.length_nil, Nat.zero_add, hwhole] at hpolls hread
  refine ⟨tail', hpolls.trans (Polls.head ?_), hread.take rfl⟩
  obtain ⟨-, htail, -⟩ : (Poll.reading s.link.head tail' (live.take rxCap)).Ok T live :=
    hread.poll_ok
  have hstop : ¬ ((live.take rxCap).length < rxCap ∧ s.link.head - tail' ≠ 0#32) := by
    rintro ⟨hroom, hne⟩
    have hall : (live.take rxCap).length = live.length := by omega
    exact hne (by rw [h.link.head_eq, htail, hall, BitVec.sub_self])
  have hstep : State.card g { s with poll := .reading s.link.head tail' (live.take rxCap) } =
      s.take tail' (live.take rxCap) := if_neg hstop
  rw [hstep]
  exact Polls.refl _

/-- Calls follow one another until one returns nothing. -/
theorem Tied.drains (n : Nat) (hn : live.length ≤ n) (h : Tied g st s T live)
    (hp : s.poll = .reading s.link.head s.link.rxTail []) :
    ∃ s' T', Polls g s s' ∧ Tied g st s' T' [] ∧ s'.poll = .waiting ∧
      s'.handed = s.handed ++ live ∧ s'.rest = s.rest := by
  induction n generalizing s T live with
  | zero =>
      obtain rfl : live = [] := List.eq_nil_of_length_eq_zero (by omega)
      obtain ⟨tail', hpolls, hread⟩ := h.read hp
      exact ⟨_, _, hpolls, hread, rfl, (List.append_nil _).symm, rfl⟩
  | succ n ih =>
      obtain ⟨tail', hpolls, hread⟩ := h.read hp
      by_cases hnil : live = []
      · subst hnil
        exact ⟨_, _, hpolls, hread, rfl, (List.append_nil _).symm, rfl⟩
      · have hlen : (live.take rxCap).length = min rxCap live.length := List.length_take
        have hpos : 0 < live.length := List.length_pos_iff.2 hnil
        have hcap : rxCap = 256 := rfl
        have hsome : live.take rxCap ≠ [] := List.ne_nil_of_length_pos (by omega)
        have hgot : s.take tail' (live.take rxCap) = { s with
            link := { s.link with
              tail := tail', rxTail := tail', popped := s.link.popped ++ live.take rxCap }
            poll := .got (live.take rxCap) } := if_neg hsome
        rw [hgot] at hpolls hread
        have hcall := hread.hand rfl
        obtain ⟨s', T', hdrain, htied, hwait, hhanded, hrest⟩ := ih (by
          rw [List.length_drop]
          omega) hcall rfl
        refine ⟨s', T', hpolls.trans (Polls.head hdrain), htied, hwait, ?_, hrest⟩
        rw [hhanded, List.append_assoc,
          List.prefix_iff_eq_append.1 (List.take_prefix rxCap live)]

end polls

/-! ## what is typed -/

/-- **What is typed reaches the tty**, in every run of both ends: what the tty was
handed, what the card has taken for it, what the ring holds and what the host still has
are, in this order, all that was in the ring and all that was typed.  Nothing stays with
the host once standard input has ended, and a poll that finds the host quiet hands over
all that the ring holds. -/
theorem typed_handed (g : Geometry) (st : Start g) (es : List Event) :
    let s := run (State.step g) (start g st) es
    st.link.pushed ++ s.typed = s.handed ++ s.poll.taken ++ s.ring g ++ s.rest ∧
      (s.stdinOpen = false → s.rest = []) ∧
      (s.mapped = true → s.poll = .waiting → ∃ k,
        let s' := run (State.step g) s (List.replicate k .card)
        s'.poll = .waiting ∧ s'.handed = s.handed ++ s.ring g ∧ s'.ring g = [] ∧
          s'.rest = s.rest) := by
  dsimp only
  obtain ⟨T, live, h⟩ := run_inv st es
  generalize run (State.step g) (start g st) es = s at h
  refine ⟨?_, h.ended, fun hmapped hwait => ?_⟩
  · rw [h.typed_eq, h.link.pushed_eq, h.popped_eq, h.ring_eq]
  · have hcard : s.card g = { s with poll := .reading s.link.head s.link.rxTail [] } := by
      unfold State.card
      rw [hwait]
      exact if_pos hmapped
    have htaken : s.link.popped = s.handed := by
      simpa [hwait, Poll.taken] using h.popped_eq
    have hcall : Tied g st { s with poll := .reading s.link.head s.link.rxTail [] } T live :=
      { h with popped_eq := by simpa [Poll.taken] using htaken, poll_ok := h.call }
    obtain ⟨s', T', hpolls, htied, hdone, hhanded, hrest⟩ :=
      hcall.drains live.length (Nat.le_refl _) rfl
    obtain ⟨k, rfl⟩ := Polls.head (hcard ▸ hpolls)
    refine ⟨k, hdone, ?_, htied.ring_eq, hrest⟩
    rw [hhanded, h.ring_eq]

/-- A ring of four bytes: the end of a line waits in `in_buf` until there is room. -/
example :
    let g : Geometry := ⟨4#32, 2, rfl⟩
    let st : Start g := ⟨0xfffffffe#32, 0xfffffffe#32, fun _ => 0, by decide⟩
    let line : Chunk := ⟨[108, 115, 32, 47, 10], by decide⟩
    let s := run (State.step g) (start g st)
      ([.stdin line, .attach, .push, .copy, .publish, .map] ++ List.replicate 8 .card)
    s.handed = [108, 115, 32, 47] ∧ s.rest = [10] := by decide

end Phi.Dev.Typing
