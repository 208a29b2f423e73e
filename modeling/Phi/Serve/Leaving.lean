import Phi.Serve.Stream

/-!
# Phi.Serve.Leaving

What a holder leaves open is closed behind it.

The daemon has its own idea of the session, which follows the frames that the
holder sends and ends with the frame that ends it.  As long as it is the
agent's, a holder that leaves is followed by the one frame that its session
needs.  A holder that sends a request behind an open session of another kind
takes them apart.
-/

namespace Phi.Serve

open Rpc

namespace Control

/-! ## the property -/

/-- The agent runs the client's command, whose input is open and stays so with
what is on its way. -/
def InsideExec (s : Control) (owner : Nat) : Prop :=
  s.agent = some ⟨.exec, owner, false⟩ ∧ ∀ e ∈ s.inFlight, Tag.ofByte e.tag ≠ some .stdinEof

/-- The agent is in the client's put, which nothing on its way closes. -/
def InsidePut (s : Control) (owner : Nat) : Prop :=
  (∃ ended, s.agent = some ⟨.put, owner, ended⟩) ∧
    ∀ e ∈ s.inFlight, Tag.ofByte e.tag ≠ some .putClose

/-- The client of slot `i` gone, whatever the daemon does next, this frame
follows what went to the card before, and none of the client's ever does. -/
def FollowedBy (s : Control) (i : Nat) (e : Entry) : Prop :=
  ∀ ms : List Move, ∃ more, (run step (s.reapClient i) ms).log = s.log ++ e :: more ∧
    ∀ x ∈ more, x.owner ≠ e.owner

/-- A holder that leaves the agent inside its session is followed by the frame
that the session needs, behind nothing but its own frames and samples since it
got the card. -/
def Closes (s : Control) : Prop :=
  ∀ i c, s.At i c → c.dead = true → c.id = s.holder →
    (∃ before, s.log = before ++ s.tenure) ∧
      (∀ e ∈ s.tenure, e.owner = c.id ∨ Tag.ofByte e.tag = some .stat) ∧
      (s.InsideExec c.id → s.FollowedBy i (tagFrame c.id .stdinEof)) ∧
      (s.InsidePut c.id → s.FollowedBy i (tagFrame c.id .putClose))

/-- What the card gets: whole frames, each connected client's in its order, and
the end of what a departed holder left open. -/
structure Kept (s : Control) : Prop where
  bytes : s.pushed ++ s.toCard.content = s.log.flatMap Entry.bytes
  whole : ∀ e ∈ s.log, e.Whole
  relayed : ∀ i c, s.At i c → c.dead = false → s.Relayed c
  closes : s.Closes

/-! ## the condition -/

/-- A request behind an open session of another kind. -/
def clash : Session → Option Tag → Bool
  | .execOpen, some .putOpen | .execOpen, some .get | .execOpen, some .ping => true
  | .putOpen, some .exec | .putOpen, some .get | .putOpen, some .ping => true
  | _, _ => false

/-- None among the holder's frames with these tags. -/
def steady : Session → List UInt8 → Bool
  | _, [] => true
  | u, t :: ts => clash u (Tag.ofByte t) = false && steady (follow u (Tag.ofByte t)) ts

/-- The tags of the frames that a decoder cuts. -/
def cutTags : Nat → Dec → List UInt8
  | 0, _ => []
  | n + 1, d => match d.next with
      | some (.frame tag _, d) => tag :: cutTags n d
      | _ => []

/-- The tags of the frames in a pending buffer. -/
def pendingTags : Nat → List UInt8 → List UInt8
  | 0, _ => []
  | n + 1, bs =>
      if bs = [] then [] else bs.getD 4 0 :: pendingTags n (bs.drop (4 + ofLe (bs.take 4)))

/-- Whether a session with its input open is left when the agent comes to `e`. -/
def track (opener closer : Tag) (isOpen : Bool) (e : Entry) : Bool :=
  if Tag.ofByte e.tag = some opener then true
  else if Tag.ofByte e.tag = some closer then false else isOpen

def runsExec (agent : Option Job) : Bool := agent.any fun b => b.task = .exec ∧ b.ended = false

def runsPut (agent : Option Job) : Bool := agent.any fun b => b.task = .put

/-- A command with its input open runs or is on its way. -/
def openExec (s : Control) : Bool := s.inFlight.foldl (track .exec .stdinEof) (runsExec s.agent)

/-- A put runs or is on its way. -/
def openPut (s : Control) : Bool := s.inFlight.foldl (track .putOpen .putClose) (runsPut s.agent)

/-- No request goes behind an open session of another kind, and no session is
open when a frame is delivered that ends one. -/
def InStep (s : Control) : Move → Prop
  | .read i _ chunk => ∀ c ∈ s.slots[i]?.join, ∀ bytes ∈ chunk, s.wantsRead c = true →
      c.id = s.holder →
        steady s.session (cutTags (c.dec.push (bytes.take readChunk)).win.size
          (c.dec.push (bytes.take readChunk))) = true
  | .pick => s.session = .none → s.holder = 0 → ∀ i ∈ s.slots.findIdx? waits,
      ∀ c ∈ s.slots[i]?.join, steady .none (pendingTags c.pending.length c.pending) = true
  | .deliver _ => ∀ r ∈ s.fromCard.head?, r.tag.terminal = true →
      s.openExec = false ∧ s.openPut = false
  | _ => True

instance (s : Control) : ∀ m : Move, Decidable (s.InStep m)
  | .read i _ chunk => inferInstanceAs (Decidable (∀ c ∈ s.slots[i]?.join, ∀ bytes ∈ chunk,
      s.wantsRead c = true → c.id = s.holder → steady _ (cutTags _ _) = true))
  | .pick => inferInstanceAs (Decidable (s.session = .none → s.holder = 0 →
      ∀ i ∈ s.slots.findIdx? waits, ∀ c ∈ s.slots[i]?.join, steady _ (pendingTags _ _) = true))
  | .deliver _ => inferInstanceAs (Decidable (∀ r ∈ s.fromCard.head?, r.tag.terminal = true →
      s.openExec = false ∧ s.openPut = false))
  | .accept _ => inferInstanceAs (Decidable True)
  | .reap _ => inferInstanceAs (Decidable True)
  | .push _ => inferInstanceAs (Decidable True)
  | .agentTake _ => inferInstanceAs (Decidable True)
  | .agentOutput _ => inferInstanceAs (Decidable True)

/-! ## the invariant -/

/-- The daemon's idea of the session is the agent's. -/
structure Agrees (s : Control) : Prop where
  taken : s.taken ≤ s.log.length
  exec : s.openExec = true → s.session = .execOpen
  put : s.openPut = true → s.session = .putOpen

section

variable {s t : Control} {c : Peer} {e : Entry}

/-! ## the log grows -/

/-- The log grows by frames of clients that are there, and no client takes the
place of an earlier one. -/
structure Grows (s t : Control) : Prop where
  log : ∃ more, t.log = s.log ++ more ∧
    ∀ e ∈ more, (∃ i c, s.At i c ∧ e.owner = c.id) ∨ s.nextId < e.owner
  ids : ∀ i c, t.At i c → (∃ j d, s.At j d ∧ c.id = d.id) ∨ s.nextId < c.id
  next : s.nextId ≤ t.nextId

theorem Grows.trans {u : Control} (h : s.Grows t) (h' : t.Grows u) : s.Grows u := by
  obtain ⟨⟨more, hlog, hmore⟩, hids, hnext⟩ := h
  obtain ⟨⟨further, hlog', hfurther⟩, hids', hnext'⟩ := h'
  refine ⟨⟨more ++ further, by rw [hlog', hlog, List.append_assoc], ?_⟩, ?_, by omega⟩
  · intro e he
    obtain hold | hnew := List.mem_append.mp he
    · exact hmore e hold
    · obtain ⟨i, c, hc, howner⟩ | hlater := hfurther e hnew
      · rw [howner]
        exact hids i c hc
      · exact .inr (by omega)
  · intro i c hc
    obtain ⟨j, d, hd, hid⟩ | hlater := hids' i c hc
    · rw [hid]
      exact hids j d hd
    · exact .inr (by omega)

/-- The same clients, and nothing sent. -/
theorem Grows.same (hids : ∀ i c, t.At i c → ∃ j d, s.At j d ∧ c.id = d.id)
    (hlog : t.log = s.log) (hnext : t.nextId = s.nextId) : s.Grows t where
  log := ⟨[], by rw [hlog, List.append_nil], nofun⟩
  ids i c hc := .inl (hids i c hc)
  next := Nat.le_of_eq hnext.symm

/-- The same clients, and frames of one of them sent. -/
theorem Grows.sent {i : Nat} {es : List Entry} (hc : s.At i c) (hes : ∀ e ∈ es, e.owner = c.id)
    (hids : ∀ i c, t.At i c → ∃ j d, s.At j d ∧ c.id = d.id) (hlog : t.log = s.log ++ es)
    (hnext : t.nextId = s.nextId) : s.Grows t where
  log := ⟨es, hlog, fun e he => .inl ⟨i, c, hc, hes e he⟩⟩
  ids i c hc := .inl (hids i c hc)
  next := Nat.le_of_eq hnext.symm

theorem Grows.refl (s : Control) : s.Grows s := .same (fun i c hc => ⟨i, c, hc, rfl⟩) rfl rfl

theorem ids_setSlot {i : Nat} {d : Peer} (hc : s.At i c) (hid : d.id = c.id) (j : Nat) (x : Peer)
    (hx : (s.setSlot i (some d)).At j x) : ∃ k y, s.At k y ∧ x.id = y.id := by
  obtain ⟨rfl, rfl⟩ | ⟨-, hx⟩ := at_setSlot hx
  · exact ⟨j, c, hc, hid⟩
  · exact ⟨j, x, hx, rfl⟩

theorem grows_setSlot {i : Nat} {d : Peer} (hc : s.At i c) (hid : d.id = c.id) :
    s.Grows (s.setSlot i (some d)) := .same (ids_setSlot hc hid) rfl rfl

theorem grows_markDead (s : Control) (i : Nat) : s.Grows (s.markDead i) := by
  unfold markDead
  split
  · next c hc => exact grows_setSlot (c := c) hc rfl
  · exact .refl s

theorem grows_handleFrame {i : Nat} (hc : s.At i c) (answered : Bool) (tag : UInt8)
    (body : List UInt8) : s.Grows (s.handleFrame i answered tag body) := by
  have hself : ∀ j x, s.At j x → ∃ k y, s.At k y ∧ x.id = y.id := fun j x hx => ⟨j, x, hx, rfl⟩
  have hone : ∀ e ∈ [(⟨c.id, tag, frameBytes c.dec body⟩ : Entry)], e.owner = c.id := by
    intro e he
    rw [List.mem_singleton.mp he]
  obtain ⟨-, ht | ht⟩ | ⟨-, q, n, ht⟩ | ⟨-, -, ht⟩ | ⟨-, -, ⟨-, ht⟩ | ⟨-, ht⟩⟩ :=
    handleFrame_cases hc answered tag body
  · rw [ht]
    exact .refl s
  · rw [ht]
    exact grows_setSlot (d := { c with dead := true }) hc rfl
  · rw [ht]
    exact .sent hc hone hself rfl rfl
  · rw [ht]
    exact .sent hc hone hself rfl rfl
  · rw [ht]
    exact .same (ids_setSlot (d := { c with dead := true }) hc rfl) rfl rfl
  · rw [ht]
    exact .same (ids_setSlot (d := { c with pending := c.pending ++ frameBytes c.dec body }) hc rfl)
      rfl rfl

theorem grows_handleFrames (s : Control) (i : Nat) (answered : Nat → Bool) (n : Nat) :
    s.Grows (s.handleFrames i answered n) := by
  induction n generalizing s with
  | zero => exact .refl s
  | succ n ih =>
      unfold handleFrames
      split
      · next c hc =>
          split
          · exact .refl s
          · next tag body d _ =>
              have hturn := grows_handleFrame (at_setSlot_self hc { c with dec := d }) (answered n)
                tag body
              exact ((grows_setSlot (d := { c with dec := d }) hc rfl).trans hturn).trans (ih _)
          · next d _ _ => exact grows_setSlot (d := { c with dec := d, dead := true }) hc rfl
      · exact .refl s

theorem grows_clientToCard (s : Control) (i : Nat) (answered : Nat → Bool)
    (chunk : Option (List UInt8)) : s.Grows (s.clientToCard i answered chunk) := by
  unfold clientToCard
  split
  · next c hc =>
      split
      · cases chunk with
        | none => exact grows_markDead s i
        | some bytes =>
            exact (grows_setSlot (d := { c with dec := c.dec.push (bytes.take readChunk) }) hc
              rfl).trans (grows_handleFrames _ i answered _)
      · exact .refl s
  · exact .refl s

theorem grows_leave (s : Control) (i : Nat) : s.Grows (s.leave i) :=
  .same (fun j x hx => ⟨j, x, (at_leave hx).2, rfl⟩) rfl rfl

theorem grows_reapClient (s : Control) (i : Nat) : s.Grows (s.reapClient i) := by
  obtain ⟨heq, -⟩ | ⟨c, hc, -, ⟨-, heq⟩ | ⟨-, heq⟩⟩ := reapClient_cases s i
  · rw [heq]
    exact .refl s
  · rw [heq]
    exact grows_leave s i
  · rw [heq]
    refine Grows.trans ?_ (grows_leave _ i)
    have hself : ∀ j x, s.At j x → ∃ k y, s.At k y ∧ x.id = y.id := fun j x hx => ⟨j, x, hx, rfl⟩
    have hone : ∀ u : Tag, ∀ e ∈ [tagFrame c.id u], e.owner = c.id := by
      intro u e he
      rw [List.mem_singleton.mp he]
      rfl
    obtain ⟨-, ht⟩ | ⟨-, ht⟩ | ⟨-, -, ht⟩ := abandon_cases { s with holder := 0 } c.id
    · rw [ht]
      exact .sent hc (hone .stdinEof) hself rfl rfl
    · rw [ht]
      exact .sent hc (hone .putClose) hself rfl rfl
    · rw [ht]
      exact .same hself rfl rfl

theorem Streams.grows_pickHolder (h : s.Streams) : s.Grows s.pickHolder := by
  obtain heq | ⟨i, c, held, ⟨-, -, -, hc⟩, hheld, heq⟩ := h.pickHolder_cases
  · rw [heq]
    exact .refl s
  · obtain ⟨hrest, -, -⟩ := forwards_all
      (s := { s with holder := c.id, tenure := [] }) ⟨h.buffered.ordered, h.buffered.inside⟩ held
    rw [heq, hrest]
    exact .sent hc (fun e he => (hheld.whole e he).2)
      (ids_setSlot (d := { c with pending := [] }) hc rfl) rfl rfl

theorem grows_acceptClient (s : Control) (uid : Nat) : s.Grows (s.acceptClient uid) := by
  unfold acceptClient
  split
  · exact .refl s
  · split
    · exact .refl s
    · split
      · exact .refl s
      · next i hi =>
          refine ⟨⟨[], (List.append_nil _).symm, nofun⟩, fun j x hx => ?_, Nat.le_succ _⟩
          obtain ⟨-, rfl⟩ | ⟨-, hx⟩ := at_setSlot (s := s) hx
          · exact .inr (Nat.lt_succ_self _)
          · exact .inl ⟨j, x, hx, rfl⟩

/-- Other slots, and nothing else. -/
theorem sendTo_slots (s : Control) (id : Nat) (ok : Bool) :
    s.Grows (s.sendTo id ok) ∧ ∃ slots, s.sendTo id ok = { s with slots := slots } := by
  unfold sendTo
  split
  · exact ⟨.refl s, _, rfl⟩
  · next i _ =>
      split
      · exact ⟨.refl s, _, rfl⟩
      · refine ⟨grows_markDead s i, ?_⟩
        unfold markDead
        split
        · exact ⟨_, rfl⟩
        · exact ⟨_, rfl⟩

/-- Delivering ends the session with a frame that ends one, and touches nothing
else of what the card gets. -/
theorem deliver_cases (s : Control) (ok : Bool) : s.Grows (s.deliver ok) ∧
    ((∃ slots r q, s.deliver ok = { s with slots := slots, fromCard := r, statQh := q }) ∨
      ∃ r ∈ s.fromCard.head?, r.tag.terminal = true ∧ ∃ slots rest,
        s.deliver ok =
          { s with slots := slots, fromCard := rest, session := .none, holder := 0 }) := by
  have hself : ∀ t : Control, t.slots = s.slots → t.log = s.log → t.nextId = s.nextId →
      s.Grows t := fun t hslots hlog hnext =>
    .same (fun i c hc => ⟨i, c, by unfold At at *; rwa [hslots] at hc, rfl⟩) hlog hnext
  unfold deliver
  split
  · exact ⟨.refl s, .inl ⟨_, _, _, rfl⟩⟩
  · next r rest hr =>
      dsimp only
      split
      · split
        · exact ⟨hself _ rfl rfl rfl, .inl ⟨_, _, _, rfl⟩⟩
        · obtain ⟨hgrows, slots, heq⟩ :=
            sendTo_slots { s with fromCard := rest, statQh := s.statQh + 1 }
              (s.statQ (s.statQh % statSlots)) ok
          have hnext := hself { s with fromCard := rest, statQh := s.statQh + 1 } rfl rfl rfl
          refine ⟨hnext.trans hgrows, .inl ⟨slots, rest, s.statQh + 1, ?_⟩⟩
          rw [heq]
      · have hsent : s.Grows (if s.holder = 0 then { s with fromCard := rest }
            else ({ s with fromCard := rest } : Control).sendTo s.holder ok) ∧
            ∃ slots, (if s.holder = 0 then { s with fromCard := rest }
              else ({ s with fromCard := rest } : Control).sendTo s.holder ok) =
                { s with slots := slots, fromCard := rest } := by
          split
          · exact ⟨hself _ rfl rfl rfl, _, rfl⟩
          · obtain ⟨hgrows, slots, heq⟩ := sendTo_slots { s with fromCard := rest } s.holder ok
            exact ⟨(hself { s with fromCard := rest } rfl rfl rfl).trans hgrows, slots, heq⟩
        obtain ⟨hgrows, slots, heq⟩ := hsent
        split
        · next hterm =>
            refine ⟨hgrows.trans (.same (fun i c hc => ⟨i, c, hc, rfl⟩) rfl rfl),
              .inr ⟨r, by rw [hr]; rfl, hterm, slots, rest, ?_⟩⟩
            rw [heq]
        · exact ⟨hgrows, .inl ⟨slots, rest, _, heq⟩⟩

theorem pushToCard_rest (s : Control) (n : Nat) :
    ∃ w p, s.pushToCard n = { s with toCard := w, pushed := p } := by
  unfold pushToCard
  split
  · exact ⟨_, _, rfl⟩
  · exact ⟨_, _, rfl⟩

theorem grows_agents (h : s.Agents t) : s.Grows t := by
  obtain ⟨a, r, n, rfl⟩ := h
  exact .same (fun i c hc => ⟨i, c, hc, rfl⟩) rfl rfl

theorem Streams.grows (h : s.Streams) (m : Move) : s.Grows (s.step m) := by
  cases m with
  | accept uid => exact grows_acceptClient s uid
  | read i answered chunk => exact grows_clientToCard s i answered chunk
  | reap i => exact grows_reapClient s i
  | pick => exact h.grows_pickHolder
  | push n =>
      obtain ⟨w, p, heq⟩ := pushToCard_rest s n
      show s.Grows (s.pushToCard n)
      rw [heq]
      exact .same (fun i c hc => ⟨i, c, hc, rfl⟩) rfl rfl
  | deliver ok => exact (deliver_cases s ok).1
  | agentTake ok => exact grows_agents (agents_agentTake s ok)
  | agentOutput tag => exact grows_agents (agents_agentOutput s tag)

theorem Streams.grows_run (h : s.Streams) (ms : List Move) : s.Grows (run Control.step s ms) := by
  induction ms generalizing s with
  | nil => exact .refl s
  | cons m ms ih => exact (h.grows m).trans (ih (h.step m))

/-- A client gone sends nothing more. -/
theorem Grows.gone (h : s.Grows t) (owner : Nat) (hold : owner ≤ s.nextId)
    (hgone : ∀ i c, s.At i c → c.id ≠ owner) :
    ∃ more, t.log = s.log ++ more ∧ ∀ e ∈ more, e.owner ≠ owner := by
  obtain ⟨more, hlog, hmore⟩ := h.log
  refine ⟨more, hlog, fun e he => ?_⟩
  obtain ⟨i, c, hc, howner⟩ | hlater := hmore e he
  · rw [howner]
    exact hgone i c hc
  · omega

/-- A departed holder's session is closed once. -/
theorem Streams.followedBy {i : Nat} {u : Tag} (h : s.Streams) (hc : s.At i c)
    (hreap : (s.reapClient i).log = s.log ++ [tagFrame c.id u])
    (hslots : ∀ j x, (s.reapClient i).At j x → j ≠ i ∧ s.At j x)
    (hnext : (s.reapClient i).nextId = s.nextId) : s.FollowedBy i (tagFrame c.id u) := by
  intro ms
  have hgrows := (h.reapClient i).grows_run ms
  obtain ⟨more, hlog, hmore⟩ := hgrows.gone c.id (by rw [hnext]; exact (h.ids i c hc).2)
    fun j x hx heq => (hslots j x hx).1 (h.unique j i x c (hslots j x hx).2 hc heq)
  refine ⟨more, ?_, hmore⟩
  rw [hlog, hreap, List.append_assoc]
  rfl

/-! ## the session and the agent -/

theorem track_mono {u v : Tag} {a b : Bool} (h : a = true → b = true)
    (ha : track u v a e = true) : track u v b e = true := by
  unfold track at *
  split
  · rfl
  · next hopen =>
      rw [if_neg hopen] at ha
      split
      · next hclose =>
          rw [if_pos hclose] at ha
          cases ha
      · next hclose =>
          rw [if_neg hclose] at ha
          exact h ha

theorem foldl_track_mono {u v : Tag} {a b : Bool} {es : List Entry} (h : a = true → b = true)
    (ha : es.foldl (track u v) a = true) : es.foldl (track u v) b = true := by
  induction es generalizing a b with
  | nil => exact h ha
  | cons e es ih => exact ih (track_mono h) ha

/-- What is open stays so when nothing closes it. -/
theorem foldl_track_stays {u v : Tag} {es : List Entry}
    (h : ∀ e ∈ es, Tag.ofByte e.tag ≠ some v) : es.foldl (track u v) true = true := by
  induction es with
  | nil => rfl
  | cons e es ih =>
      obtain ⟨he, hes⟩ := List.forall_mem_cons.mp h
      have hone : track u v true e = true := by
        unfold track
        rw [if_neg he, ite_self]
      rw [List.foldl_cons, hone]
      exact ih hes

/-- The frames on their way, one more behind them. -/
theorem Agrees.open_sent (h : s.Agrees) (hlog : t.log = s.log ++ [e]) (htaken : t.taken = s.taken)
    (hagent : t.agent = s.agent) : t.openExec = track .exec .stdinEof s.openExec e ∧
      t.openPut = track .putOpen .putClose s.openPut e := by
  have hflight : t.inFlight = s.inFlight ++ [e] := by
    unfold inFlight
    rw [hlog, htaken, List.drop_append_of_le_length h.taken]
  unfold openExec openPut
  rw [hflight, hagent, List.foldl_append, List.foldl_append]
  exact ⟨rfl, rfl⟩

/-- What the agent is given, and the daemon's idea of it. -/
def agentSide (s : Control) : List Entry × Nat × Option Job × Session :=
  (s.log, s.taken, s.agent, s.session)

/-- Nothing that matters for it changed. -/
theorem Agrees.same (h : s.Agrees) (hside : t.agentSide = s.agentSide) : t.Agrees := by
  simp only [agentSide, Prod.mk.injEq] at hside
  obtain ⟨hlog, htaken, hagent, hsession⟩ := hside
  obtain ⟨htake, hexec, hput⟩ := h
  constructor
  · rw [hlog, htaken]
    exact htake
  · unfold openExec inFlight at *
    rw [hlog, htaken, hagent, hsession]
    exact hexec
  · unfold openPut inFlight at *
    rw [hlog, htaken, hagent, hsession]
    exact hput

theorem follow_execOpen {g : Option Tag} (h : clash .execOpen g = false)
    (hne : g ≠ some .stdinEof) : follow .execOpen g = .execOpen := by
  cases g with
  | none => rfl
  | some g =>
      cases g with
      | stdinEof => exact absurd rfl hne
      | putOpen => cases h
      | get => cases h
      | ping => cases h
      | _ => rfl

theorem follow_putOpen {g : Option Tag} (h : clash .putOpen g = false)
    (hne : g ≠ some .putClose) : follow .putOpen g = .putOpen := by
  cases g with
  | none => rfl
  | some g =>
      cases g with
      | putClose => exact absurd rfl hne
      | exec => cases h
      | get => cases h
      | ping => cases h
      | _ => rfl

/-- A frame sent that the session follows. -/
theorem Agrees.sent (h : s.Agrees) (hclash : clash s.session (Tag.ofByte e.tag) = false)
    (hlog : t.log = s.log ++ [e]) (htaken : t.taken = s.taken) (hagent : t.agent = s.agent)
    (hsession : t.session = follow s.session (Tag.ofByte e.tag)) : t.Agrees := by
  obtain ⟨hexec, hput⟩ := h.open_sent hlog htaken hagent
  refine ⟨?_, fun hopen => ?_, fun hopen => ?_⟩
  · have htake := h.taken
    rw [hlog, htaken, List.length_append]
    omega
  · rw [hexec] at hopen
    unfold track at hopen
    rw [hsession]
    split at hopen
    · next htag =>
        rw [htag]
        rfl
    · split at hopen
      · cases hopen
      · next hne =>
          rw [h.exec hopen] at hclash ⊢
          exact follow_execOpen hclash hne
  · rw [hput] at hopen
    unfold track at hopen
    rw [hsession]
    split at hopen
    · next htag =>
        rw [htag]
        rfl
    · split at hopen
      · cases hopen
      · next hne =>
          rw [h.put hopen] at hclash ⊢
          exact follow_putOpen hclash hne

/-- A frame of the client of slot `i`, handled: if it holds the card, its frame
goes behind no open session of another kind. -/
theorem Agrees.handleFrame {i : Nat} {tag : UInt8} (h : s.Agrees) (hc : s.At i c)
    (hclash : c.id = s.holder → clash s.session (Tag.ofByte tag) = false) (answered : Bool)
    (body : List UInt8) :
    let t := s.handleFrame i answered tag body
    t.Agrees ∧ t.holder = s.holder ∧ (∃ x, t.At i x ∧ x.id = c.id ∧ x.dec = c.dec) ∧
      (c.id = s.holder → t.session = follow s.session (Tag.ofByte tag)) := by
  have hstat : Tag.ofByte tag = some .stat → follow s.session (Tag.ofByte tag) = s.session ∧
      clash s.session (Tag.ofByte tag) = false := by
    intro htag
    rw [htag]
    refine ⟨rfl, ?_⟩
    cases s.session with
    | _ => rfl
  obtain ⟨hlocal, ht | ht⟩ | ⟨htag, q, n, ht⟩ | ⟨-, hmine, ht⟩ | ⟨-, hnot, ⟨-, ht⟩ | ⟨-, ht⟩⟩ :=
    handleFrame_cases hc answered tag body
  · rw [ht]
    refine ⟨h, rfl, ⟨c, hc, rfl, rfl⟩, fun _ => ?_⟩
    obtain htag | htag := hlocal
    · rw [htag]
      rfl
    · rw [htag]
      rfl
  · rw [ht]
    refine ⟨h.same rfl, rfl,
      ⟨_, at_setSlot_self hc { c with dead := true }, rfl, rfl⟩, fun _ => ?_⟩
    obtain htag | htag := hlocal
    · rw [htag]
      rfl
    · rw [htag]
      rfl
  · rw [ht]
    obtain ⟨hfollow, hquiet⟩ := hstat htag
    exact ⟨h.sent (e := ⟨c.id, tag, frameBytes c.dec body⟩) hquiet rfl rfl rfl hfollow.symm, rfl,
      ⟨c, hc, rfl, rfl⟩, fun _ => hfollow.symm⟩
  · rw [ht]
    exact ⟨h.sent (e := ⟨c.id, tag, frameBytes c.dec body⟩) (hclash hmine) rfl rfl rfl rfl, rfl,
      ⟨c, hc, rfl, rfl⟩, fun _ => rfl⟩
  · rw [ht]
    exact ⟨h.same rfl, rfl,
      ⟨_, at_setSlot_self hc { c with dead := true }, rfl, rfl⟩, fun hmine => absurd hmine hnot⟩
  · rw [ht]
    exact ⟨h.same rfl, rfl,
      ⟨_, at_setSlot_self hc { c with pending := c.pending ++ frameBytes c.dec body }, rfl, rfl⟩,
      fun hmine => absurd hmine hnot⟩

theorem Agrees.handleFrames {i n : Nat} {answered : Nat → Bool} (h : s.Agrees) (hc : s.At i c)
    (hsteady : c.id = s.holder → steady s.session (cutTags n c.dec) = true) :
    (s.handleFrames i answered n).Agrees := by
  induction n generalizing s c with
  | zero => exact h
  | succ n ih =>
      unfold Control.handleFrames
      have hslot : s.slots[i]? = some (some c) := hc
      rw [hslot]
      dsimp only
      split
      · exact h
      · next tag body d hnext =>
          have hcut : cutTags (n + 1) c.dec = tag :: cutTags n d := by
            rw [cutTags, hnext]
          rw [hcut] at hsteady
          have hsplit : c.id = s.holder → clash s.session (Tag.ofByte tag) = false ∧
              steady (follow s.session (Tag.ofByte tag)) (cutTags n d) = true := by
            intro hmine
            simpa [steady] using hsteady hmine
          have hcutState : (s.setSlot i (some { c with dec := d })).Agrees := h.same rfl
          obtain ⟨hagrees, hholder, ⟨x, hx, hid, hdec⟩, hsession⟩ :=
            hcutState.handleFrame (at_setSlot_self hc { c with dec := d })
              (fun hmine => (hsplit hmine).1) (answered n) body
          refine ih hagrees hx fun hmine => ?_
          rw [hid, hholder] at hmine
          rw [hsession hmine, hdec]
          exact (hsplit hmine).2
      · exact h.same rfl

theorem Agrees.markDead (h : s.Agrees) (i : Nat) : (s.markDead i).Agrees := by
  unfold Control.markDead
  split
  · exact h.same rfl
  · exact h

theorem Agrees.clientToCard {i : Nat} {answered : Nat → Bool} {chunk : Option (List UInt8)}
    (h : s.Agrees) (hstep : s.InStep (.read i answered chunk)) :
    (s.clientToCard i answered chunk).Agrees := by
  unfold Control.clientToCard
  split
  · next c hc =>
      split
      · next hwants =>
          cases chunk with
          | none => exact h.markDead i
          | some bytes =>
              have hmem : c ∈ s.slots[i]?.join := Option.join_eq_some_iff.mpr hc
              have hread : (s.setSlot i
                  (some { c with dec := c.dec.push (bytes.take readChunk) })).Agrees :=
                h.same rfl
              exact hread.handleFrames (at_setSlot_self hc _) fun hmine =>
                hstep c hmem bytes rfl hwants hmine
      · exact h
  · exact h

/-- The frame that closes a session closes it for the daemon too. -/
theorem Agrees.abandon (h : s.Agrees) (owner : Nat) : (s.abandon owner).Agrees := by
  have htake := h.taken
  obtain ⟨hopen, ht⟩ | ⟨hopen, ht⟩ | ⟨-, -, ht⟩ := abandon_cases s owner
  · obtain ⟨hexec, hput⟩ := h.open_sent (e := tagFrame owner .stdinEof) (t := s.abandon owner)
      (by rw [ht]; rfl) (by rw [ht]; rfl) (by rw [ht]; rfl)
    refine ⟨?_, fun hyes => ?_, fun hyes => ?_⟩
    · rw [ht]
      exact Nat.le_trans htake (List.length_append ▸ Nat.le_add_right _ _)
    · rw [hexec] at hyes
      cases hyes
    · rw [hput] at hyes
      have hsession := h.put hyes
      rw [hopen] at hsession
      cases hsession
  · obtain ⟨hexec, hput⟩ := h.open_sent (e := tagFrame owner .putClose) (t := s.abandon owner)
      (by rw [ht]; rfl) (by rw [ht]; rfl) (by rw [ht]; rfl)
    refine ⟨?_, fun hyes => ?_, fun hyes => ?_⟩
    · rw [ht]
      exact Nat.le_trans htake (List.length_append ▸ Nat.le_add_right _ _)
    · rw [hexec] at hyes
      have hsession := h.exec hyes
      rw [hopen] at hsession
      cases hsession
    · rw [hput] at hyes
      cases hyes
  · rw [ht]
    exact h

theorem Agrees.reapClient (h : s.Agrees) (i : Nat) : (s.reapClient i).Agrees := by
  obtain ⟨heq, -⟩ | ⟨c, -, -, ⟨-, heq⟩ | ⟨-, heq⟩⟩ := reapClient_cases s i
  · rw [heq]
    exact h
  · rw [heq]
    exact h.same rfl
  · have hfreed : ({ s with holder := 0 } : Control).Agrees := h.same rfl
    rw [heq]
    exact (hfreed.abandon c.id).same rfl

/-- The tags of pending frames are those that the walk over them reads. -/
theorem pendingTags_eq {owner : Nat} {es : List Entry}
    (hes : ∀ e ∈ es, e.Whole ∧ e.owner = owner) {n : Nat}
    (hn : (es.flatMap Entry.bytes).length ≤ n) :
    pendingTags n (es.flatMap Entry.bytes) = es.map Entry.tag := by
  induction es generalizing n with
  | nil =>
      cases n with
      | zero => rfl
      | succ n => rfl
  | cons e es ih =>
      obtain ⟨⟨hwhole, rfl⟩, hrest⟩ := List.forall_mem_cons.mp hes
      obtain ⟨body, hlen, hcuts⟩ := hwhole.cutsFrame (es.flatMap Entry.bytes)
      rw [List.flatMap_cons] at hn ⊢
      rw [List.length_append] at hn
      obtain ⟨n, rfl⟩ : ∃ m, n = m + 1 := ⟨n - 1, by omega⟩
      have hne : e.bytes ++ es.flatMap Entry.bytes ≠ [] := by
        intro hnil
        have := congrArg List.length hnil
        rw [List.length_append, List.length_nil] at this
        omega
      have hmore : (es.flatMap Entry.bytes).length ≤ n := by omega
      unfold pendingTags
      rw [if_neg hne, hcuts.length, hcuts.tag_eq, ← hlen, List.drop_left, List.map_cons,
        ih hrest hmore]

theorem Agrees.forwardAll {es : List Entry} (h : s.Agrees)
    (hsteady : steady s.session (es.map Entry.tag) = true) :
    (es.foldl (fun (t : Control) e => t.forwardFrame e) s).Agrees := by
  induction es generalizing s with
  | nil => exact h
  | cons e es ih =>
      have hsplit : clash s.session (Tag.ofByte e.tag) = false ∧
          steady (follow s.session (Tag.ofByte e.tag)) (es.map Entry.tag) = true := by
        simpa [steady] using hsteady
      have hone : (s.forwardFrame e).Agrees := h.sent hsplit.1 rfl rfl rfl rfl
      exact ih hone hsplit.2

theorem Agrees.pickHolder (h : s.Agrees) (hs : s.Streams) (hstep : s.InStep .pick) :
    s.pickHolder.Agrees := by
  obtain heq | ⟨i, c, held, ⟨hsession, hfree, hfind, hc⟩, hheld, heq⟩ := hs.pickHolder_cases
  · rw [heq]
    exact h
  · have hsteady := hstep hsession hfree i hfind c (Option.join_eq_some_iff.mpr hc)
    have htags := pendingTags_eq hheld.whole (Nat.le_refl _)
    rw [← hheld.pending] at htags
    rw [htags, ← hsession] at hsteady
    have hgiven : ({ s with holder := c.id, tenure := [] } : Control).Agrees :=
      h.same rfl
    rw [heq]
    exact (hgiven.forwardAll hsteady).same rfl

/-- Nothing is left open once the agent has taken a frame that was not before. -/
def Tracks (e : Entry) (a b : Option Job) : Prop :=
  (runsExec b = true → track .exec .stdinEof (runsExec a) e = true) ∧
    (runsPut b = true → track .putOpen .putClose (runsPut a) e = true)

theorem tracks_none (e : Entry) (a : Option Job) : Tracks e a none := ⟨nofun, nofun⟩

theorem tracks_same {a : Option Job}
    (hexec : Tag.ofByte e.tag = some .stdinEof → runsExec a = false)
    (hput : Tag.ofByte e.tag = some .putClose → runsPut a = false) : Tracks e a a := by
  constructor
  · intro hruns
    unfold track
    split
    · rfl
    · split
      · next htag =>
          rw [hexec htag] at hruns
          cases hruns
      · exact hruns
  · intro hruns
    unfold track
    split
    · rfl
    · split
      · next htag =>
          rw [hput htag] at hruns
          cases hruns
      · exact hruns

theorem takeFrame_tracks (s : Control) (ok : Bool) (e : Entry) :
    ∃ a r, s.takeFrame ok e = { s with agent := a, fromCard := r } ∧ Tracks e s.agent a := by
  unfold takeFrame
  split
  · next hnone =>
      have hidle : Tracks e s.agent s.agent := by
        rw [hnone]
        exact tracks_none e none
      have hstart : ∀ task, Tracks e s.agent (some ⟨task, e.owner, false⟩) →
          ∃ a r, s.startTask task e.owner ok = { s with agent := a, fromCard := r } ∧
            Tracks e s.agent a := by
        intro task htracks
        cases ok with
        | true => exact ⟨_, _, rfl, htracks⟩
        | false => exact ⟨_, _, rfl, hidle⟩
      split
      · next htag => exact hstart .exec ⟨fun _ => if_pos htag, nofun⟩
      · next htag => exact hstart .put ⟨nofun, fun _ => if_pos htag⟩
      · exact hstart .get ⟨nofun, nofun⟩
      all_goals exact ⟨_, _, rfl, hidle⟩
  · next b hb =>
      split
      · next htag =>
          exact ⟨_, _, rfl, tracks_same (by rw [htag]; exact nofun) (by rw [htag]; exact nofun)⟩
      · split
        · next hends =>
            refine ⟨_, _, rfl, fun hruns => ?_, fun hruns => ?_⟩
            · simp [runsExec] at hruns
            · have hexec : b.task = .exec := hends.1
              simp [runsPut, hexec] at hruns
        · next hends =>
            split
            · next hdata =>
                split
                · exact ⟨_, _, rfl, tracks_same (by rw [hdata.2]; exact nofun)
                    (by rw [hdata.2]; exact nofun)⟩
                · exact ⟨_, _, rfl, tracks_none e _⟩
            · split
              · exact ⟨_, _, rfl, tracks_none e _⟩
              · next hcloses =>
                  refine ⟨_, _, rfl, tracks_same (fun htag => ?_) fun htag => ?_⟩
                  · rw [hb]
                    have hexec : b.task ≠ .exec := fun heq => hends ⟨heq, htag⟩
                    simp [runsExec, hexec]
                  · rw [hb]
                    have hput : b.task ≠ .put := fun heq => hcloses ⟨heq, htag⟩
                    simp [runsPut, hput]

theorem Agrees.agentTake (h : s.Agrees) (ok : Bool) : (s.agentTake ok).Agrees := by
  unfold Control.agentTake
  split
  · exact h
  · next e rest hflight =>
      split
      · obtain ⟨a, r, heq, hexec, hput⟩ := takeFrame_tracks { s with taken := s.taken + 1 } ok e
        have hnext : s.log.drop (s.taken + 1) = rest := by
          rw [← List.drop_drop]
          exact (congrArg (List.drop 1) hflight).trans rfl
        have hmore : s.taken < s.log.length := by
          by_contra hnot
          rw [inFlight, List.drop_of_length_le (Nat.le_of_not_lt hnot)] at hflight
          cases hflight
        have hbefore : s.openExec = rest.foldl (track .exec .stdinEof)
              (track .exec .stdinEof (runsExec s.agent) e) ∧
            s.openPut = rest.foldl (track .putOpen .putClose)
              (track .putOpen .putClose (runsPut s.agent) e) := by
          unfold openExec openPut
          rw [hflight]
          exact ⟨rfl, rfl⟩
        rw [heq]
        refine ⟨hmore, fun hopen => h.exec ?_, fun hopen => h.put ?_⟩
        · unfold openExec inFlight at hopen
          dsimp only at hopen
          rw [hnext] at hopen
          rw [hbefore.1]
          exact foldl_track_mono hexec hopen
        · unfold openPut inFlight at hopen
          dsimp only at hopen
          rw [hnext] at hopen
          rw [hbefore.2]
          exact foldl_track_mono hput hopen
      · exact h

theorem agentOutput_agent (s : Control) (tag : Tag) :
    ∃ a r, s.agentOutput tag = { s with agent := a, fromCard := r } ∧
      (a = s.agent ∨ a = none) := by
  unfold Control.agentOutput
  split
  · split
    · exact ⟨_, _, rfl, .inl rfl⟩
    · split
      · exact ⟨_, _, rfl, .inr rfl⟩
      · exact ⟨_, _, rfl, .inl rfl⟩
  · split
    · exact ⟨_, _, rfl, .inl rfl⟩
    · split
      · exact ⟨_, _, rfl, .inr rfl⟩
      · exact ⟨_, _, rfl, .inl rfl⟩
  · exact ⟨_, _, rfl, .inl rfl⟩

theorem Agrees.agentOutput (h : s.Agrees) (tag : Tag) : (s.agentOutput tag).Agrees := by
  obtain ⟨a, r, heq, ha⟩ := agentOutput_agent s tag
  have hless : (runsExec a = true → runsExec s.agent = true) ∧
      (runsPut a = true → runsPut s.agent = true) := by
    obtain rfl | rfl := ha
    · exact ⟨id, id⟩
    · exact ⟨nofun, nofun⟩
  rw [heq]
  exact ⟨h.taken, fun hopen => h.exec (foldl_track_mono hless.1 hopen),
    fun hopen => h.put (foldl_track_mono hless.2 hopen)⟩

theorem Agrees.deliver {ok : Bool} (h : s.Agrees) (hstep : s.InStep (.deliver ok)) :
    (s.deliver ok).Agrees := by
  obtain ⟨-, ⟨slots, r, q, heq⟩ | ⟨r, hr, hterm, slots, rest, heq⟩⟩ := deliver_cases s ok
  · rw [heq]
    exact h.same rfl
  · obtain ⟨hexec, hput⟩ := hstep r hr hterm
    rw [heq]
    refine ⟨h.taken, fun hopen => ?_, fun hopen => ?_⟩
    · exact absurd (hexec.symm.trans hopen) Bool.false_ne_true
    · exact absurd (hput.symm.trans hopen) Bool.false_ne_true

/-- **Step lemma**: a step that goes behind no open session keeps the daemon's
idea of the session the agent's. -/
theorem Agrees.step {m : Move} (h : s.Agrees) (hs : s.Streams) (hstep : s.InStep m) :
    (s.step m).Agrees := by
  cases m with
  | accept uid =>
      show (s.acceptClient uid).Agrees
      unfold Control.acceptClient
      split
      · exact h
      · split
        · exact h
        · split
          · exact h
          · exact h.same rfl
  | read i answered chunk => exact h.clientToCard hstep
  | reap i => exact h.reapClient i
  | pick => exact h.pickHolder hs hstep
  | push n =>
      obtain ⟨w, p, heq⟩ := pushToCard_rest s n
      show (s.pushToCard n).Agrees
      rw [heq]
      exact h.same rfl
  | deliver ok => exact h.deliver hstep
  | agentTake ok => exact h.agentTake ok
  | agentOutput tag => exact h.agentOutput tag

/-- A holder that leaves has its session closed. -/
theorem Streams.closes (h : s.Streams) (ha : s.Agrees) : s.Closes := by
  intro i c hc hdead hholder
  have hids := h.ids i c hc
  have hreap : s.reapClient i = (({ s with holder := 0 } : Control).abandon c.id).leave i := by
    obtain ⟨-, halive⟩ | ⟨d, hd, -, ⟨hne, -⟩ | ⟨-, heq⟩⟩ := reapClient_cases s i
    · rw [halive c hc] at hdead
      cases hdead
    · obtain rfl : c = d := at_inj hc hd
      exact absurd hholder hne
    · obtain rfl : c = d := at_inj hc hd
      exact heq
  have hclosed : ∀ u : Tag, ∀ v : Session, ({ s with holder := 0 } : Control).abandon c.id =
      { ({ s with holder := 0 } : Control).toCardAppend (tagFrame c.id u) with session := v } →
      s.FollowedBy i (tagFrame c.id u) := by
    intro u v heq
    rw [heq] at hreap
    refine h.followedBy hc (by rw [hreap]; rfl) (fun j x hx => ?_) (by rw [hreap]; rfl)
    rw [hreap] at hx
    exact at_leave hx
  refine ⟨h.tenure, fun e he => ?_, fun hinside => ?_, fun hinside => ?_⟩
  · rw [hholder]
    exact h.own (by omega) e he
  · have hopen : s.openExec = true := by
      unfold openExec
      rw [hinside.1]
      exact foldl_track_stays hinside.2
    obtain ⟨-, heq⟩ | ⟨hput, -⟩ | ⟨hnot, -, -⟩ := abandon_cases { s with holder := 0 } c.id
    · exact hclosed .stdinEof .execClosed heq
    · have hexec : s.session = .putOpen := hput
      rw [ha.exec hopen] at hexec
      cases hexec
    · exact absurd (ha.exec hopen) hnot
  · have hopen : s.openPut = true := by
      obtain ⟨⟨ended, hagent⟩, hflight⟩ := hinside
      unfold openPut
      rw [hagent]
      exact foldl_track_stays hflight
    obtain ⟨hexec, -⟩ | ⟨-, heq⟩ | ⟨-, hnot, -⟩ := abandon_cases { s with holder := 0 } c.id
    · have hput : s.session = .execOpen := hexec
      rw [ha.put hopen] at hput
      cases hput
    · exact hclosed .putClose .putClosed heq
    · exact absurd (ha.put hopen) hnot

theorem agrees_opened (serveOwner : Nat) (cells : Nat → UInt8) :
    (opened serveOwner cells).Agrees := ⟨Nat.le_refl 0, nofun, nofun⟩

end

/-! ## whole runs -/

/-- **What the card gets**, along every run in which no request goes behind an
open session of another kind and none ends behind an open one, as long as the
buffer holds: whole frames, each client's in its order and once, and the one
frame that ends what a departed holder left open. -/
theorem stream_kept (serveOwner : Nat) (cells : Nat → UInt8) (ms : List Move)
    (hsteps : Along step InStep (opened serveOwner cells) ms)
    (hfits : (run step (opened serveOwner cells) ms).overrun = false) :
    (run step (opened serveOwner cells) ms).Kept := by
  have hkeep : ∀ (s : Control) (m : Move), s.Streams ∧ s.Agrees → s.InStep m →
      (s.step m).Streams ∧ (s.step m).Agrees :=
    fun s m hs hm => ⟨hs.1.step m, hs.2.step hs.1 hm⟩
  have hstart := And.intro (streams_opened serveOwner cells) (agrees_opened serveOwner cells)
  obtain ⟨hstreams, hagrees⟩ := run_inv hkeep hstart hsteps
  refine ⟨hstreams.bytes hfits, hstreams.whole, fun i c hc halive => ?_, hstreams.closes hagrees⟩
  obtain ⟨held, hheld⟩ := hstreams.holds i c hc
  exact ⟨held, hheld.pending, hheld.relayed halive⟩

/-! ## examples of runs -/

/-- A command with no arguments but its name, which reads its input. -/
def cat : List UInt8 := [10, 0, 0, 0, 1, 1, 0, 1, 0, 99, 0, 0, 0, 0]

/-- A client starts a command, and leaves with its input open. -/
def leaves : List Move :=
  [.accept 0, .read 0 (fun _ => true) (some cat), .pick, .push 14, .agentTake true,
    .read 0 (fun _ => true) none]

theorem stream_kept_leaves : (run step (opened 0 fun _ => 0) leaves).Kept :=
  stream_kept 0 (fun _ => 0) leaves (by decide +kernel) (by decide +kernel)

/-- A client starts a command, sends a ping behind it, and leaves. -/
def slips : List Move :=
  [.accept 0, .read 0 (fun _ => true) (some (cat ++ [1, 0, 0, 0, 14])), .pick, .push 19,
    .agentTake true, .read 0 (fun _ => true) none]

/-- The agent runs a command whose input never ends. -/
theorem input_left_open :
    (run step (opened 0 fun _ => 0) slips).overrun = false ∧
      ¬ (run step (opened 0 fun _ => 0) slips).Closes := by
  refine ⟨by decide +kernel, fun h => ?_⟩
  have hslot : ∃ c, (run step (opened 0 fun _ => 0) slips).At 0 c := ⟨_, rfl⟩
  obtain ⟨c, hc⟩ := hslot
  have hfacts : ∀ c ∈ (run step (opened 0 fun _ => 0) slips).slots[0]?.join,
      c.dead = true ∧ c.id = 1 := by decide +kernel
  obtain ⟨hdead, hid⟩ := hfacts c (Option.join_eq_some_iff.mpr hc)
  have hholder : (run step (opened 0 fun _ => 0) slips).holder = 1 := by decide +kernel
  have hinside : (run step (opened 0 fun _ => 0) slips).InsideExec 1 := by
    constructor
    · decide +kernel
    · decide +kernel
  obtain ⟨-, -, hcloses, -⟩ := h 0 c hc hdead (by rw [hid, hholder])
  rw [hid] at hcloses
  obtain ⟨more, hlog, -⟩ := hcloses hinside []
  have hsame : ((run step (opened 0 fun _ => 0) slips).reapClient 0).log.length =
      (run step (opened 0 fun _ => 0) slips).log.length := by decide +kernel
  rw [run_nil] at hlog
  rw [hlog, List.length_append, List.length_cons] at hsame
  omega

end Control

end Phi.Serve
