import Phi.Lib.Circular
import Phi.Lib.Run
import Phi.Serve.Relay

/-!
# Phi.Serve.Asking

Whom the answers to Stat reach.

A Stat goes past the session, and the daemon remembers who asked in a ring of
64 ids; the answers come back in the order of the questions.  The ring holds
the askers of all Stats not yet answered as long as no entry is overwritten
that another client still waits for.  Nothing checks that there are no more
than 64.

The card here is any that answers each Stat once and in order, and sends what
else it likes.
-/

namespace Phi.Serve

open Circular

/-! ## the card and the daemon -/

/-- The daemon, with the askers of the Stats the card has taken and not yet
answered. -/
structure Asking where
  relay : Relay
  heard : List Nat

def Asking.opened (serveOwner : Nat) : Asking := ⟨.opened serveOwner, []⟩

/-- What happens: a routine of the daemon, a frame read by the card, the next
Stat answered, or another frame sent. -/
inductive Moment where
  | accept (uid : Nat)
  | read (i : Nat) (frames : List Frame) (bad : Bool)
  | reap (i : Nat)
  | pick
  | deliver (ok : Bool)
  | cardTakes
  | cardAnswers
  | cardSends (tag : Tag)
deriving DecidableEq

/-- The card reads the next frame. -/
def Asking.takes (s : Asking) : Asking :=
  match s.relay.toCard with
  | [] => s
  | f :: rest =>
      ⟨{ s.relay with toCard := rest }, if f.tag = .stat then s.heard ++ [f.owner] else s.heard⟩

/-- The card answers the oldest Stat it has read. -/
def Asking.answers (s : Asking) : Asking :=
  match s.heard with
  | [] => s
  | o :: rest => ⟨s.relay.emit .statReply o, rest⟩

/-- The card sends a frame that is no answer to a Stat. -/
def Asking.sends (tag : Tag) (s : Asking) : Asking :=
  if tag = .statReply then s else { s with relay := s.relay.emit tag 0 }

def Asking.step (s : Asking) : Moment → Asking
  | .accept uid => { s with relay := s.relay.acceptClient uid }
  | .read i frames bad => { s with relay := s.relay.clientToCard i frames bad }
  | .reap i => { s with relay := s.relay.reapClient i }
  | .pick => { s with relay := s.relay.pickHolder }
  | .deliver ok => { s with relay := s.relay.deliver ok }
  | .cardTakes => s.takes
  | .cardAnswers => s.answers
  | .cardSends tag => s.sends tag

/-! ## who asked -/

/-- The client whose Stat this is. -/
def Relay.asker (i : Nat) (s : Relay) (f : Frame) : List Nat :=
  match s.slots[i]? with
  | some (some c) => if f.tag = .stat then [c.id] else []
  | _ => []

/-- The askers of the Stats among the frames, in order. -/
def Relay.askers (i : Nat) : Relay → List Frame → List Nat
  | _, [] => []
  | s, f :: fs => s.asker i f ++ askers i (s.handleFrame i f) fs

/-- The askers of the Stats one moment forwards. -/
def Relay.asks (s : Relay) : Moment → List Nat
  | .read i frames _ => match s.slots[i]? with
      | some (some c) => if s.wantsRead c then s.askers i frames else []
      | _ => []
  | _ => []

/-- The clients that sent the forwarded Stats of a run, in order. -/
def asked : Asking → List Moment → List Nat
  | _, [] => []
  | s, m :: ms => s.relay.asks m ++ asked (s.step m) ms

/-! ## the ring of ids -/

/-- A Stat finds the ring with room, or overwrites its asker's own id. -/
def Relay.RingTakes (i : Nat) (s : Relay) (f : Frame) : Prop :=
  f.tag = .stat → ∀ c ∈ s.slots[i]?.join,
    s.statQt < s.statQh + statSlots ∨ s.statQ (s.statQt % statSlots) = c.id

instance (i : Nat) (s : Relay) (f : Frame) : Decidable (s.RingTakes i f) :=
  inferInstanceAs (Decidable (_ → ∀ _ ∈ _, _))

/-- No Stat takes the place of one that another client waits for. -/
def Asking.RingFits (s : Asking) : Moment → Prop
  | .read i frames _ => Along (Relay.handleFrame i) (Relay.RingTakes i) s.relay frames
  | _ => True

instance (s : Asking) : ∀ m, Decidable (s.RingFits m)
  | .read i frames _ =>
      inferInstanceAs (Decidable (Along (Relay.handleFrame i) (Relay.RingTakes i) s.relay frames))
  | .accept _ | .reap _ | .pick | .deliver _ | .cardTakes | .cardAnswers | .cardSends _ =>
      inferInstanceAs (Decidable True)

/-! ## the Stats in flight -/

/-- The askers of the Stats on their way to the card. -/
def statOwners (fs : List Sent) : List Nat :=
  (fs.filter fun f => f.tag = .stat).map Sent.owner

/-- The askers of the answers on their way from it. -/
def replyOwners (rs : List Reply) : List Nat :=
  (rs.filter fun r => r.tag = .statReply).map Reply.owner

/-- The askers of the answers delivered. -/
def Relay.answeredStats (s : Relay) : List Nat :=
  (s.delivered.filter fun d => d.tag = .statReply).map Delivery.owner

/-- The askers of the Stats forwarded and not yet answered, oldest first. -/
def Asking.outstanding (s : Asking) : List Nat :=
  replyOwners s.relay.fromCard ++ s.heard ++ statOwners s.relay.toCard

/-- Every answer to a Stat reached the client that asked, or nobody when that
was gone. -/
def Relay.StatsRight (s : Relay) : Prop :=
  ∀ d ∈ s.delivered, d.tag = .statReply → d.recipient = if d.present then some d.owner else none

/-- The ring holds the askers of the Stats in flight; no client holds back a
Stat. -/
structure Asking.Ok (s : Asking) (all : List Nat) : Prop where
  count : s.relay.statQt = s.relay.statQh + s.outstanding.length
  ring : Holds s.relay.statQ statSlots s.relay.statQh s.outstanding
  order : s.relay.answeredStats ++ s.outstanding = all
  right : s.relay.StatsRight
  held : ∀ c, some c ∈ s.relay.slots → ∀ f ∈ c.pending, f.tag ≠ .stat

theorem Asking.ok_opened (serveOwner : Nat) : (Asking.opened serveOwner).Ok [] := by
  refine ⟨rfl, holds_nil _ _ _, rfl, by simp [Relay.StatsRight, opened, Relay.opened], ?_⟩
  intro c hc
  obtain ⟨-, heq⟩ := List.mem_replicate.mp hc
  cases heq

/-- What leaves the Stats alone. -/
structure Relay.Quiet (s t : Relay) : Prop where
  statQ : t.statQ = s.statQ
  statQh : t.statQh = s.statQh
  statQt : t.statQt = s.statQt
  toCard : statOwners t.toCard = statOwners s.toCard
  fromCard : t.fromCard = s.fromCard
  delivered : t.delivered = s.delivered
  held : (∀ c, some c ∈ s.slots → ∀ f ∈ c.pending, f.tag ≠ .stat) →
    ∀ c, some c ∈ t.slots → ∀ f ∈ c.pending, f.tag ≠ .stat

section

variable {s t u : Relay} {heard all : List Nat}

theorem Relay.Quiet.refl (s : Relay) : s.Quiet s := ⟨rfl, rfl, rfl, rfl, rfl, rfl, id⟩

theorem Relay.Quiet.trans (h : s.Quiet t) (h' : t.Quiet u) : s.Quiet u :=
  ⟨h'.statQ.trans h.statQ, h'.statQh.trans h.statQh, h'.statQt.trans h.statQt,
    h'.toCard.trans h.toCard, h'.fromCard.trans h.fromCard, h'.delivered.trans h.delivered,
    fun hs => h'.held (h.held hs)⟩

theorem Asking.Ok.quiet (h : (⟨s, heard⟩ : Asking).Ok all) (hq : s.Quiet t) :
    (⟨t, heard⟩ : Asking).Ok all := by
  have hout : (⟨t, heard⟩ : Asking).outstanding = (⟨s, heard⟩ : Asking).outstanding := by
    unfold outstanding
    rw [hq.fromCard, hq.toCard]
  refine ⟨?_, ?_, ?_, ?_, hq.held h.held⟩
  · rw [hout, hq.statQt, hq.statQh]
    exact h.count
  · rw [hout, hq.statQ, hq.statQh]
    exact h.ring
  · rw [hout, ← h.order]
    unfold Relay.answeredStats
    rw [hq.delivered]
  · unfold Relay.StatsRight
    rw [hq.delivered]
    exact h.right

/-! ## the daemon's routines -/

@[simp] theorem statOwners_append_singleton (fs : List Sent) (f : Sent) :
    statOwners (fs ++ [f]) = statOwners fs ++ if f.tag = .stat then [f.owner] else [] := by
  unfold statOwners
  rw [List.filter_append, List.map_append]
  by_cases h : f.tag = .stat
  · simp [h]
  · simp [h]

/-- A slot rewritten for a client that holds back no more Stats than before. -/
theorem Relay.quiet_setSlot {i : Nat} {x : Option Client}
    (hx : (∀ c, some c ∈ s.slots → ∀ f ∈ c.pending, f.tag ≠ .stat) →
      ∀ c ∈ x, ∀ f ∈ c.pending, f.tag ≠ .stat) : s.Quiet (s.setSlot i x) := by
  refine ⟨rfl, rfl, rfl, rfl, rfl, rfl, fun hs c hc => ?_⟩
  obtain hold | heq := List.mem_or_eq_of_mem_set hc
  · exact hs c hold
  · exact hx hs c heq.symm

theorem Relay.quiet_markDead (s : Relay) (i : Nat) : s.Quiet (s.markDead i) := by
  unfold markDead
  split
  · next c hc =>
      refine quiet_setSlot fun hs d hd => ?_
      cases hd
      exact hs c (List.mem_of_getElem? hc)
  · exact .refl s

theorem Relay.quiet_forwardFrame {tag : Tag} (htag : tag ≠ .stat) (o : Nat) (s : Relay) :
    s.Quiet (s.forwardFrame o tag) := by
  refine ⟨rfl, rfl, rfl, ?_, rfl, rfl, id⟩
  show statOwners (s.toCard ++ [⟨tag, o⟩]) = statOwners s.toCard
  rw [statOwners_append_singleton, if_neg htag, List.append_nil]

theorem Relay.quiet_acceptClient (uid : Nat) (s : Relay) : s.Quiet (s.acceptClient uid) := by
  unfold acceptClient
  split
  · exact .refl s
  · split
    · exact .refl s
    · split
      · exact .refl s
      · next i hi =>
          refine ⟨rfl, rfl, rfl, rfl, rfl, rfl, fun hs c hc => ?_⟩
          obtain hold | heq := List.mem_or_eq_of_mem_set hc
          · exact hs c hold
          · cases heq
            simp

theorem Relay.quiet_reapClient (i : Nat) (s : Relay) : s.Quiet (s.reapClient i) := by
  have hslot : ∀ {t : Relay} {n : Nat}, s.Quiet t →
      s.Quiet { t.setSlot i none with nclients := n } := by
    intro t n ht
    have hset := ht.trans (quiet_setSlot (s := t) (i := i) (x := none) fun _ c hc => by cases hc)
    exact ⟨hset.statQ, hset.statQh, hset.statQt, hset.toCard, hset.fromCard, hset.delivered,
      hset.held⟩
  have hclose : ∀ (o : Nat) (tag : Tag) (session : Session), tag ≠ .stat →
      s.Quiet { ({ s with holder := 0 } : Relay).frameToCard o tag with session := session } := by
    intro o tag session htag
    refine ⟨rfl, rfl, rfl, ?_, rfl, rfl, id⟩
    show statOwners (s.toCard ++ [⟨tag, o⟩]) = statOwners s.toCard
    rw [statOwners_append_singleton, if_neg htag, List.append_nil]
  unfold reapClient
  split
  · split
    · exact .refl s
    · dsimp only
      split
      · split
        · exact hslot (hclose _ _ _ (by decide))
        · exact hslot (hclose _ _ _ (by decide))
        · exact hslot ⟨rfl, rfl, rfl, rfl, rfl, rfl, id⟩
      · exact hslot (.refl s)
  · exact .refl s

theorem Relay.quiet_pickHolder
    (hheld : ∀ c, some c ∈ s.slots → ∀ f ∈ c.pending, f.tag ≠ .stat) : s.Quiet s.pickHolder := by
  unfold pickHolder
  split
  · exact .refl s
  · split
    · exact .refl s
    · split
      · next c hc =>
          have hwalk : ∀ (fs : List Frame) (t : Relay), (∀ f ∈ fs, f.tag ≠ .stat) → s.Quiet t →
              s.Quiet (fs.foldl (fun (u : Relay) f => u.forwardFrame c.id f.tag) t) := by
            intro fs
            induction fs with
            | nil => exact fun t _ ht => ht
            | cons f fs ih =>
                intro t hfs ht
                rw [List.foldl_cons]
                exact ih _ (fun g hg => hfs g (List.mem_cons_of_mem _ hg))
                  (ht.trans (quiet_forwardFrame (hfs f List.mem_cons_self) _ t))
          have hfree : s.Quiet { s with holder := c.id } := ⟨rfl, rfl, rfl, rfl, rfl, rfl, id⟩
          refine (hwalk c.pending _ (hheld c (List.mem_of_getElem? hc)) hfree).trans ?_
          exact quiet_setSlot fun _ d hd => by
            cases hd
            simp
      · exact .refl s

/-- A Stat goes to the card and its asker into the ring. -/
theorem Asking.Ok.stat {c : Client} (h : (⟨s, heard⟩ : Asking).Ok all)
    (hroom : s.statQt < s.statQh + statSlots ∨ s.statQ (s.statQt % statSlots) = c.id) :
    (⟨{ s.frameToCard c.id .stat with
        statQ := fun k => if k = s.statQt % statSlots then c.id else s.statQ k
        statQt := s.statQt + 1 }, heard⟩ : Asking).Ok (all ++ [c.id]) := by
  have hcount := h.count
  have hout : (⟨{ s.frameToCard c.id .stat with
        statQ := fun k => if k = s.statQt % statSlots then c.id else s.statQ k
        statQt := s.statQt + 1 }, heard⟩ : Asking).outstanding =
      (⟨s, heard⟩ : Asking).outstanding ++ [c.id] := by
    show replyOwners s.fromCard ++ heard ++ statOwners (s.toCard ++ [⟨.stat, c.id⟩]) = _
    rw [statOwners_append_singleton, if_pos rfl, ← List.append_assoc]
    rfl
  generalize hall : (⟨s, heard⟩ : Asking).outstanding = out at hcount hout
  have hring := h.ring
  have horder := h.order
  rw [hall] at hring horder
  refine ⟨?_, ?_, ?_, h.right, h.held⟩
  · rw [hout, List.length_append, List.length_singleton]
    show s.statQt + 1 = s.statQh + (out.length + 1)
    dsimp only at hcount
    omega
  · rw [hout]
    intro k hk
    rw [List.length_append, List.length_singleton] at hk
    show (if (s.statQh + k) % statSlots = s.statQt % statSlots then c.id
      else s.statQ ((s.statQh + k) % statSlots)) = (out ++ [c.id])[k]
    dsimp only at hcount
    by_cases hlast : k = out.length
    · subst hlast
      rw [if_pos (by rw [hcount]), List.getElem_concat_length rfl]
    · have hlt : k < out.length := by omega
      rw [List.getElem_append_left hlt, ← hring k hlt]
      by_cases hcell : (s.statQh + k) % statSlots = s.statQt % statSlots
      · rw [if_pos hcell]
        obtain hfits | hsame := hroom
        · exact absurd hcell (mod_ne_of_lt (by omega) (by omega))
        · show c.id = s.statQ ((s.statQh + k) % statSlots)
          rw [hcell, hsame]
      · rw [if_neg hcell]
  · rw [hout, ← List.append_assoc]
    show (s.answeredStats ++ out) ++ [c.id] = all ++ [c.id]
    rw [← horder]

theorem Asking.Ok.handleFrame {i : Nat} {f : Frame} (h : (⟨s, heard⟩ : Asking).Ok all)
    (hroom : s.RingTakes i f) :
    (⟨s.handleFrame i f, heard⟩ : Asking).Ok (all ++ s.asker i f) := by
  unfold Relay.RingTakes at hroom
  unfold Relay.handleFrame
  split
  · next c hc =>
      have hasker : s.asker i f = if f.tag = .stat then [c.id] else [] := by
        unfold Relay.asker
        rw [hc]
      rw [hasker]
      by_cases hstat : f.tag = .stat
      · have hother : ¬ (f.tag = .sensors ∨ f.tag = .traffic) := by simp [hstat]
        rw [if_neg hother, if_pos hstat, if_pos hstat]
        exact h.stat (hroom hstat c (by rw [hc]; rfl))
      · rw [if_neg hstat, if_neg hstat, List.append_nil]
        split
        · exact h
        · split
          · exact h.quiet (Relay.quiet_forwardFrame hstat _ s)
          · split
            · refine h.quiet (Relay.quiet_setSlot fun hs d hd => ?_)
              cases hd
              exact hs c (List.mem_of_getElem? hc)
            · refine h.quiet (Relay.quiet_setSlot fun hs d hd => ?_)
              cases hd
              intro g hg
              obtain hold | hnew := List.mem_append.mp hg
              · exact hs c (List.mem_of_getElem? hc) g hold
              · rw [List.mem_singleton.mp hnew]
                exact hstat
  · next hnone =>
      have hasker : s.asker i f = [] := by
        unfold Relay.asker
        split
        · next c hc => exact absurd hc (hnone c)
        · rfl
      rw [hasker, List.append_nil]
      exact h

theorem Asking.Ok.frames {i : Nat} {fs : List Frame} (h : (⟨s, heard⟩ : Asking).Ok all)
    (hfits : Along (Relay.handleFrame i) (Relay.RingTakes i) s fs) :
    (⟨fs.foldl (Relay.handleFrame i) s, heard⟩ : Asking).Ok (all ++ s.askers i fs) := by
  induction fs generalizing s all with
  | nil =>
      unfold Relay.askers
      rw [List.append_nil]
      exact h
  | cons f fs ih =>
      unfold Relay.askers
      rw [List.foldl_cons, ← List.append_assoc]
      exact ih (h.handleFrame hfits.1) hfits.2

theorem Asking.Ok.clientToCard {i : Nat} {frames : List Frame} {bad : Bool}
    (h : (⟨s, heard⟩ : Asking).Ok all)
    (hfits : (⟨s, heard⟩ : Asking).RingFits (.read i frames bad)) :
    (⟨s.clientToCard i frames bad, heard⟩ : Asking).Ok (all ++ s.asks (.read i frames bad)) := by
  unfold Relay.clientToCard
  split
  · next c hc =>
      have hasks : s.asks (.read i frames bad) =
          if s.wantsRead c then s.askers i frames else [] := by
        unfold Relay.asks
        dsimp only
        rw [hc]
      rw [hasks]
      by_cases hread : s.wantsRead c = true
      · rw [if_pos hread, if_pos hread]
        have hfold := h.frames hfits
        cases bad with
        | true => exact hfold.quiet (Relay.quiet_markDead _ i)
        | false => exact hfold
      · rw [if_neg hread, if_neg hread, List.append_nil]
        exact h
  · next hnone =>
      have hasks : s.asks (.read i frames bad) = [] := by
        unfold Relay.asks
        dsimp only
        split
        · next c hc => exact absurd hc (hnone c)
        · rfl
      rw [hasks, List.append_nil]
      exact h

/-! ## answers delivered -/

/-- A delivery that is no answer to a Stat, or reaches its asker. -/
theorem Relay.statsRight_record {r : Reply} {x : Option Nat} (h : s.StatsRight)
    (hx : r.tag = .statReply → x = if (s.clientById r.owner).isSome then some r.owner else none) :
    (s.record r x).StatsRight := by
  intro d hd hstat
  obtain hold | hnew := List.mem_append.mp hd
  · exact h d hold hstat
  · rw [List.mem_singleton.mp hnew] at hstat ⊢
    exact hx hstat

theorem Relay.answeredStats_record (r : Reply) (x : Option Nat) (s : Relay) :
    (s.record r x).answeredStats =
      s.answeredStats ++ if r.tag = .statReply then [r.owner] else [] := by
  unfold answeredStats record
  dsimp only
  rw [List.filter_append, List.map_append]
  by_cases h : r.tag = .statReply
  · simp [h]
  · simp [h]

/-- `client_send_card_frame` is a delivery to the client, or to nobody. -/
theorem Relay.sendTo_quiet (id : Nat) (r : Reply) (ok : Bool) (s : Relay) :
    ∃ x, x = (if (s.clientById id).isSome then some id else none) ∧
      (s.record r x).Quiet (s.sendTo id r ok) := by
  unfold sendTo
  cases s.clientById id with
  | none => exact ⟨none, rfl, .refl _⟩
  | some i =>
      refine ⟨some id, rfl, ?_⟩
      cases ok with
      | true => exact .refl _
      | false => exact quiet_markDead _ i

/-- A reply taken from the card is no longer outstanding. -/
theorem Asking.outstanding_take {r : Reply} {rest : List Reply} (hfrom : s.fromCard = r :: rest) :
    (⟨s, heard⟩ : Asking).outstanding = (if r.tag = .statReply then [r.owner] else []) ++
      (⟨{ s with fromCard := rest }, heard⟩ : Asking).outstanding := by
  unfold outstanding replyOwners
  rw [hfrom]
  by_cases hstat : r.tag = .statReply
  · simp [hstat]
  · simp [hstat]

/-- The answer to a Stat is the oldest one's, whose asker the ring names. -/
theorem Asking.Ok.answer {r : Reply} {rest : List Reply} (h : (⟨s, heard⟩ : Asking).Ok all)
    (hfrom : s.fromCard = r :: rest) (hstat : r.tag = .statReply) :
    s.statQh < s.statQt ∧ s.statQ (s.statQh % statSlots) = r.owner ∧
      ∀ x, x = (if (s.clientById r.owner).isSome then some r.owner else none) →
        (⟨Relay.record r x { s with fromCard := rest, statQh := s.statQh + 1 }, heard⟩ :
          Asking).Ok all := by
  have hcount := h.count
  have hring := h.ring
  have horder := h.order
  have hout : (⟨s, heard⟩ : Asking).outstanding = _ := outstanding_take hfrom
  rw [if_pos hstat] at hout
  generalize hrest : (⟨{ s with fromCard := rest }, heard⟩ : Asking).outstanding = out at hout
  rw [hout] at hcount hring horder
  rw [List.length_append, List.length_singleton] at hcount
  dsimp only at hcount
  have hasker : s.statQ (s.statQh % statSlots) = r.owner := by
    have h0 := hring 0 (by simp)
    simpa using h0
  refine ⟨by omega, hasker, fun x hx => ⟨?_, ?_, ?_, ?_, h.held⟩⟩
  · show s.statQt = s.statQh + 1 +
      (Asking.outstanding ⟨{ s with fromCard := rest }, heard⟩).length
    rw [hrest]
    omega
  · show Holds s.statQ statSlots (s.statQh + 1)
      (Asking.outstanding ⟨{ s with fromCard := rest }, heard⟩)
    rw [hrest]
    exact hring.drop (n := 1)
  · rw [Relay.answeredStats_record, if_pos hstat]
    show (s.answeredStats ++ [r.owner]) ++
      Asking.outstanding ⟨{ s with fromCard := rest }, heard⟩ = all
    rw [hrest, List.append_assoc]
    exact horder
  · exact Relay.statsRight_record h.right fun _ => hx

/-- Any other frame leaves the Stats alone. -/
theorem Asking.Ok.otherFrame {r : Reply} {rest : List Reply} (h : (⟨s, heard⟩ : Asking).Ok all)
    (hfrom : s.fromCard = r :: rest) (hstat : r.tag ≠ .statReply) (x : Option Nat) :
    (⟨Relay.record r x { s with fromCard := rest }, heard⟩ : Asking).Ok all := by
  have hout : (⟨s, heard⟩ : Asking).outstanding = _ := outstanding_take hfrom
  rw [if_neg hstat, List.nil_append] at hout
  refine ⟨?_, ?_, ?_, ?_, h.held⟩
  · show s.statQt = s.statQh + (Asking.outstanding ⟨{ s with fromCard := rest }, heard⟩).length
    rw [← hout]
    exact h.count
  · show Holds s.statQ statSlots s.statQh
      (Asking.outstanding ⟨{ s with fromCard := rest }, heard⟩)
    rw [← hout]
    exact h.ring
  · rw [Relay.answeredStats_record, if_neg hstat, List.append_nil]
    show s.answeredStats ++ Asking.outstanding ⟨{ s with fromCard := rest }, heard⟩ = all
    rw [← hout]
    exact h.order
  · exact Relay.statsRight_record h.right fun hs => absurd hs hstat

theorem Asking.Ok.deliver (h : (⟨s, heard⟩ : Asking).Ok all) (ok : Bool) :
    (⟨s.deliver ok, heard⟩ : Asking).Ok all := by
  unfold Relay.deliver
  cases hfrom : s.fromCard with
  | nil => exact h
  | cons r rest =>
      dsimp only
      by_cases hstat : r.tag = .statReply
      · obtain ⟨hlt, hasker, hrecord⟩ := h.answer hfrom hstat
        rw [if_pos hstat, if_neg (by omega), hasker]
        obtain ⟨x, hx, hquiet⟩ := Relay.sendTo_quiet r.owner r ok
          { s with fromCard := rest, statQh := s.statQh + 1 }
        exact (hrecord x hx).quiet hquiet
      · rw [if_neg hstat]
        have hsent : (⟨if s.holder = 0 then Relay.record r none { s with fromCard := rest }
            else Relay.sendTo s.holder r ok { s with fromCard := rest }, heard⟩ : Asking).Ok
              all := by
          split
          · exact h.otherFrame hfrom hstat none
          · obtain ⟨x, -, hquiet⟩ := Relay.sendTo_quiet s.holder r ok { s with fromCard := rest }
            exact (h.otherFrame hfrom hstat x).quiet hquiet
        split
        · exact hsent.quiet ⟨rfl, rfl, rfl, rfl, rfl, rfl, id⟩
        · exact hsent

/-! ## the card -/

theorem Asking.Ok.takes {s : Asking} (h : s.Ok all) : s.takes.Ok all := by
  unfold Asking.takes
  cases hto : s.relay.toCard with
  | nil => exact h
  | cons f rest =>
      dsimp only
      have hout : (⟨{ s.relay with toCard := rest },
          if f.tag = .stat then s.heard ++ [f.owner] else s.heard⟩ : Asking).outstanding =
          s.outstanding := by
        unfold outstanding statOwners
        rw [hto]
        by_cases hstat : f.tag = .stat
        · simp [hstat]
        · simp [hstat]
      refine ⟨?_, ?_, ?_, h.right, h.held⟩
      · rw [hout]
        exact h.count
      · rw [hout]
        exact h.ring
      · rw [hout]
        exact h.order

@[simp] theorem replyOwners_append_singleton (rs : List Reply) (r : Reply) :
    replyOwners (rs ++ [r]) = replyOwners rs ++ if r.tag = .statReply then [r.owner] else [] := by
  unfold replyOwners
  rw [List.filter_append, List.map_append]
  by_cases h : r.tag = .statReply
  · simp [h]
  · simp [h]

theorem Asking.Ok.emit {s : Asking} (h : s.Ok all) {tag : Tag} {o : Nat} {heard : List Nat}
    (hheard : (if tag = .statReply then [o] else []) ++ heard = s.heard) :
    (⟨s.relay.emit tag o, heard⟩ : Asking).Ok all := by
  have hout : (⟨s.relay.emit tag o, heard⟩ : Asking).outstanding = s.outstanding := by
    unfold outstanding
    rw [← hheard]
    show replyOwners (s.relay.fromCard ++ [⟨tag, o⟩]) ++ heard ++ _ = _
    rw [replyOwners_append_singleton]
    simp only [List.append_assoc]
    rfl
  refine ⟨?_, ?_, ?_, h.right, h.held⟩
  · rw [hout]
    exact h.count
  · rw [hout]
    exact h.ring
  · rw [hout]
    exact h.order

theorem Asking.Ok.answers {s : Asking} (h : s.Ok all) : s.answers.Ok all := by
  unfold Asking.answers
  cases hheard : s.heard with
  | nil => exact h
  | cons o rest => exact h.emit (by rw [hheard]; rfl)

theorem Asking.Ok.sends {s : Asking} (h : s.Ok all) (tag : Tag) : (s.sends tag).Ok all := by
  unfold Asking.sends
  split
  · exact h
  · next hother => exact h.emit (by rw [if_neg hother, List.nil_append])

theorem Asking.Ok.step {s : Asking} {m : Moment} (h : s.Ok all) (hfits : s.RingFits m) :
    (s.step m).Ok (all ++ s.relay.asks m) := by
  cases m with
  | read i frames bad => exact Asking.Ok.clientToCard h hfits
  | accept uid =>
      rw [show s.relay.asks (.accept uid) = [] from rfl, List.append_nil]
      exact h.quiet (Relay.quiet_acceptClient uid _)
  | reap i =>
      rw [show s.relay.asks (.reap i) = [] from rfl, List.append_nil]
      exact h.quiet (Relay.quiet_reapClient i _)
  | pick =>
      rw [show s.relay.asks .pick = [] from rfl, List.append_nil]
      exact h.quiet (Relay.quiet_pickHolder h.held)
  | deliver ok =>
      rw [show s.relay.asks (.deliver ok) = [] from rfl, List.append_nil]
      exact Asking.Ok.deliver h ok
  | cardTakes =>
      rw [show s.relay.asks .cardTakes = [] from rfl, List.append_nil]
      exact h.takes
  | cardAnswers =>
      rw [show s.relay.asks .cardAnswers = [] from rfl, List.append_nil]
      exact h.answers
  | cardSends tag =>
      rw [show s.relay.asks (.cardSends tag) = [] from rfl, List.append_nil]
      exact h.sends tag

end

/-! ## whole runs -/

theorem Asking.Ok.run {s : Asking} {ms : List Moment} {all : List Nat} (h : s.Ok all)
    (hfits : Along Asking.step Asking.RingFits s ms) :
    (Phi.run Asking.step s ms).Ok (all ++ asked s ms) := by
  induction ms generalizing s all with
  | nil =>
      unfold asked
      rw [List.append_nil]
      exact h
  | cons m ms ih =>
      unfold asked
      rw [← List.append_assoc]
      exact ih (h.step hfits.1) hfits.2

/-- **The n-th answer reaches the n-th asker**, or nobody when it has gone, in
every run in which no entry of the ring is overwritten that another client
waits for. -/
theorem stats_in_order (serveOwner : Nat) (ms : List Moment)
    (h : Along Asking.step Asking.RingFits (Asking.opened serveOwner) ms) :
    (run Asking.step (Asking.opened serveOwner) ms).relay.answeredStats <+:
        asked (Asking.opened serveOwner) ms ∧
      (run Asking.step (Asking.opened serveOwner) ms).relay.StatsRight := by
  have hok := (Asking.ok_opened serveOwner).run h
  rw [List.nil_append] at hok
  exact ⟨⟨_, hok.order⟩, hok.right⟩

/-! ## examples of runs -/

/-- Two clients ask in turn; the first is gone when the answers come. -/
def askTwice : List Moment :=
  [.accept 0, .accept 0, .read 0 [⟨.stat, 0⟩] false, .read 1 [⟨.stat, 0⟩] false,
    .read 0 [⟨.stat, 0⟩] true, .reap 0, .cardTakes, .cardTakes, .cardAnswers, .cardSends .pong,
    .cardAnswers, .deliver true, .deliver true, .deliver true]

theorem stats_in_order_twice :
    (run Asking.step (Asking.opened 0) askTwice).relay.answeredStats <+:
        asked (Asking.opened 0) askTwice ∧
      (run Asking.step (Asking.opened 0) askTwice).relay.StatsRight :=
  stats_in_order 0 askTwice (by decide)

/-- A client that asks 64 times, another once, and the first answer. -/
def askOften : List Moment :=
  [.accept 0, .accept 0, .read 0 (List.replicate 64 ⟨.stat, 0⟩) false,
    .read 1 [⟨.stat, 0⟩] false, .cardTakes, .cardAnswers, .deliver true]

/-- The 65th question takes the place of the first, whose answer goes to the
wrong client. -/
theorem first_answer_astray :
    (asked (Asking.opened 0) askOften).head? = some 1 ∧
      (run Asking.step (Asking.opened 0) askOften).relay.delivered =
        [⟨.statReply, 1, some 2, true⟩] ∧
      ¬ (run Asking.step (Asking.opened 0) askOften).relay.StatsRight := by
  have hdel : (run Asking.step (Asking.opened 0) askOften).relay.delivered =
      [⟨.statReply, 1, some 2, true⟩] := by decide +kernel
  refine ⟨by decide +kernel, hdel, fun h => ?_⟩
  have hright := h _ (by rw [hdel]; exact List.mem_cons_self) rfl
  exact absurd hright (by decide)

end Phi.Serve
