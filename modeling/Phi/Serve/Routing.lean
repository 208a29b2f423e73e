import Phi.Lib.Run
import Phi.Serve.Relay

/-!
# Phi.Serve.Routing

Whom the answers of the card reach.

A frame of the card goes to whoever holds the card when it comes.  That is the
client it is for as long as everything still to be answered is the holder's, or
a departed client's while nobody holds the card.  A release of the card keeps
this only if nothing else is left to be answered: a client that sends a second
request behind its first leaves the answer to the next holder.
-/

namespace Phi.Serve

/-! ## the property -/

/-- An answer reaches the client it is for while that is there, and otherwise
nobody. -/
def Delivery.Right (d : Delivery) : Prop :=
  d.tag = .statReply ∨ d.recipient = if d.present then some d.owner else none

/-- Every frame of the card was disposed of right. -/
def Relay.Routed (s : Relay) : Prop := ∀ d ∈ s.delivered, d.Right

/-! ## what is still to be answered -/

/-- A frame the agent answers when it reads it outside a session. -/
def Sent.answerable (f : Sent) : Bool :=
  f.tag ≠ .stdin ∧ f.tag ≠ .stdinEof ∧ f.tag ≠ .putData ∧ f.tag ≠ .putClose ∧ f.tag ≠ .stat

/-- Whose session runs, whose requests are on their way to the card and whose
answers on their way from it. -/
def Relay.unanswered (s : Relay) : List Nat :=
  (s.agent.map Prod.snd).toList ++ (s.toCard.filter Sent.answerable).map Sent.owner ++
    (s.fromCard.filter fun r => r.tag ≠ .statReply).map Reply.owner

/-- The card is given up only when nothing else is left to be answered: when a
session ends, and when a holder without one is reaped. -/
def Relay.ReleasesClear (s : Relay) : Event → Prop
  | .deliver _ => ∀ r ∈ s.fromCard.head?, r.tag.terminal = true →
      ({ s with fromCard := s.fromCard.tail } : Relay).unanswered = []
  | .reap i => ∀ c ∈ s.slots[i]?.join, c.dead = true → c.id = s.holder →
      s.session = .none → s.unanswered = []
  | _ => True

instance (s : Relay) : ∀ e, Decidable (s.ReleasesClear e)
  | .deliver _ => inferInstanceAs (Decidable (∀ _ ∈ _, _ → _))
  | .reap _ => inferInstanceAs (Decidable (∀ _ ∈ _, _ → _ → _ → _))
  | .accept _ | .read _ _ _ | .pick | .agentTake _ | .agentOutput _ =>
      inferInstanceAs (Decidable True)

/-! ## clients by id -/

/-- The ids in the slots. -/
def Relay.ids (s : Relay) : List (Option Nat) := s.slots.map (Option.map Client.id)

theorem Relay.clientById_isSome (s : Relay) (o : Nat) :
    (s.clientById o).isSome = true ↔ some o ∈ s.ids := by
  unfold clientById ids
  rw [List.findIdx?_isSome, List.any_eq_true, List.mem_map]
  constructor
  · intro ⟨x, hx, hid⟩
    cases x with
    | none => cases hid
    | some c =>
        refine ⟨some c, hx, ?_⟩
        simp only [hasId, decide_eq_true_eq] at hid
        rw [Option.map_some, hid]
  · intro ⟨x, hx, hid⟩
    cases x with
    | none => cases hid
    | some c =>
        refine ⟨some c, hx, ?_⟩
        simpa [hasId] using hid

/-- A slot rewritten for the same client leaves the ids. -/
theorem ids_setSlot {s : Relay} {i : Nat} {c d : Client} (h : s.slots[i]? = some (some c))
    (hid : d.id = c.id) : (s.setSlot i (some d)).ids = s.ids := by
  obtain ⟨hlt, hc⟩ := List.getElem?_eq_some_iff.mp h
  unfold Relay.ids Relay.setSlot
  rw [List.map_set, Option.map_some, hid]
  apply List.ext_getElem
  · simp
  · intro j h1 h2
    rw [List.getElem_set]
    split
    · next heq =>
        subst heq
        simp [hc]
    · rfl

theorem ids_markDead (s : Relay) (i : Nat) : (s.markDead i).ids = s.ids := by
  unfold Relay.markDead
  split
  · next c hc => exact ids_setSlot hc rfl
  · rfl

/-! ## the invariant -/

/-- Everything still to be answered is the holder's, or a departed client's
while nobody holds the card; nothing is when nobody has it. -/
structure Relay.Ok (s : Relay) : Prop where
  owned : ∀ o ∈ s.unanswered, o = s.holder ∨ (s.holder = 0 ∧ some o ∉ s.ids)
  idle : s.holder = 0 → s.session = .none → s.unanswered = []
  known : ∀ o ∈ s.unanswered, o ≤ s.nextId
  ids_pos : ∀ o, some o ∈ s.ids → 0 < o ∧ o ≤ s.nextId
  unique : ∀ (i j o : Nat), s.ids[i]? = some (some o) → s.ids[j]? = some (some o) → i = j
  right : s.Routed

/-- A step that at most takes away from what is to be answered. -/
structure Relay.Shrinks (s t : Relay) : Prop where
  ids : t.ids = s.ids
  holder : t.holder = s.holder
  session : t.session = s.session
  nextId : t.nextId = s.nextId
  delivered : t.delivered = s.delivered
  unanswered : t.unanswered ⊆ s.unanswered

theorem Relay.Shrinks.trans {s t u : Relay} (h1 : s.Shrinks t) (h2 : t.Shrinks u) :
    s.Shrinks u :=
  ⟨h2.ids.trans h1.ids, h2.holder.trans h1.holder, h2.session.trans h1.session,
    h2.nextId.trans h1.nextId, h2.delivered.trans h1.delivered,
    List.Subset.trans h2.unanswered h1.unanswered⟩

theorem Relay.Ok.shrink {s t : Relay} (h : s.Ok) (hst : s.Shrinks t) : t.Ok where
  owned o ho := by
    rw [hst.holder, hst.ids]
    exact h.owned o (hst.unanswered ho)
  idle hh hs := by
    rw [hst.holder] at hh
    rw [hst.session] at hs
    have hnil := h.idle hh hs
    exact List.subset_nil.mp (hnil ▸ hst.unanswered)
  known o ho := by
    rw [hst.nextId]
    exact h.known o (hst.unanswered ho)
  ids_pos o ho := by
    rw [hst.ids] at ho
    rw [hst.nextId]
    exact h.ids_pos o ho
  unique i j o hi hj := by
    rw [hst.ids] at hi hj
    exact h.unique i j o hi hj
  right d hd := by
    rw [hst.delivered] at hd
    exact h.right d hd

theorem Relay.shrinks_markDead (s : Relay) (i : Nat) : s.Shrinks (s.markDead i) := by
  refine ⟨ids_markDead s i, ?_, ?_, ?_, ?_, ?_⟩
  all_goals
    unfold markDead
    split
  all_goals first | rfl | exact List.Subset.refl _

section step

variable {s : Relay}

/-! ## clients to the card -/

theorem Relay.unanswered_frameToCard (o : Nat) (tag : Tag) (s : Relay) :
    ∀ p ∈ (s.frameToCard o tag).unanswered, p ∈ s.unanswered ∨
      (p = o ∧ Sent.answerable ⟨tag, o⟩ = true) := by
  intro p hp
  simp only [unanswered, frameToCard, List.filter_append, List.map_append, List.mem_append] at hp ⊢
  obtain (ha | ht | hn) | hf := hp
  · exact .inl (.inl (.inl ha))
  · exact .inl (.inl (.inr ht))
  · by_cases hans : Sent.answerable ⟨tag, o⟩ = true
    · rw [List.filter_cons_of_pos hans] at hn
      exact .inr ⟨by simpa using hn, hans⟩
    · rw [List.filter_cons_of_neg hans] at hn
      simp at hn
  · exact .inl (.inr hf)

/-- The holder's frame goes to the card. -/
theorem Relay.Ok.forwardFrame (h : s.Ok) (hpos : s.holder ≠ 0) (hle : s.holder ≤ s.nextId)
    (tag : Tag) : (s.forwardFrame s.holder tag).Ok :=
  have hun : ∀ p ∈ (s.forwardFrame s.holder tag).unanswered,
      p ∈ s.unanswered ∨ p = s.holder := by
    intro p hp
    obtain hold | ⟨heq, -⟩ := unanswered_frameToCard _ _ _ p hp
    · exact .inl hold
    · exact .inr heq
  { owned := by
      intro o ho
      obtain hold | heq := hun o ho
      · exact h.owned o hold
      · exact .inl heq
    idle := fun hh => absurd hh hpos
    known := by
      intro o ho
      obtain hold | heq := hun o ho
      · exact h.known o hold
      · rw [heq]
        exact hle
    ids_pos := h.ids_pos
    unique := h.unique
    right := h.right }

/-- A client's frame is answered here, sent past the session, forwarded if the
client holds the card, or held. -/
theorem Relay.Ok.handleFrame (h : s.Ok) (i : Nat) (f : Frame) : (s.handleFrame i f).Ok := by
  unfold Relay.handleFrame
  split
  · next c hc =>
      have hmem : some c.id ∈ s.ids := List.mem_map.mpr ⟨some c, List.mem_of_getElem? hc, rfl⟩
      obtain ⟨hpos, hle⟩ := h.ids_pos c.id hmem
      split
      · exact h
      · split
        · refine h.shrink ⟨rfl, rfl, rfl, rfl, rfl, ?_⟩
          intro p hp
          obtain hold | ⟨-, hans⟩ := unanswered_frameToCard c.id .stat s p hp
          · exact hold
          · simp [Sent.answerable] at hans
        · split
          · next hholder =>
              rw [hholder] at hpos hle ⊢
              exact h.forwardFrame (by omega) hle f.tag
          · split
            · exact h.shrink ⟨ids_setSlot hc rfl, rfl, rfl, rfl, rfl, List.Subset.refl _⟩
            · exact h.shrink ⟨ids_setSlot hc rfl, rfl, rfl, rfl, rfl, List.Subset.refl _⟩
  · exact h

theorem Relay.Ok.clientToCard (h : s.Ok) (i : Nat) (frames : List Frame) (bad : Bool) :
    (s.clientToCard i frames bad).Ok := by
  have hfold : (frames.foldl (Relay.handleFrame i) s).Ok :=
    run_inv_all (fun t f ht => ht.handleFrame i f) h frames
  unfold Relay.clientToCard
  split
  · split
    · dsimp only
      split
      · exact hfold.shrink (shrinks_markDead _ i)
      · exact hfold
    · exact h
  · exact h

theorem Relay.mem_ids_set {i : Nat} {x : Option Nat} {o : Nat} (h : some o ∈ s.ids.set i x) :
    some o ∈ s.ids ∨ x = some o := by
  obtain hold | hnew := List.mem_or_eq_of_mem_set h
  · exact .inl hold
  · exact .inr hnew.symm

/-- A new client's id is nobody's. -/
theorem Relay.Ok.enter {t : Relay} (h : s.Ok) {i : Nat}
    (hids : t.ids = s.ids.set i (some (s.nextId + 1))) (hnext : t.nextId = s.nextId + 1)
    (hun : t.unanswered = s.unanswered) (hholder : t.holder = s.holder)
    (hsess : t.session = s.session) (hdel : t.delivered = s.delivered) : t.Ok where
  owned o ho := by
    rw [hun] at ho
    rw [hholder, hids]
    obtain heq | ⟨hh, hgone⟩ := h.owned o ho
    · exact .inl heq
    · refine .inr ⟨hh, fun hin => ?_⟩
      obtain hold | hnew := mem_ids_set hin
      · exact hgone hold
      · have := h.known o ho
        cases hnew
        omega
  idle hh hs := by
    rw [hholder] at hh
    rw [hsess] at hs
    rw [hun]
    exact h.idle hh hs
  known o ho := by
    rw [hun] at ho
    have := h.known o ho
    omega
  ids_pos o ho := by
    rw [hids] at ho
    obtain hold | hnew := mem_ids_set ho
    · have := h.ids_pos o hold
      omega
    · cases hnew
      omega
  unique j k o hj hk := by
    rw [hids, List.getElem?_set] at hj hk
    have hfresh : ∀ m : Nat, s.ids[m]? ≠ some (some (s.nextId + 1)) := by
      intro m hm
      have := h.ids_pos _ (List.mem_of_getElem? hm)
      omega
    grind [h.unique j k o]
  right d hd := by
    rw [hdel] at hd
    exact h.right d hd

theorem Relay.Ok.acceptClient (h : s.Ok) (uid : Nat) : (s.acceptClient uid).Ok := by
  unfold Relay.acceptClient
  split
  · exact h
  · split
    · exact h
    · split
      · exact h
      · next i hi => exact h.enter (i := i) List.map_set rfl rfl rfl rfl rfl

/-! ## the holder comes and goes -/

/-- A slot emptied. -/
theorem ids_setSlot_none (s : Relay) (i : Nat) : (s.setSlot i none).ids = s.ids.set i none := by
  unfold Relay.ids Relay.setSlot
  rw [List.map_set, Option.map_none]

/-- One place less holds an id. -/
theorem Relay.getElem?_ids_set_none {i k o : Nat} (h : (s.ids.set i none)[k]? = some (some o)) :
    k ≠ i ∧ s.ids[k]? = some (some o) := by
  rw [List.getElem?_set] at h
  split at h
  · split at h
    · cases h
    · cases h
  · next hne => exact ⟨fun heq => hne heq.symm, h⟩

/-- A client that does not hold the card leaves. -/
theorem Relay.Ok.leave (h : s.Ok) (i : Nat) (n : Nat) :
    ({ s.setSlot i none with nclients := n } : Relay).Ok :=
  have hids : ({ s.setSlot i none with nclients := n } : Relay).ids = s.ids.set i none :=
    ids_setSlot_none s i
  have hmem : ∀ o, some o ∈ s.ids.set i none → some o ∈ s.ids := by
    intro o ho
    obtain hold | hnew := mem_ids_set ho
    · exact hold
    · cases hnew
  { owned := by
      intro o ho
      rw [hids]
      obtain heq | ⟨hh, hgone⟩ := h.owned o ho
      · exact .inl heq
      · exact .inr ⟨hh, fun hin => hgone (hmem o hin)⟩
    idle := h.idle
    known := h.known
    ids_pos := by
      intro o ho
      rw [hids] at ho
      exact h.ids_pos o (hmem o ho)
    unique := by
      intro j k o hj hk
      rw [hids] at hj hk
      exact h.unique j k o (getElem?_ids_set_none hj).2 (getElem?_ids_set_none hk).2
    right := h.right }

/-- The holder leaves: what is still to be answered is a departed client's now. -/
theorem Relay.Ok.depart {t : Relay} (h : s.Ok) {i : Nat}
    (hat : s.ids[i]? = some (some s.holder)) (hids : t.ids = s.ids.set i none)
    (hholder : t.holder = 0) (hnext : t.nextId = s.nextId) (hun : t.unanswered ⊆ s.unanswered)
    (hidle : t.session = .none → s.unanswered = []) (hdel : t.delivered = s.delivered) :
    t.Ok where
  owned o ho := by
    refine .inr ⟨hholder, fun hin => ?_⟩
    rw [hids] at hin
    obtain ⟨k, hk⟩ := List.mem_iff_getElem?.mp hin
    obtain ⟨hne, hk⟩ := getElem?_ids_set_none hk
    obtain heq | ⟨h0, -⟩ := h.owned o (hun ho)
    · rw [heq] at hk
      exact hne (h.unique k i s.holder hk hat)
    · have := h.ids_pos s.holder (List.mem_of_getElem? hat)
      omega
  idle _ hs := List.subset_nil.mp (hidle hs ▸ hun)
  known o ho := by
    rw [hnext]
    exact h.known o (hun ho)
  ids_pos o ho := by
    rw [hids] at ho
    obtain ⟨k, hk⟩ := List.mem_iff_getElem?.mp ho
    rw [hnext]
    exact h.ids_pos o (List.mem_of_getElem? (getElem?_ids_set_none hk).2)
  unique j k o hj hk := by
    rw [hids] at hj hk
    exact h.unique j k o (getElem?_ids_set_none hj).2 (getElem?_ids_set_none hk).2
  right d hd := by
    rw [hdel] at hd
    exact h.right d hd

/-- The frame that closes what a departed client left open asks for no answer. -/
theorem Relay.unanswered_close {tag : Tag} (o : Nat) (s : Relay)
    (htag : Sent.answerable ⟨tag, o⟩ = false) :
    (s.frameToCard o tag).unanswered ⊆ s.unanswered := by
  intro p hp
  obtain hold | ⟨-, hans⟩ := unanswered_frameToCard o tag s p hp
  · exact hold
  · rw [htag] at hans
    cases hans

theorem Relay.Ok.reapClient (h : s.Ok) (i : Nat) (hclear : s.ReleasesClear (.reap i)) :
    (s.reapClient i).Ok := by
  unfold Relay.reapClient
  split
  · next c hc =>
      split
      · exact h
      · next hdead =>
          dsimp only
          split
          · next hh =>
              have hat : s.ids[i]? = some (some s.holder) := by
                unfold Relay.ids
                rw [List.getElem?_map, hc, ← hh]
                rfl
              have hidle : s.session = .none → s.unanswered = [] :=
                hclear c (by rw [hc]; rfl) (by simpa using hdead) hh
              have hids := ids_setSlot_none s i
              split
              · exact h.depart hat hids rfl rfl
                  (unanswered_close c.id { s with holder := 0 } rfl) nofun rfl
              · exact h.depart hat hids rfl rfl
                  (unanswered_close c.id { s with holder := 0 } rfl) nofun rfl
              · exact h.depart hat hids rfl rfl (List.Subset.refl _) hidle rfl
          · exact h.leave i _
  · exact h

/-- A client gets the card when nothing is left to be answered. -/
theorem Relay.Ok.grant (h : s.Ok) {o : Nat} (hnil : s.unanswered = []) (hpos : 0 < o) :
    ({ s with holder := o } : Relay).Ok where
  owned p hp := by
    change p ∈ s.unanswered at hp
    rw [hnil] at hp
    cases hp
  idle hh := absurd hh (Nat.ne_of_gt hpos)
  known := h.known
  ids_pos := h.ids_pos
  unique := h.unique
  right := h.right

/-- The card goes to a waiting client when nothing is left to be answered. -/
theorem Relay.Ok.pickHolder (h : s.Ok) : s.pickHolder.Ok := by
  unfold Relay.pickHolder
  split
  · exact h
  · next hfree =>
      rw [not_or, not_not, not_not] at hfree
      split
      · exact h
      · split
        · next c hc =>
            have hmem : some c.id ∈ s.ids :=
              List.mem_map.mpr ⟨some c, List.mem_of_getElem? hc, rfl⟩
            obtain ⟨hpos, hle⟩ := h.ids_pos c.id hmem
            have hnil := h.idle hfree.2 hfree.1
            have hkeep : ∀ (t : Relay) (f : Frame),
                t.Ok ∧ t.holder = c.id ∧ t.slots = s.slots ∧ t.nextId = s.nextId →
                (t.forwardFrame c.id f.tag).Ok ∧ (t.forwardFrame c.id f.tag).holder = c.id ∧
                  (t.forwardFrame c.id f.tag).slots = s.slots ∧
                  (t.forwardFrame c.id f.tag).nextId = s.nextId := by
              intro t f ⟨ht, hh, hslots, hnext⟩
              have hok := ht.forwardFrame (by omega) (by omega) f.tag
              rw [hh] at hok
              exact ⟨hok, hh, hslots, hnext⟩
            obtain ⟨hok, -, hslots, -⟩ := run_inv_all hkeep
              ⟨h.grant hnil hpos, rfl, rfl, rfl⟩ c.pending
            refine hok.shrink ⟨ids_setSlot (c := c) ?_ rfl, rfl, rfl, rfl, rfl,
              List.Subset.refl _⟩
            unfold run at hslots
            rw [hslots]
            exact hc
        · exact h

/-! ## the card to clients -/

theorem Relay.Ok.record (h : s.Ok) {r : Reply} {x : Option Nat}
    (hr : Delivery.Right ⟨r.tag, r.owner, x, (s.clientById r.owner).isSome⟩) :
    (s.record r x).Ok where
  owned := h.owned
  idle := h.idle
  known := h.known
  ids_pos := h.ids_pos
  unique := h.unique
  right d hd := by
    obtain hold | hnew := List.mem_append.mp hd
    · exact h.right d hold
    · rw [List.mem_singleton.mp hnew]
      exact hr

/-- Sending to the client an answer is for is right. -/
theorem Relay.Ok.sendTo (h : s.Ok) {id : Nat} {r : Reply} (ok : Bool)
    (hr : r.tag = .statReply ∨ r.owner = id) :
    (s.sendTo id r ok).Ok ∧ (s.sendTo id r ok).unanswered = s.unanswered := by
  unfold Relay.sendTo
  cases hid : s.clientById id with
  | none =>
      refine ⟨h.record ?_, rfl⟩
      obtain htag | howner := hr
      · exact .inl htag
      · right
        rw [howner, hid]
        rfl
  | some i =>
      have hok : (s.record r (some id)).Ok := by
        refine h.record ?_
        obtain htag | howner := hr
        · exact .inl htag
        · right
          rw [howner, hid]
          rfl
      dsimp only
      cases ok with
      | true => exact ⟨hok, rfl⟩
      | false =>
          refine ⟨hok.shrink (shrinks_markDead _ i), ?_⟩
          simp only [Bool.false_eq_true, if_false]
          unfold Relay.markDead
          split
          · rfl
          · rfl

/-- The card may be given up when nothing is left to be answered. -/
theorem Relay.Ok.release (h : s.Ok) (hnil : s.unanswered = []) :
    ({ s with session := .none, holder := 0 } : Relay).Ok where
  owned o ho := by
    change o ∈ s.unanswered at ho
    rw [hnil] at ho
    cases ho
  idle _ _ := hnil
  known := h.known
  ids_pos := h.ids_pos
  unique := h.unique
  right := h.right

/-- An answer taken from what comes from the card. -/
theorem Relay.shrinks_receive {r : Reply} {rest : List Reply} (h : s.fromCard = r :: rest) :
    s.Shrinks { s with fromCard := rest } := by
  refine ⟨rfl, rfl, rfl, rfl, rfl, ?_⟩
  intro p hp
  unfold Relay.unanswered at hp ⊢
  rw [h]
  simp only [List.mem_append, List.mem_map, List.mem_filter, List.mem_cons] at hp ⊢
  obtain hp | ⟨x, ⟨hx, ht⟩, heq⟩ := hp
  · exact .inl hp
  · exact .inr ⟨x, ⟨.inr hx, ht⟩, heq⟩

/-- An answer goes to the holder, whose it is, or to nobody. -/
theorem Relay.Ok.toHolder (h : s.Ok) {r : Reply} (ok : Bool)
    (howner : r.owner = s.holder ∨ (s.holder = 0 ∧ some r.owner ∉ s.ids)) :
    (if s.holder = 0 then s.record r none else s.sendTo s.holder r ok).Ok ∧
      (if s.holder = 0 then s.record r none else s.sendTo s.holder r ok).unanswered =
        s.unanswered := by
  by_cases hh : s.holder = 0
  · rw [if_pos hh]
    refine ⟨h.record (.inr ?_), rfl⟩
    have hgone : some r.owner ∉ s.ids := by
      obtain heq | ⟨-, hgone⟩ := howner
      · intro hin
        have := h.ids_pos r.owner hin
        omega
      · exact hgone
    have hnone : (s.clientById r.owner).isSome = false := by
      rw [← Bool.not_eq_true, Relay.clientById_isSome]
      exact hgone
    rw [hnone]
    rfl
  · rw [if_neg hh]
    obtain heq | ⟨h0, -⟩ := howner
    · exact h.sendTo ok (.inr heq)
    · exact absurd h0 hh

theorem Relay.Ok.deliver (h : s.Ok) (ok : Bool) (hclear : s.ReleasesClear (.deliver ok)) :
    (s.deliver ok).Ok := by
  unfold Relay.deliver
  cases hc : s.fromCard with
  | nil => exact h
  | cons r rest =>
      have h1 := h.shrink (shrinks_receive hc)
      dsimp only
      by_cases hstat : r.tag = .statReply
      · rw [if_pos hstat]
        split
        · exact h1.record (.inl hstat)
        · have h2 := h1.shrink (t := { s with fromCard := rest, statQh := s.statQh + 1 })
            ⟨rfl, rfl, rfl, rfl, rfl, List.Subset.refl _⟩
          exact (h2.sendTo ok (.inl hstat)).1
      · rw [if_neg hstat]
        have howner : r.owner ∈ s.unanswered := by
          unfold Relay.unanswered
          rw [hc]
          simp [hstat]
        obtain ⟨h2, hun⟩ := h1.toHolder ok (h.owned r.owner howner)
        split
        · next hterm =>
            refine h2.release ?_
            unfold Relay.ReleasesClear at hclear
            rw [hc] at hclear
            exact hun.trans (hclear r rfl hterm)
        · exact h2

/-! ## the agent -/

theorem Relay.Shrinks.refl (s : Relay) : s.Shrinks s :=
  ⟨rfl, rfl, rfl, rfl, rfl, List.Subset.refl _⟩

theorem Relay.mem_unanswered_agent {task : Task} {o : Nat} (h : s.agent = some (task, o)) :
    o ∈ s.unanswered := by
  simp [unanswered, h]

theorem Relay.mem_unanswered_toCard {f : Sent} {rest : List Sent} (h : s.toCard = f :: rest)
    (hf : f.answerable = true) : f.owner ∈ s.unanswered := by
  simp [unanswered, h, hf]

theorem Relay.shrinks_take {f : Sent} {rest : List Sent} (h : s.toCard = f :: rest) :
    s.Shrinks { s with toCard := rest } := by
  refine ⟨rfl, rfl, rfl, rfl, rfl, ?_⟩
  intro p hp
  simp only [unanswered, h, List.mem_append, List.mem_map, List.mem_filter, List.mem_cons] at hp ⊢
  obtain (ha | ⟨x, ⟨hx, hans⟩, heq⟩) | hf := hp
  · exact .inl (.inl ha)
  · exact .inl (.inr ⟨x, ⟨.inr hx, hans⟩, heq⟩)
  · exact .inr hf

theorem Relay.Shrinks.idle {t : Relay} (h : s.Shrinks t) :
    s.Shrinks { t with agent := none } := by
  refine ⟨h.ids, h.holder, h.session, h.nextId, h.delivered, ?_⟩
  intro p hp
  refine h.unanswered ?_
  simp only [Relay.unanswered, Option.map_none, Option.toList_none, List.nil_append,
    List.mem_append] at hp ⊢
  obtain ht | hf := hp
  · exact .inl (.inr ht)
  · exact .inr hf

/-- An answer takes the place of what it answers. -/
theorem Relay.Shrinks.emit {t : Relay} (h : s.Shrinks t) {tag : Tag} {o : Nat}
    (ho : tag = .statReply ∨ o ∈ s.unanswered) : s.Shrinks (t.emit tag o) := by
  refine ⟨h.ids, h.holder, h.session, h.nextId, h.delivered, ?_⟩
  intro p hp
  simp only [Relay.unanswered, Relay.emit, List.filter_append, List.map_append,
    List.mem_append] at hp
  obtain hold | hf | hnew := hp
  · exact h.unanswered (List.mem_append_left _ (List.mem_append.mpr hold))
  · exact h.unanswered (List.mem_append_right _ hf)
  · obtain htag | hmem := ho
    · simp [htag] at hnew
    · simp only [List.mem_map, List.mem_filter, List.mem_singleton] at hnew
      obtain ⟨x, ⟨rfl, -⟩, rfl⟩ := hnew
      exact hmem

theorem Relay.Shrinks.startTask {t : Relay} (h : s.Shrinks t) {o : Nat} (ho : o ∈ s.unanswered)
    (task : Task) (ok : Bool) : s.Shrinks (t.startTask task o ok) := by
  unfold Relay.startTask
  split
  · refine ⟨h.ids, h.holder, h.session, h.nextId, h.delivered, ?_⟩
    intro p hp
    simp only [Relay.unanswered, Option.map_some, Option.toList_some, List.mem_append,
      List.mem_singleton] at hp
    obtain (heq | ht) | hf := hp
    · rw [heq]
      exact ho
    · exact h.unanswered (List.mem_append_left _ (List.mem_append_right _ ht))
    · exact h.unanswered (List.mem_append_right _ hf)
  · exact h.emit (.inr ho)

/-- What the agent reads is answered or comes to nothing. -/
theorem Relay.shrinks_agentTake (s : Relay) (ok : Bool) : s.Shrinks (s.agentTake ok) := by
  unfold agentTake
  cases hc : s.toCard with
  | nil => exact .refl s
  | cons f rest =>
      have htake := shrinks_take hc
      have hmem := mem_unanswered_toCard hc
      dsimp only
      split
      · -- outside a session
        obtain ⟨tag, owner⟩ := f
        cases tag with
        | exec => exact htake.startTask (hmem rfl) .exec ok
        | putOpen => exact htake.startTask (hmem rfl) .put ok
        | get => exact htake.startTask (hmem rfl) .get ok
        | ping => exact htake.emit (.inr (hmem rfl))
        | stat => exact htake.emit (.inl rfl)
        | stdin | stdinEof | putData | putClose => exact htake
        | stdout | stderr | exit | getData | getEnd | error | pong | sensors | sensorsReply
        | statReply | traffic | trafficReply => exact htake.emit (.inr (hmem rfl))
      · next task o ha =>
          have ho := mem_unanswered_agent ha
          split
          · exact htake.emit (.inl rfl)
          · split
            · split
              · exact htake
              · exact htake.idle.emit (.inr ho)
            · split
              · exact htake.idle.emit (.inr ho)
              · exact htake

theorem Relay.shrinks_agentOutput (s : Relay) (tag : Tag) : s.Shrinks (s.agentOutput tag) := by
  unfold agentOutput
  split
  · next o ha =>
      have ho := mem_unanswered_agent ha
      split
      · exact (Shrinks.refl s).emit (.inr ho)
      · split
        · exact (Shrinks.refl s).idle.emit (.inr ho)
        · exact .refl s
  · next o ha =>
      have ho := mem_unanswered_agent ha
      split
      · exact (Shrinks.refl s).emit (.inr ho)
      · split
        · exact (Shrinks.refl s).idle.emit (.inr ho)
        · exact .refl s
  · exact .refl s

end step

/-! ## whole runs -/

theorem Relay.Ok.step {s : Relay} {e : Event} (h : s.Ok) (hclear : s.ReleasesClear e) :
    (s.step e).Ok := by
  cases e with
  | accept uid => exact h.acceptClient uid
  | read i frames bad => exact h.clientToCard i frames bad
  | reap i => exact h.reapClient i hclear
  | pick => exact h.pickHolder
  | deliver ok => exact h.deliver ok hclear
  | agentTake ok => exact h.shrink (s.shrinks_agentTake ok)
  | agentOutput tag => exact h.shrink (s.shrinks_agentOutput tag)

theorem Relay.ok_opened (serveOwner : Nat) : (Relay.opened serveOwner).Ok :=
  have hids : (Relay.opened serveOwner).ids = List.replicate maxClients none :=
    List.map_replicate
  have hnone : ∀ o, some o ∉ (Relay.opened serveOwner).ids := by
    intro o ho
    rw [hids] at ho
    cases (List.mem_replicate.mp ho).2
  { owned := by simp [unanswered, opened]
    idle := fun _ _ => rfl
    known := by simp [unanswered, opened]
    ids_pos := fun o ho => absurd ho (hnone o)
    unique := fun _ _ o hi => absurd (List.mem_of_getElem? hi) (hnone o)
    right := by
      intro d hd
      cases hd }

/-- **Answers reach their askers** in every run in which the card is given up
only when nothing else is left to be answered. -/
theorem answers_routed (serveOwner : Nat) (es : List Event)
    (h : Along Relay.step Relay.ReleasesClear (Relay.opened serveOwner) es) :
    (run Relay.step (Relay.opened serveOwner) es).Routed := by
  have hstep : ∀ (s : Relay) (e : Event), s.Ok → s.ReleasesClear e → (s.step e).Ok :=
    fun s e hs he => hs.step he
  exact (run_inv hstep (Relay.ok_opened serveOwner) h).right

/-! ## examples of runs -/

/-- One client after the other asks for the agent's version. -/
def inTurn : List Event :=
  [.accept 0, .accept 0, .read 0 [⟨.ping, 0⟩] false, .read 1 [⟨.ping, 0⟩] false, .pick,
    .agentTake true, .deliver true, .pick, .agentTake true, .deliver true]

theorem answers_routed_inTurn :
    (run Relay.step (Relay.opened 1000) inTurn).Routed :=
  answers_routed 1000 inTurn (by decide)

/-- The first client asks twice in one read. -/
def askedTwice : List Event :=
  [.accept 0, .accept 0, .read 0 [⟨.ping, 0⟩, ⟨.ping, 0⟩] false, .read 1 [⟨.ping, 0⟩] false,
    .pick, .agentTake true, .deliver true, .pick, .agentTake true, .deliver true]

/-- The second answer reaches the other client: the first gave up the card. -/
theorem second_answer_astray :
    (run Relay.step (Relay.opened 1000) askedTwice).delivered =
        [⟨.pong, 1, some 1, true⟩, ⟨.pong, 1, some 2, true⟩] ∧
      ¬ (run Relay.step (Relay.opened 1000) askedTwice).Routed := by
  have hdel : (run Relay.step (Relay.opened 1000) askedTwice).delivered =
      [⟨.pong, 1, some 1, true⟩, ⟨.pong, 1, some 2, true⟩] := by decide
  refine ⟨hdel, ?_⟩
  intro h
  obtain hstat | hright := h ⟨.pong, 1, some 2, true⟩ (by rw [hdel]; simp)
  · cases hstat
  · exact absurd hright (by decide)

end Phi.Serve
