import Phi.Serve.Routing

/-!
# Phi.Serve.Holding

What the card is held for.

A client holds the card while its session runs or a request of it is to be
answered; the frame that ends the session frees the card.  `pick_holder` gives
the card to whoever has frames waiting, though, and frames that outlived their
session ask for nothing: no answer comes for them, and none frees the card.
-/

namespace Phi.Serve

/-! ## answers to come -/

/-- Whose session runs, whose requests are on their way to the card, and whose
sessions' ends on their way from it. -/
def Relay.awaited (s : Relay) : List Nat :=
  (s.agent.map Prod.snd).toList ++ (s.toCard.filter Sent.answerable).map Sent.owner ++
    (s.fromCard.filter fun r => r.tag.terminal).map Reply.owner

/-- The holder has a session open, or a request not answered yet. -/
def Relay.HeldForSomething (s : Relay) : Prop :=
  s.holder ≠ 0 → s.session ≠ .none ∨ s.holder ∈ s.awaited

/-- Whoever gets the card has a request among the frames it held back, or its
session still runs; and no request of the holder is read by the card inside a
session that had already lost the card, where it is dropped. -/
def Relay.PicksRequest (s : Relay) : Event → Prop
  | .pick => s.session = .none → s.holder = 0 → ∀ i ∈ s.slots.findIdx? waits,
      ∀ c ∈ s.slots[i]?.join,
        (∃ f ∈ c.pending, Sent.answerable ⟨f.tag, c.id⟩ = true) ∨ c.id ∈ s.awaited
  | .agentTake _ => s.session = .none → ∀ f ∈ s.toCard.head?, f.answerable = true →
      f.owner = s.holder → ∀ a ∈ s.agent, a.2 = s.holder
  | _ => True

instance (s : Relay) : ∀ e, Decidable (s.PicksRequest e)
  | .pick => inferInstanceAs (Decidable (_ → _ → ∀ _ ∈ _, ∀ _ ∈ _, _))
  | .agentTake _ => inferInstanceAs (Decidable (_ → ∀ _ ∈ _, _ → _ → ∀ _ ∈ _, _))
  | .accept _ | .read _ _ _ | .reap _ | .deliver _ | .agentOutput _ =>
      inferInstanceAs (Decidable True)

/-- The card is held for something, and a session is open only while an answer
is to come. -/
structure Relay.Busy (s : Relay) : Prop where
  held : s.HeldForSomething
  session : s.session ≠ .none → s.awaited ≠ []

section

variable {s t : Relay}

theorem Relay.mem_awaited {o : Nat} : o ∈ s.awaited ↔ (∃ task, s.agent = some (task, o)) ∨
    (∃ f ∈ s.toCard, f.answerable = true ∧ f.owner = o) ∨
    ∃ r ∈ s.fromCard, r.tag.terminal = true ∧ r.owner = o := by
  unfold awaited
  simp only [List.mem_append, Option.mem_toList, Option.map_eq_some_iff, Prod.exists, List.mem_map,
    List.mem_filter, and_assoc, exists_eq_right, or_assoc]

/-- Whatever keeps the answers to come keeps the card held for something. -/
theorem Relay.Busy.keep (h : s.Busy) (hholder : t.holder = s.holder ∨ t.holder = 0)
    (hsession : t.session = .none ↔ s.session = .none)
    (hmine : s.holder ∈ s.awaited → s.session = .none → t.holder ≠ 0 → s.holder ∈ t.awaited)
    (hsome : s.awaited ≠ [] → t.awaited ≠ []) : t.Busy where
  held hne := by
    obtain heq | h0 := hholder
    · rw [heq] at hne ⊢
      by_cases hs : s.session = .none
      · obtain hopen | hmem := h.held hne
        · exact absurd hs hopen
        · exact .inr (hmine hmem hs (heq ▸ hne))
      · exact .inl fun hc => hs (hsession.mp hc)
    · exact absurd h0 hne
  session hs := hsome (h.session fun hc => hs (hsession.mpr hc))

/-- The same with nothing taken away. -/
theorem Relay.Busy.grow (h : s.Busy) (hholder : t.holder = s.holder ∨ t.holder = 0)
    (hsession : t.session = .none ↔ s.session = .none) (hsub : s.awaited ⊆ t.awaited) : t.Busy :=
  h.keep hholder hsession (fun hmem _ _ => hsub hmem) fun hne hnil =>
    hne (List.subset_nil.mp (hnil ▸ hsub))

theorem Relay.awaited_frameToCard (o : Nat) (tag : Tag) (s : Relay) :
    s.awaited ⊆ (s.frameToCard o tag).awaited ∧
      (Sent.answerable ⟨tag, o⟩ = true → o ∈ (s.frameToCard o tag).awaited) := by
  constructor
  · intro p hp
    rw [mem_awaited] at hp ⊢
    obtain ha | ⟨f, hf, hans⟩ | hr := hp
    · exact .inl ha
    · exact .inr (.inl ⟨f, List.mem_append_left _ hf, hans⟩)
    · exact .inr (.inr hr)
  · intro hans
    rw [mem_awaited]
    exact .inr (.inl ⟨⟨tag, o⟩, List.mem_append_right _ List.mem_cons_self, hans, rfl⟩)

/-- The session a forwarded frame leaves: what opens one is to be answered. -/
theorem Relay.session_forwardFrame (o : Nat) (tag : Tag) (s : Relay) :
    ((s.forwardFrame o tag).session = .none ↔ s.session = .none) ∨
      Sent.answerable ⟨tag, o⟩ = true := by
  cases tag with
  | exec | putOpen | get | ping => exact .inr rfl
  | stdinEof =>
      left
      show (if s.session = .execOpen then Session.execClosed else s.session) = .none ↔ _
      split
      · next hopen => simp [hopen]
      · rfl
  | putClose =>
      left
      show (if s.session = .putOpen then Session.putClosed else s.session) = .none ↔ _
      split
      · next hopen => simp [hopen]
      · rfl
  | _ => exact .inl Iff.rfl

/-- The holder's frames keep the card held for something. -/
theorem Relay.Busy.forwardFrame (h : s.Busy) (tag : Tag) :
    (s.forwardFrame s.holder tag).Busy := by
  obtain ⟨hsub, hmine⟩ := awaited_frameToCard s.holder tag s
  obtain hsession | hans := session_forwardFrame s.holder tag s
  · exact h.grow (.inl rfl) hsession hsub
  · have hmem : s.holder ∈ (s.forwardFrame s.holder tag).awaited := hmine hans
    exact ⟨fun _ => .inr hmem, fun _ => List.ne_nil_of_mem hmem⟩

theorem Relay.Busy.handleFrame (h : s.Busy) (i : Nat) (f : Frame) : (s.handleFrame i f).Busy := by
  unfold Relay.handleFrame
  split
  · next c hc =>
      split
      · exact h
      · split
        · exact h.grow (.inl rfl) Iff.rfl (awaited_frameToCard c.id .stat s).1
        · split
          · next hh =>
              rw [hh]
              exact h.forwardFrame f.tag
          · split
            · exact h.grow (.inl rfl) Iff.rfl (List.Subset.refl _)
            · exact h.grow (.inl rfl) Iff.rfl (List.Subset.refl _)
  · exact h

/-- Marking a client changes none of it. -/
theorem Relay.markDead_same (s : Relay) (i : Nat) : (s.markDead i).holder = s.holder ∧
    (s.markDead i).session = s.session ∧ (s.markDead i).awaited = s.awaited := by
  unfold markDead
  split
  · exact ⟨rfl, rfl, rfl⟩
  · exact ⟨rfl, rfl, rfl⟩

theorem Relay.Busy.markDead (h : s.Busy) (i : Nat) : (s.markDead i).Busy := by
  obtain ⟨hholder, hsession, hawaited⟩ := markDead_same s i
  refine h.grow (.inl hholder) (by rw [hsession]) ?_
  rw [hawaited]
  exact List.Subset.refl _

theorem Relay.Busy.clientToCard (h : s.Busy) (i : Nat) (frames : List Frame) (bad : Bool) :
    (s.clientToCard i frames bad).Busy := by
  have hfold : (frames.foldl (Relay.handleFrame i) s).Busy :=
    run_inv_all (fun t f ht => ht.handleFrame i f) h frames
  unfold Relay.clientToCard
  split
  · split
    · dsimp only
      split
      · exact hfold.markDead i
      · exact hfold
    · exact h
  · exact h

theorem Relay.Busy.acceptClient (h : s.Busy) (uid : Nat) : (s.acceptClient uid).Busy := by
  unfold Relay.acceptClient
  split
  · exact h
  · split
    · exact h
    · split
      · exact h
      · exact h.grow (.inl rfl) Iff.rfl (List.Subset.refl _)

/-- A departed holder gives the card up; its session stays open until it ends. -/
theorem Relay.Busy.reapClient (h : s.Busy) (i : Nat) : (s.reapClient i).Busy := by
  unfold Relay.reapClient
  split
  · next c hc =>
      split
      · exact h
      · dsimp only
        split
        · split
          · next hopen =>
              exact h.grow (.inr rfl) (by rw [hopen]; exact ⟨nofun, nofun⟩)
                (awaited_frameToCard c.id .stdinEof s).1
          · next hopen =>
              exact h.grow (.inr rfl) (by rw [hopen]; exact ⟨nofun, nofun⟩)
                (awaited_frameToCard c.id .putClose s).1
          · exact h.grow (.inr rfl) Iff.rfl (List.Subset.refl _)
        · exact h.grow (.inl rfl) Iff.rfl (List.Subset.refl _)
  · exact h

/-- Frames sent for a new holder: nothing taken away, and its requests are to
be answered. -/
theorem Relay.awaited_forwardAll (o : Nat) (fs : List Frame) (s : Relay) :
    let t := fs.foldl (fun (u : Relay) f => u.forwardFrame o f.tag) s
    t.holder = s.holder ∧ s.awaited ⊆ t.awaited ∧
      ((∃ f ∈ fs, Sent.answerable ⟨f.tag, o⟩ = true) → o ∈ t.awaited) := by
  induction fs generalizing s with
  | nil => exact ⟨rfl, List.Subset.refl _, by simp⟩
  | cons f fs ih =>
      obtain ⟨hholder, hsub, hmine⟩ := ih (s.forwardFrame o f.tag)
      have hone : s.awaited ⊆ (s.forwardFrame o f.tag).awaited := (awaited_frameToCard o f.tag s).1
      have hans := (awaited_frameToCard o f.tag s).2
      refine ⟨hholder, List.Subset.trans hone hsub, ?_⟩
      rintro ⟨g, hg, hreq⟩
      obtain rfl | hrest := List.mem_cons.mp hg
      · exact hsub (hans hreq)
      · exact hmine ⟨g, hrest, hreq⟩

theorem Relay.Busy.pickHolder (h : s.Busy) (hreq : s.PicksRequest .pick) : s.pickHolder.Busy := by
  unfold Relay.pickHolder
  unfold Relay.PicksRequest at hreq
  split
  · exact h
  · next hfree =>
      rw [not_or, not_not, not_not] at hfree
      split
      · exact h
      · next i hi =>
          split
          · next c hc =>
              obtain ⟨hholder, hsub, hmine⟩ :=
                awaited_forwardAll c.id c.pending { s with holder := c.id }
              have hmem : c.id ∈ (c.pending.foldl (fun (u : Relay) f => u.forwardFrame c.id f.tag)
                  { s with holder := c.id }).awaited := by
                obtain hpend | hruns := hreq hfree.1 hfree.2 i hi c (by rw [hc]; rfl)
                · exact hmine hpend
                · exact hsub hruns
              exact ⟨fun _ => .inr (hholder ▸ hmem), fun _ => List.ne_nil_of_mem hmem⟩
          · exact h

/-! ## the card to clients -/

theorem Relay.awaited_receive {r : Reply} {rest : List Reply} (h : s.fromCard = r :: rest)
    (hr : r.tag.terminal = false) : ({ s with fromCard := rest } : Relay).awaited = s.awaited := by
  unfold awaited
  rw [h, List.filter_cons_of_neg (by simp [hr])]

/-- Sending a frame to a client changes none of it. -/
theorem Relay.sendTo_same (id : Nat) (r : Reply) (ok : Bool) (s : Relay) :
    (s.sendTo id r ok).holder = s.holder ∧ (s.sendTo id r ok).session = s.session ∧
      (s.sendTo id r ok).awaited = s.awaited := by
  unfold sendTo
  cases s.clientById id with
  | none => exact ⟨rfl, rfl, rfl⟩
  | some i =>
      cases ok with
      | true => exact ⟨rfl, rfl, rfl⟩
      | false => exact markDead_same (s.record r (some id)) i

theorem Relay.Busy.same (h : s.Busy) (hsame : t.holder = s.holder ∧ t.session = s.session ∧
    t.awaited = s.awaited) : t.Busy := by
  obtain ⟨hholder, hsession, hawaited⟩ := hsame
  refine h.grow (.inl hholder) (by rw [hsession]) ?_
  rw [hawaited]
  exact List.Subset.refl _

theorem Relay.Busy.deliver (h : s.Busy) (ok : Bool) : (s.deliver ok).Busy := by
  unfold Relay.deliver
  cases hfrom : s.fromCard with
  | nil => exact h
  | cons r rest =>
      dsimp only
      by_cases hstat : r.tag = .statReply
      · rw [if_pos hstat]
        have hnot : r.tag.terminal = false := by rw [hstat]; rfl
        have h1 : Relay.Busy { s with fromCard := rest } :=
          h.same ⟨rfl, rfl, awaited_receive hfrom hnot⟩
        split
        · exact h1.same ⟨rfl, rfl, rfl⟩
        · have h2 : Relay.Busy { s with fromCard := rest, statQh := s.statQh + 1 } :=
            h1.same ⟨rfl, rfl, rfl⟩
          exact h2.same (sendTo_same _ r ok _)
      · rw [if_neg hstat]
        by_cases hterm : r.tag.terminal = true
        · rw [if_pos hterm]
          exact ⟨fun hne => absurd rfl hne, fun hne => absurd rfl hne⟩
        · rw [if_neg hterm]
          have h1 : Relay.Busy { s with fromCard := rest } :=
            h.same ⟨rfl, rfl, awaited_receive hfrom (by simpa using hterm)⟩
          split
          · exact h1.same ⟨rfl, rfl, rfl⟩
          · exact h1.same (sendTo_same _ r ok _)

/-! ## the agent -/

/-- A frame taken leaves the rest to come. -/
theorem Relay.awaited_take {f : Sent} {rest : List Sent} (hto : s.toCard = f :: rest)
    (ht : t.toCard = rest) (hfrom : s.fromCard ⊆ t.fromCard)
    (hagent : ∀ task o, s.agent = some (task, o) → o ∈ t.awaited)
    (hf : f.answerable = true → f.owner ∈ t.awaited) : s.awaited ⊆ t.awaited := by
  intro p hp
  rw [mem_awaited] at hp
  obtain ⟨task, hrun⟩ | ⟨g, hg, hans, howner⟩ | ⟨r, hr, hterm⟩ := hp
  · exact hagent task p hrun
  · rw [hto] at hg
    obtain rfl | hrest := List.mem_cons.mp hg
    · exact howner ▸ hf hans
    · rw [mem_awaited, ht]
      exact .inr (.inl ⟨g, hrest, hans, howner⟩)
  · rw [mem_awaited]
    exact .inr (.inr ⟨r, hfrom hr, hterm⟩)

/-- The end of a session is to come once it is sent. -/
theorem Relay.mem_awaited_emit {tag : Tag} (htag : tag.terminal = true) (o : Nat) (s : Relay) :
    o ∈ (s.emit tag o).awaited := by
  rw [mem_awaited]
  exact .inr (.inr ⟨⟨tag, o⟩, List.mem_append_right _ List.mem_cons_self, htag, rfl⟩)

theorem Relay.subset_emit (tag : Tag) (o : Nat) (s : Relay) :
    s.fromCard ⊆ (s.emit tag o).fromCard := List.subset_append_left _ _

section

variable {f : Sent} {rest : List Sent} {task : Task} {o : Nat}

/-- An idle agent answers a frame, or fails it. -/
theorem Relay.Busy.answered (h : s.Busy) (hto : s.toCard = f :: rest) (hagent : s.agent = none)
    {tag : Tag} (htag : tag.terminal = true ∨ f.answerable = false) :
    (Relay.emit tag f.owner { s with toCard := rest, agent := none }).Busy := by
  refine h.grow (.inl rfl) Iff.rfl (awaited_take hto rfl (subset_emit tag f.owner s) ?_ ?_)
  · intro task o hrun
    rw [hagent] at hrun
    cases hrun
  · intro hans
    obtain hterm | hnot := htag
    · exact mem_awaited_emit hterm f.owner _
    · rw [hnot] at hans
      cases hans

/-- An idle agent starts a session, or fails to. -/
theorem Relay.Busy.started (h : s.Busy) (hto : s.toCard = f :: rest) (hagent : s.agent = none)
    (task : Task) (ok : Bool) :
    (Relay.startTask task f.owner ok { s with toCard := rest, agent := none }).Busy := by
  unfold Relay.startTask
  split
  · refine h.grow (.inl rfl) Iff.rfl (awaited_take hto rfl (List.Subset.refl _) ?_ ?_)
    · intro task' o hrun
      rw [hagent] at hrun
      cases hrun
    · intro _
      rw [mem_awaited]
      exact .inl ⟨task, rfl⟩
  · exact h.answered hto hagent (.inl rfl)

/-- An idle agent drops a frame that asks for nothing. -/
theorem Relay.Busy.dropped (h : s.Busy) (hto : s.toCard = f :: rest) (hagent : s.agent = none)
    (hnot : f.answerable = false) : Relay.Busy { s with toCard := rest, agent := none } := by
  refine h.grow (.inl rfl) Iff.rfl (awaited_take hto rfl (List.Subset.refl _) ?_ ?_)
  · intro task o hrun
    rw [hagent] at hrun
    cases hrun
  · intro hans
    rw [hnot] at hans
    cases hans

/-- A frame that asks for nothing ends the session. -/
theorem Relay.Busy.ended (h : s.Busy) (hto : s.toCard = f :: rest)
    (hagent : s.agent = some (task, o)) {tag : Tag} (hterm : tag.terminal = true)
    (hnot : f.answerable = false) :
    (Relay.emit tag o { s with toCard := rest, agent := none }).Busy := by
  refine h.grow (.inl rfl) Iff.rfl (awaited_take hto rfl (subset_emit tag o s) ?_ ?_)
  · intro task' o' hrun
    rw [hagent] at hrun
    cases hrun
    exact mem_awaited_emit hterm o _
  · intro hans
    rw [hnot] at hans
    cases hans

/-- A sample is answered inside the session. -/
theorem Relay.Busy.sampled (h : s.Busy) (hto : s.toCard = f :: rest)
    (hagent : s.agent = some (task, o)) (hstat : f.tag = .stat) :
    (Relay.emit .statReply f.owner { s with toCard := rest, agent := some (task, o) }).Busy := by
  refine h.grow (.inl rfl) Iff.rfl (awaited_take hto rfl (subset_emit .statReply f.owner s) ?_ ?_)
  · intro task' o' hrun
    rw [hagent] at hrun
    rw [mem_awaited]
    exact .inl ⟨task', hrun⟩
  · intro hans
    simp [Sent.answerable, hstat] at hans

/-- A frame dropped inside the session asks for nothing, unless it is the
holder's own session. -/
theorem Relay.Busy.passed (h : s.Busy) (hto : s.toCard = f :: rest)
    (hagent : s.agent = some (task, o))
    (hreq : s.session = .none → f.answerable = true → f.owner = s.holder → o = s.holder) :
    Relay.Busy { s with toCard := rest, agent := some (task, o) } := by
  have hmine : o ∈ ({ s with toCard := rest, agent := some (task, o) } : Relay).awaited := by
    rw [mem_awaited]
    exact .inl ⟨task, rfl⟩
  refine h.keep (.inl rfl) Iff.rfl ?_ (fun _ => List.ne_nil_of_mem hmine)
  intro hmem hsession _
  rw [mem_awaited] at hmem
  obtain ⟨task', hrun⟩ | ⟨g, hg, hans, howner⟩ | hr := hmem
  · rw [hagent] at hrun
    cases hrun
    exact hmine
  · rw [hto] at hg
    obtain rfl | hold := List.mem_cons.mp hg
    · exact hreq hsession hans howner ▸ hmine
    · rw [mem_awaited]
      exact .inr (.inl ⟨g, hold, hans, howner⟩)
  · rw [mem_awaited]
    exact .inr (.inr hr)

end

theorem Relay.Busy.agentTake (h : s.Busy) (ok : Bool) (hreq : s.PicksRequest (.agentTake ok)) :
    (s.agentTake ok).Busy := by
  unfold Relay.PicksRequest at hreq
  unfold Relay.agentTake
  cases hto : s.toCard with
  | nil => exact h
  | cons f rest =>
      dsimp only
      cases hagent : s.agent with
      | none =>
          cases hf : f.tag with
          | exec => exact h.started hto hagent .exec ok
          | putOpen => exact h.started hto hagent .put ok
          | get => exact h.started hto hagent .get ok
          | ping => exact h.answered hto hagent (.inl rfl)
          | stat => exact h.answered hto hagent (.inr (by simp [Sent.answerable, hf]))
          | stdin | stdinEof | putData | putClose =>
              exact h.dropped hto hagent (by simp [Sent.answerable, hf])
          | _ => exact h.answered hto hagent (.inl rfl)
      | some a =>
          obtain ⟨task, o⟩ := a
          have hrest : Relay.Busy { s with toCard := rest, agent := some (task, o) } :=
            h.passed hto hagent fun hsession hans howner =>
              hreq hsession f (by rw [hto]; rfl) hans howner (task, o) (by rw [hagent]; rfl)
          dsimp only
          split
          · next hstat => exact h.sampled hto hagent hstat
          · split
            · next hdata =>
                split
                · exact hrest
                · exact h.ended hto hagent rfl (by simp [Sent.answerable, hdata.2])
            · split
              · next hclose =>
                  refine h.ended hto hagent ?_ (by simp [Sent.answerable, hclose.2])
                  cases ok with
                  | true => rfl
                  | false => rfl
              · exact hrest

theorem Relay.Busy.emit (h : s.Busy) (tag : Tag) (o : Nat) : (s.emit tag o).Busy := by
  refine h.grow (.inl rfl) Iff.rfl fun p hp => ?_
  rw [mem_awaited] at hp ⊢
  obtain ha | hf | ⟨r, hr, hterm⟩ := hp
  · exact .inl ha
  · exact .inr (.inl hf)
  · exact .inr (.inr ⟨r, List.mem_append_left _ hr, hterm⟩)

/-- A session that ends by itself leaves its end to come. -/
theorem Relay.Busy.finish {task : Task} {o : Nat} (h : s.Busy) (hagent : s.agent = some (task, o))
    {tag : Tag} (htag : tag.terminal = true) :
    (({ s with agent := none } : Relay).emit tag o).Busy := by
  refine h.grow (.inl rfl) Iff.rfl fun p hp => ?_
  rw [mem_awaited] at hp
  obtain ⟨task', hrun⟩ | hf | ⟨r, hr, hterm⟩ := hp
  · rw [hagent] at hrun
    cases hrun
    exact mem_awaited_emit htag o _
  · rw [mem_awaited]
    exact .inr (.inl hf)
  · rw [mem_awaited]
    exact .inr (.inr ⟨r, List.mem_append_left _ hr, hterm⟩)

theorem Relay.Busy.agentOutput (h : s.Busy) (tag : Tag) : (s.agentOutput tag).Busy := by
  unfold Relay.agentOutput
  split
  · next o hagent =>
      split
      · exact h.emit tag o
      · split
        · next htag => exact h.finish hagent (by rw [htag]; rfl)
        · exact h
  · next o hagent =>
      split
      · exact h.emit tag o
      · split
        · next htag =>
            refine h.finish hagent ?_
            obtain heq | heq := htag
            · rw [heq]
              rfl
            · rw [heq]
              rfl
        · exact h
  · exact h

theorem Relay.Busy.step {e : Event} (h : s.Busy) (hreq : s.PicksRequest e) : (s.step e).Busy := by
  cases e with
  | accept uid => exact h.acceptClient uid
  | read i frames bad => exact h.clientToCard i frames bad
  | reap i => exact h.reapClient i
  | pick => exact h.pickHolder hreq
  | deliver ok => exact h.deliver ok
  | agentTake ok => exact h.agentTake ok hreq
  | agentOutput tag => exact h.agentOutput tag

/-- With nothing to be answered the card is free, and goes to the first client
that waits. -/
theorem Relay.Busy.pick_gives (h : s.Busy) (hnil : s.awaited = []) {i : Nat} {c : Client}
    (hc : s.slots[i]? = some (some c)) (hfirst : s.slots.findIdx? waits = some i) :
    s.pickHolder.holder = c.id := by
  have hsession : s.session = .none := by
    by_contra hopen
    exact h.session hopen hnil
  have hholder : s.holder = 0 := by
    by_contra hheld
    obtain hopen | hmem := h.held hheld
    · exact hopen hsession
    · rw [hnil] at hmem
      cases hmem
  have hfree : ¬ (s.session ≠ .none ∨ s.holder ≠ 0) := by
    rw [hsession, hholder]
    simp
  unfold Relay.pickHolder
  rw [if_neg hfree, hfirst]
  dsimp only
  rw [hc]
  exact (awaited_forwardAll c.id c.pending { s with holder := c.id }).1

end

/-! ## whole runs -/

/-- **The card is never held for nothing** in a run in which it is only given to
clients with a request among their frames; and once everything is answered, the
first client that waits gets it. -/
theorem held_for_something (serveOwner : Nat) (es : List Event)
    (h : Along Relay.step Relay.PicksRequest (Relay.opened serveOwner) es) :
    (run Relay.step (Relay.opened serveOwner) es).HeldForSomething ∧
      ((run Relay.step (Relay.opened serveOwner) es).awaited = [] →
        ∀ i c, (run Relay.step (Relay.opened serveOwner) es).slots[i]? = some (some c) →
          (run Relay.step (Relay.opened serveOwner) es).slots.findIdx? waits = some i →
          (run Relay.step (Relay.opened serveOwner) es).pickHolder.holder = c.id) := by
  have hfresh : (Relay.opened serveOwner).Busy :=
    ⟨fun hne => absurd rfl hne, fun hne => absurd rfl hne⟩
  have hbusy := run_inv (fun s e (hs : s.Busy) hreq => hs.step hreq) hfresh h
  exact ⟨hbusy.held, fun hnil i c hc hfirst => hbusy.pick_gives hnil hc hfirst⟩

/-! ## examples of runs -/

/-- A client pings, and a late piece of input of another waits behind it. -/
def pingServed : List Event :=
  [.accept 0, .accept 0, .read 0 [⟨.ping, 0⟩] false, .pick, .agentTake true, .deliver true,
    .read 1 [⟨.stdin, 4⟩, ⟨.ping, 0⟩] false, .pick]

theorem held_for_something_ping :
    (run Relay.step (Relay.opened 0) pingServed).HeldForSomething ∧
      ((run Relay.step (Relay.opened 0) pingServed).awaited = [] →
        ∀ i c, (run Relay.step (Relay.opened 0) pingServed).slots[i]? = some (some c) →
          (run Relay.step (Relay.opened 0) pingServed).slots.findIdx? waits = some i →
          (run Relay.step (Relay.opened 0) pingServed).pickHolder.holder = c.id) :=
  held_for_something 0 pingServed (by decide)

/-- A piece of input on its own, then another client's ping. -/
def lateInput : List Event :=
  [.accept 0, .accept 0, .read 0 [⟨.stdin, 4⟩] false, .pick, .agentTake true,
    .read 1 [⟨.ping, 0⟩] false, .pick]

/-- The card is held by the client that asked for nothing; the other, which
pings, does not get it. -/
theorem late_input_holds :
    (run Relay.step (Relay.opened 0) lateInput).holder = 1 ∧
      (run Relay.step (Relay.opened 0) lateInput).awaited = [] ∧
      ((run Relay.step (Relay.opened 0) lateInput).slots[1]?.join.map Client.pending) =
        some [⟨.ping, 0⟩] ∧
      (run Relay.step (Relay.opened 0) lateInput).pickHolder.holder = 1 ∧
      ¬ (run Relay.step (Relay.opened 0) lateInput).HeldForSomething := by
  have hholder : (run Relay.step (Relay.opened 0) lateInput).holder = 1 := by decide
  have hnil : (run Relay.step (Relay.opened 0) lateInput).awaited = [] := by decide
  have hsession : (run Relay.step (Relay.opened 0) lateInput).session = .none := by decide
  refine ⟨hholder, hnil, by decide, by decide, fun h => ?_⟩
  obtain hopen | hmem := h (by rw [hholder]; decide)
  · exact hopen hsession
  · rw [hnil] at hmem
    cases hmem

end Phi.Serve
