import Phi.Xfer.Passing

/-!
# Phi.Xfer.Serving

The card's turns during the client's session.

Outside the loop of the session the agent takes frames that open nothing; the
first of the client's opens the file or sends an Error; and in the loop each
turn writes what it took, or sends what it read, until the last frame.
-/

namespace Phi.Xfer

open Rpc Card Serve

/-! ## frames that open nothing -/

section idle

variable {env : Env} {c : Card.Calls} {a : Agent} {m : Msg}

/-- A `Stat` answered. -/
theorem statReply_cases (env : Env) (a : Agent) : ∃ gs,
    (a.statReply env).history = a.history ++ gs ∧ outs gs = [] ∧ taken gs = [] ∧
    ((a.statReply env).phase = a.phase ∨ (a.statReply env).phase = .dead) := by
  obtain ⟨hsent, hphase, -⟩ | ⟨hsent, hdead⟩ := Agent.send_cases env
    (.statReply (env.sample a.history)) a
  · exact ⟨[.sent (.statReply (env.sample a.history))], hsent, rfl, rfl, .inl hphase⟩
  · exact ⟨[], hsent.trans (List.append_nil _).symm, rfl, rfl, .inr hdead⟩

/-- Outside a session a frame that opens none is dropped, or answered. -/
theorem mainFrame_quiet (env : Env) (c : Card.Calls) (a : Agent) (hm : Card.opens m = none) : ∃ gs,
    (a.mainFrame env c m).history = a.history ++ gs ∧ outs gs = [] ∧ taken gs = [] ∧
    ((a.mainFrame env c m).phase = a.phase ∨ (a.mainFrame env c m).phase = .dead) := by
  cases m with
  | stat => exact statReply_cases env a
  | stdin _ | stdinEof | putData _ | putClose =>
      exact ⟨[], (List.append_nil _).symm, rfl, rfl, .inl rfl⟩
  | _ => cases hm

theorem send_history (env : Env) (m : Msg) (a : Agent) :
    ∃ gs, (a.send env m).history = a.history ++ gs ∧ taken gs = [] := by
  obtain ⟨hsent, -⟩ | ⟨hsent, -⟩ := Agent.send_cases env m a
  · exact ⟨[.sent m], hsent, rfl⟩
  · exact ⟨[], hsent.trans (List.append_nil _).symm, rfl⟩

theorem enter_history (p : Phase) (a : Agent) :
    ∃ gs, (a.enter p).history = a.history ++ gs ∧ taken gs = [] := by
  refine ⟨[], ?_, rfl⟩
  unfold Agent.enter
  split
  · exact (List.append_nil _).symm
  · exact (List.append_nil _).symm

/-- A frame acted on outside a session is the only one taken. -/
theorem mainFrame_history (env : Env) (c : Card.Calls) (a : Agent) (m : Msg) :
    ∃ gs, (a.mainFrame env c m).history = a.history ++ gs ∧ taken gs = [] := by
  cases m with
  | exec argv vars cwd =>
      unfold Agent.mainFrame Agent.runExec
      dsimp only
      split
      · exact send_history env _ a
      · split
        · exact send_history env _ a
        · split
          · exact send_history env _ a
          · exact enter_history _ a
  | putOpen path mode =>
      unfold Agent.mainFrame Agent.runPut
      dsimp only
      split
      · exact send_history env _ a
      · split
        · exact send_history env _ a
        · exact enter_history _ a
  | get path =>
      unfold Agent.mainFrame Agent.runGet
      dsimp only
      split
      · exact send_history env _ a
      · split
        · exact send_history env _ a
        · exact enter_history _ a
  | stdin _ | stdinEof | putData _ | putClose => exact ⟨[], (List.append_nil _).symm, rfl⟩
  | _ => exact send_history env _ a

theorem finish_history (env : Env) (m : Msg) (p : Phase) (a : Agent) :
    ∃ gs, ((a.send env m).enter p).history = a.history ++ gs ∧ taken gs = [] := by
  obtain ⟨hsent, -⟩ | ⟨hsent, -⟩ := Agent.finish_cases env m p a
  · exact ⟨[.sent m], hsent, rfl⟩
  · exact ⟨[], hsent.trans (List.append_nil _).symm, rfl⟩

/-- So is a frame acted on during a put. -/
theorem putFrame_history (env : Env) (c : Card.Calls) (a : Agent) (path : String) (m : Msg) :
    ∃ gs, (a.putFrame env c path m).history = a.history ++ gs ∧ taken gs = [] := by
  have hstay : ∃ gs, a.history = a.history ++ gs ∧ taken gs = [] :=
    ⟨[], (List.append_nil _).symm, rfl⟩
  cases m with
  | putData data =>
      unfold Agent.putFrame
      dsimp only
      split
      · exact hstay
      · exact finish_history env _ _ a
  | putClose =>
      unfold Agent.putFrame
      dsimp only
      split
      · exact finish_history env _ _ a
      · exact finish_history env _ _ a
  | stat => exact send_history env _ a
  | _ => exact hstay

theorem getChunk_history (env : Env) (a : Agent) (r : Read) (path : String) (size : UInt64) :
    ∃ gs, (a.getChunk env r path size).history = a.history ++ gs ∧ taken gs = [] := by
  unfold Agent.getChunk
  split
  · exact finish_history env _ _ a
  · exact finish_history env _ _ a
  · split
    · exact ⟨[], (List.append_nil _).symm, rfl⟩
    · exact finish_history env _ _ a

/-- During a get a frame is dropped, or answered. -/
theorem getFrame_quiet (env : Env) (a : Agent) (m : Msg) : ∃ gs,
    (a.getFrame env m).history = a.history ++ gs ∧ outs gs = [] ∧ taken gs = [] ∧
    ((a.getFrame env m).phase = a.phase ∨ (a.getFrame env m).phase = .dead) := by
  cases m with
  | stat => exact statReply_cases env a
  | _ => exact ⟨[], (List.append_nil _).symm, rfl, rfl, .inl rfl⟩

theorem opening_quiet (s : CardSide) (hm : Card.opens m = none) : s.opening c m = s := by
  cases m with
  | stat | stdin _ | stdinEof | putData _ | putClose => rfl
  | _ => cases hm

end idle

section

variable {v : Verb} {bytes : List UInt8} {s : System} {ms sent owed : List Msg}

/-- An agent that ended itself does nothing more. -/
theorem cardTurn_dead (env : Env) (n kept : Nat) (c : Card.Calls)
    (hdead : s.card.agent.phase = .dead) : (s.cardTurn env n kept c).card = s.card := by
  show s.card.turn env kept (s.calls n c) = s.card
  unfold CardSide.turn Agent.turn
  rw [hdead]

/-- A turn outside a session. -/
theorem cardTurn_idle (env : Env) (n kept : Nat) (c : Card.Calls)
    (hidle : s.card.agent.phase = .idle) :
    (∃ b : Agent, (s.cardTurn env n kept c).card = { s.card with agent := b } ∧
      b.history = s.card.agent.history ∧ (b.phase = .idle ∨ b.phase = .dead)) ∨
    ∃ (b : Agent) (m : Msg), b.history = s.card.agent.history ++ [.took m] ∧ b.phase = .idle ∧
      (s.cardTurn env n kept c).card = { s.card.opening (s.calls n c) m with
        agent := b.mainFrame env (s.calls n c) m } := by
  have hcard : (s.cardTurn env n kept c).card = s.card.turn env kept (s.calls n c) := rfl
  rw [hcard]
  unfold CardSide.turn Agent.turn Agent.mainTurn
  rw [hidle]
  dsimp only
  have hlooked := Agent.looked_nextBlocking (s.calls n c).device s.card.agent
  generalize s.card.agent.nextBlocking (s.calls n c).device = x at hlooked
  obtain ⟨b, found⟩ := x
  obtain ⟨hnone, hhist, hphase⟩ | ⟨m, hm, hhist, hphase, -⟩ := hlooked
  · dsimp only at hnone hhist hphase
    subst hnone
    rw [hidle] at hphase
    exact .inl ⟨b, rfl, hhist, hphase⟩
  · dsimp only at hm hhist hphase
    subst hm
    exact .inr ⟨b, m, hhist, hphase.trans hidle, rfl⟩

/-- A turn in the loop of a put. -/
theorem cardTurn_put (env : Env) (n kept : Nat) (c : Card.Calls) {path : String}
    (hput : s.card.agent.phase = .put path) :
    (∃ b : Agent, (s.cardTurn env n kept c).card = { s.card with agent := b } ∧
      b.history = s.card.agent.history ∧ (b.phase = .put path ∨ b.phase = .dead)) ∨
    ∃ (b : Agent) (m : Msg), b.history = s.card.agent.history ++ [.took m] ∧ b.phase = .put path ∧
      (s.cardTurn env n kept c).card = { s.card.putting (s.calls n c) kept path m with
        agent := b.putFrame env (s.calls n c) path m } := by
  have hcard : (s.cardTurn env n kept c).card = s.card.turn env kept (s.calls n c) := rfl
  rw [hcard]
  unfold CardSide.turn Agent.turn Agent.putTurn
  rw [hput]
  dsimp only
  have hlooked := Agent.looked_nextBlocking (s.calls n c).device s.card.agent
  generalize s.card.agent.nextBlocking (s.calls n c).device = x at hlooked
  obtain ⟨b, found⟩ := x
  obtain ⟨hnone, hhist, hphase⟩ | ⟨m, hm, hhist, hphase, -⟩ := hlooked
  · dsimp only at hnone hhist hphase
    subst hnone
    rw [hput] at hphase
    exact .inl ⟨b, rfl, hhist, hphase⟩
  · dsimp only at hm hhist hphase
    subst hm
    exact .inr ⟨b, m, hhist, hphase.trans hput, rfl⟩

/-- A turn in the loop of a get. -/
theorem cardTurn_get (env : Env) (n kept : Nat) (c : Card.Calls) {path : String} {size : UInt64}
    (hget : s.card.agent.phase = .get path size) :
    (∃ b : Agent, b.history = s.card.agent.history ∧
      (b.phase = .get path size ∨ b.phase = .dead) ∧
      (s.cardTurn env n kept c).card = { s.card.getting (s.calls n c) with
        agent := b.getChunk env (s.calls n c).chunk path size }) ∨
    ∃ (b : Agent) (m : Msg), b.history = s.card.agent.history ++ [.took m] ∧
      b.phase = .get path size ∧
      (s.cardTurn env n kept c).card = { s.card with agent := b.getFrame env m } := by
  have hcard : (s.cardTurn env n kept c).card = s.card.turn env kept (s.calls n c) := rfl
  rw [hcard]
  unfold CardSide.turn Agent.turn Agent.getTurn
  rw [hget]
  dsimp only
  have hlooked := Agent.looked_nextReady (s.calls n c).deviceReady (s.calls n c).device s.card.agent
  generalize s.card.agent.nextReady (s.calls n c).deviceReady (s.calls n c).device = x at hlooked
  obtain ⟨b, found⟩ := x
  obtain ⟨hnone, hhist, hphase⟩ | ⟨m, hm, hhist, hphase, -⟩ := hlooked
  · dsimp only at hnone hhist hphase
    subst hnone
    rw [hget] at hphase
    exact .inl ⟨b, hhist, hphase, rfl⟩
  · dsimp only at hm hhist hphase
    subst hm
    exact .inr ⟨b, m, hhist, hphase.trans hget, rfl⟩

/-! ## the stages -/

/-- What happened in a turn, and the frames left on their way to the card. -/
structure Turned (s t : System) (ms left : List Msg) (hs : List Happening) : Prop where
  history : t.card.agent.history = s.card.agent.history ++ hs
  pend : t.pend = s.pend ++ outs hs
  taken : ∃ first, ms = first ++ left ∧ Card.taken hs = first.map Msg.normal

section

variable {t : System} {left : List Msg} {hs : List Happening}

/-- The turn took nothing. -/
theorem Turned.none {g : List Happening} (h : Turned s t ms left hs)
    (hhist : t.card.agent.history = s.card.agent.history ++ g) (hg : Card.taken g = []) :
    left = ms ∧ t.pend = s.pend ++ outs g := by
  obtain rfl : hs = g := List.append_cancel_left (h.history.symm.trans hhist)
  obtain ⟨first, hms, htaken⟩ := h.taken
  rw [hg] at htaken
  refine ⟨?_, h.pend⟩
  rw [hms, List.map_eq_nil_iff.mp htaken.symm, List.nil_append]

/-- It took one frame, and then sent some. -/
theorem Turned.one {m : Msg} {b g : List Happening} (h : Turned s t ms left hs)
    (hb : b = s.card.agent.history ++ [.took m]) (hhist : t.card.agent.history = b ++ g)
    (hg : Card.taken g = []) :
    ∃ x, ms = x :: left ∧ m = x.normal ∧ t.pend = s.pend ++ outs g := by
  subst hb
  rw [List.append_assoc] at hhist
  obtain rfl : hs = [.took m] ++ g := List.append_cancel_left (h.history.symm.trans hhist)
  obtain ⟨first, hms, htaken⟩ := h.taken
  rw [taken_append, hg, List.append_nil] at htaken
  obtain ⟨x, hfirst, hx⟩ := List.map_eq_singleton_iff.mp htaken.symm
  refine ⟨x, by rw [hms, hfirst]; rfl, hx.symm, ?_⟩
  rw [h.pend]
  rfl

end

variable {left : List Msg} {hs : List Happening} {n kept : Nat} {c : Card.Calls} {env : Env}

/-- A turn outside a session, also of an agent that ended itself: nothing comes
of it but a frame less that opens nothing, or it takes one that opens a
session. -/
theorem idle_turn (h : Turned s (s.cardTurn env n kept c) ms left hs)
    (hidle : s.Alive → s.card.agent.phase = .idle) :
    (∃ b : Agent, (s.cardTurn env n kept c).card = { s.card with agent := b } ∧
      (b.phase ≠ .dead → b.phase = .idle) ∧ (s.cardTurn env n kept c).pend = s.pend ∧
      (left = ms ∨ ∃ x, ms = x :: left ∧ Card.opens x = none)) ∨
    ∃ (b : Agent) (x : Msg) (k : Kind), ms = x :: left ∧ Card.opens x = some k ∧
      b.history = s.card.agent.history ++ [.took x.normal] ∧ b.phase = .idle ∧
      (s.cardTurn env n kept c).card = { s.card.opening (s.calls n c) x.normal with
        agent := b.mainFrame env (s.calls n c) x.normal } := by
  by_cases hdead : s.card.agent.phase = .dead
  · have hcard := cardTurn_dead env n kept c hdead
    obtain ⟨hleft, hpend⟩ := h.none (g := []) (by rw [hcard, List.append_nil]) rfl
    exact .inl ⟨s.card.agent, hcard, fun hp => absurd hdead hp,
      hpend.trans (List.append_nil _), .inl hleft⟩
  · obtain ⟨b, hcard, hhist, hphase⟩ | ⟨b, f, hhist, hphase, hcard⟩ :=
      cardTurn_idle env n kept c (hidle hdead)
    · obtain ⟨hleft, hpend⟩ := h.none (g := []) (by rw [hcard, List.append_nil, ← hhist]) rfl
      exact .inl ⟨b, hcard, fun hp => hphase.resolve_right hp, hpend.trans (List.append_nil _),
        .inl hleft⟩
    · have hturn : (s.cardTurn env n kept c).card.agent = b.mainFrame env (s.calls n c) f := by
        rw [hcard]
      obtain ⟨gs, hgs, htaken⟩ := mainFrame_history env (s.calls n c) b f
      obtain ⟨x, hms, rfl, -⟩ := h.one hhist (by rw [hturn, hgs]) htaken
      cases hx : Card.opens x with
      | some k => exact .inr ⟨b, x, k, hms, hx, hhist, hphase, hcard⟩
      | none =>
          have hquiet : Card.opens x.normal = none := by rw [opens_normal, hx]
          obtain ⟨gs, hgs, houts, htaken, hp⟩ := mainFrame_quiet env (s.calls n c)
            b hquiet
          obtain ⟨-, -, -, hpend⟩ := h.one hhist (by rw [hturn, hgs]) htaken
          rw [houts, List.append_nil] at hpend
          rw [opening_quiet _ hquiet] at hcard
          exact .inl ⟨_, hcard, fun halive => (hp.resolve_right halive).trans hphase, hpend,
            .inr ⟨x, hms, hx⟩⟩

/-- The session is over on the card. -/
theorem turn_over {l os : List Msg} {m t : Msg}
    (h : Turned s (s.cardTurn env n kept c) ms left hs) (hadm : s.admitted = true)
    (hnone : s.ended = none) (hhold : s.holder = some (true, v.kind)) (hquiet : Quiet ms)
    (hsent : sent = m :: (l ++ s.up)) (hpend : s.pend = os ++ [t]) (hown : Own v os)
    (hends : v.kind.ends t = true) (hresult : Result v bytes t s.card)
    (hidle : s.Alive → s.card.agent.phase = .idle)
    (hflow : s.client.Live → Own v owed ∧ Balanced v s.client owed os s.card) :
    Mine v bytes (s.cardTurn env n kept c) left sent owed := by
  obtain ⟨b, hcard, hb, hsame, hleft⟩ | ⟨b, x, k, hms, hx, -⟩ := idle_turn h hidle
  · have hquiet' : Quiet left := by
      obtain rfl | ⟨x, rfl, -⟩ := hleft
      · exact hquiet
      · exact hquiet.tail
    refine .finished hadm hnone hhold hquiet' hsent (hsame.trans hpend) hown hends ?_ ?_ ?_
    · rw [hcard]
      exact hresult
    · unfold System.Alive
      rw [hcard]
      exact hb
    · rw [hcard]
      exact hflow
  · rw [hms] at hquiet
    rw [hquiet.head] at hx
    cases hx

/-- The file cannot be opened: an Error. -/
theorem refused {b : Agent} {x m0 : Msg} {post : List Msg} {text : String} {card : CardSide}
    (h : Turned s (s.cardTurn env n kept c) (x :: post) left hs) (hadm : s.admitted = true)
    (hnone : s.ended = none) (hhold : s.holder = some (true, v.kind)) (hpost : Quiet post)
    (hsent : sent = m0 :: (ins post ++ s.up)) (hpend : s.pend = [])
    (hflow : s.client.Live → owed = [] ∧ s.client.dst = none)
    (hb : b.history = s.card.agent.history ++ [.took x.normal]) (hphase : b.phase = .idle)
    (hcard : (s.cardTurn env n kept c).card = { card with agent := b.send env (.error text) })
    (hfailed : card.failed = true) (hfetched : v.kind = .get → card.fetched = []) :
    Mine v bytes (s.cardTurn env n kept c) left sent owed := by
  have hbalanced : s.client.Live → ∀ os, dataOf os = [] →
      Own v owed ∧ Balanced v s.client owed os (s.cardTurn env n kept c).card := by
    intro hlive os hos
    obtain ⟨rfl, hdst⟩ := hflow hlive
    refine ⟨nofun, fun hk => ?_⟩
    rw [hcard, hos]
    unfold Client.got
    rw [hdst]
    exact hfetched hk
  have hturn : (s.cardTurn env n kept c).card.agent = b.send env (.error text) := by rw [hcard]
  obtain ⟨hsend, hp, -⟩ | ⟨hsend, hp⟩ := Agent.send_cases env (.error text) b
  · obtain ⟨y, hms, -, hpend'⟩ := h.one (g := [.sent (.error text)]) hb (by rw [hturn, hsend]) rfl
    obtain ⟨-, rfl⟩ := List.cons.inj hms
    rw [hpend] at hpend'
    refine .finished (l := ins post) (q := []) (m := m0) (t := .error text) hadm hnone hhold hpost
      hsent hpend' nofun ?_ (.inl ⟨⟨text, rfl⟩, by rw [hcard]; exact hfailed⟩) ?_ ?_
    · cases v <;> rfl
    · unfold System.Alive
      rw [hturn]
      exact fun _ => hp.trans hphase
    · exact fun hlive => hbalanced hlive [] rfl
  · obtain ⟨y, hms, -, hpend'⟩ := h.one (g := []) hb (by rw [hturn, hsend, List.append_nil]) rfl
    obtain ⟨-, rfl⟩ := List.cons.inj hms
    rw [hpend] at hpend'
    have hgone : ¬ (s.cardTurn env n kept c).Alive := by
      unfold System.Alive
      rw [hturn]
      exact fun halive => halive hp
    refine .running (l := []) (m := m0) hadm hnone hhold hpost hsent ?_
      (fun halive => absurd halive hgone)
      fun hlive => ⟨(hbalanced hlive [] rfl).1, fun halive => absurd halive hgone⟩
    rw [hpend']
    exact nofun

theorem Own.nil : Own v [] := nofun

/-- The frame that opens the session is taken. -/
theorem turn_opens {b : Agent} {x : Msg} {post : List Msg}
    (h : Turned s (s.cardTurn env n kept c) (x :: post) left hs) (hframes : Sent bytes v sent)
    (hadm : s.admitted = true) (hnone : s.ended = none)
    (hhold : s.holder = some (true, v.kind)) (hpost : Quiet post)
    (hsent : sent = x :: (ins post ++ s.up)) (hpend : s.pend = [])
    (hflow : s.client.Live → owed = [] ∧ s.client.dst = none)
    (hb : b.history = s.card.agent.history ++ [.took x.normal]) (hphase : b.phase = .idle)
    (hcard : (s.cardTurn env n kept c).card = { s.card.opening (s.calls n c) x.normal with
      agent := b.mainFrame env (s.calls n c) x.normal }) :
    Mine v bytes (s.cardTurn env n kept c) left sent owed := by
  have hall := hframes
  rw [hsent] at hall
  -- the loop of the session is entered
  have hentered : ∀ p : Phase, (s.cardTurn env n kept c).card.agent = b.enter p →
      (b.enter p).phase = p →
      Serving v (s.cardTurn env n kept c).card [] →
      (v.kind = .get → (s.cardTurn env n kept c).card.fetched = []) →
      Mine v bytes (s.cardTurn env n kept c) left sent owed := by
    intro p hturn hp hserving hfetched
    have henter : (b.enter p).history = b.history := by
      unfold Agent.enter
      rw [hphase]
    obtain ⟨y, hms, -, hpend'⟩ := h.one (g := []) hb
      (by rw [hturn, henter, List.append_nil]) rfl
    obtain ⟨-, rfl⟩ := List.cons.inj hms
    rw [hpend] at hpend'
    refine .running (l := []) (m := x) hadm hnone hhold hpost hsent ?_ (fun _ => hserving)
      fun hlive => ?_
    · rw [hpend']
      exact Own.nil
    · obtain ⟨rfl, hdst⟩ := hflow hlive
      refine ⟨Own.nil, fun _ hk => ?_⟩
      rw [hfetched hk, hpend']
      show _ = s.client.dst.getD [] ++ _ ++ _
      rw [hdst]
      rfl
  have hidle : ∀ p, (b.enter p).phase = p := by
    intro p
    unfold Agent.enter
    rw [hphase]
  generalize s.calls n c = c' at hcard
  have hturn := congrArg CardSide.agent hcard
  obtain ⟨src, dst, o, mode, rfl, rfl⟩ | ⟨src, dst, rfl, rfl⟩ := hall.first
  · unfold Msg.normal Agent.mainFrame Agent.runPut at hcard hturn
    dsimp only at hcard hturn
    by_cases hnul : hasNul (clipped dst) = true
    · rw [if_pos hnul] at hcard
      refine refused h hadm hnone hhold hpost hsent hpend hflow hb hphase hcard ?_ nofun
      simp [CardSide.opening, hnul]
    · rw [if_neg hnul] at hcard hturn
      cases herr : c'.opened <|> c'.chmod with
      | some errno =>
          rw [herr] at hcard
          refine refused h hadm hnone hhold hpost hsent hpend hflow hb hphase hcard ?_ nofun
          cases hopened : c'.opened with
          | some e => simp [CardSide.opening, hopened]
          | none =>
              rw [hopened] at herr
              have hchmod : c'.chmod = some errno := herr
              simp [CardSide.opening, hchmod]
      | none =>
          rw [herr] at hcard hturn
          have hopened : c'.opened = none := by
            cases hopened : c'.opened with
            | none => rfl
            | some e => rw [hopened] at herr; cases herr
          have hchmod : c'.chmod = none := by
            rw [hopened] at herr
            exact herr
          refine hentered _ hturn (hidle _) ?_ nofun
          rw [hcard]
          refine ⟨?_, hidle _, [], rfl, ?_⟩
          · simp [CardSide.opening, hopened, hchmod, hnul]
          · simp [CardSide.opening, hopened, hnul, Verb.path]
  · unfold Msg.normal Agent.mainFrame Agent.runGet at hcard hturn
    dsimp only at hcard hturn
    by_cases hnul : hasNul (clipped src) = true
    · rw [if_pos hnul] at hcard
      refine refused h hadm hnone hhold hpost hsent hpend hflow hb hphase hcard ?_ fun _ => rfl
      simp [CardSide.opening, hnul]
    · rw [if_neg hnul] at hcard hturn
      cases hopened : c'.opened with
      | some errno =>
          rw [hopened] at hcard
          refine refused h hadm hnone hhold hpost hsent hpend hflow hb hphase hcard ?_ fun _ => rfl
          simp [CardSide.opening, hopened]
      | none =>
          rw [hopened] at hcard hturn
          refine hentered _ hturn (hidle _) ?_ fun _ => by rw [hcard]; rfl
          rw [hcard]
          refine ⟨?_, hidle _⟩
          simp [CardSide.opening, hopened, hnul]

/-- The frames before the client's own are taken, and then the first of it. -/
theorem turn_asked {pre post : List Msg} {m : Msg}
    (h : Turned s (s.cardTurn env n kept c) ms left hs) (hframes : Sent bytes v sent)
    (hadm : s.admitted = true) (hnone : s.ended = none)
    (hhold : s.holder = some (true, v.kind)) (hms : ms = pre ++ m :: post) (hpre : Quiet pre)
    (hpost : Quiet post) (hsent : sent = m :: (ins post ++ s.up)) (hpend : s.pend = [])
    (hidle : s.Alive → s.card.agent.phase = .idle)
    (hflow : s.client.Live → owed = [] ∧ s.client.dst = none) :
    Mine v bytes (s.cardTurn env n kept c) left sent owed := by
  have hopens : Card.opens m = some v.kind := by
    rw [hsent] at hframes
    exact hframes.opens
  obtain ⟨b, hcard, hb, hsame, hleft⟩ | ⟨b, x, k, hx, hk, hhist, hphase, hcard⟩ := idle_turn h hidle
  · have hrest : ∃ pre', left = pre' ++ m :: post ∧ Quiet pre' := by
      obtain rfl | ⟨x, hx, hnone⟩ := hleft
      · exact ⟨pre, hms, hpre⟩
      · rw [hms] at hx
        cases pre with
        | nil =>
            obtain ⟨rfl, -⟩ := List.cons.inj hx
            rw [hopens] at hnone
            cases hnone
        | cons y pre =>
            obtain ⟨-, hrest⟩ := List.cons.inj hx
            exact ⟨pre, hrest.symm, hpre.tail⟩
    obtain ⟨pre', hleft, hpre'⟩ := hrest
    refine .asked hadm hnone hhold hleft hpre' hpost hsent (hsame.trans hpend) ?_ hflow
    unfold System.Alive
    rw [hcard]
    exact hb
  · cases pre with
    | nil =>
        rw [hms] at hx
        obtain ⟨rfl, -⟩ := List.cons.inj hx
        rw [hms] at h
        exact turn_opens h hframes hadm hnone hhold hpost hsent hpend hflow hhist hphase hcard
    | cons y pre =>
        rw [hms] at hx
        obtain ⟨rfl, -⟩ := List.cons.inj hx
        rw [hpre.head] at hk
        cases hk

theorem outs_of_ends {k : Kind} {m : Msg} (h : k.ends m = true) : outs [.sent m] = [m] := by
  cases m with
  | statReply st => rw [k.not_ends_statReply] at h; cases h
  | _ => rfl

/-- The last frame of the session is sent, unless the agent ends itself. -/
theorem turn_ends {b : Agent} {card : CardSide} {l : List Msg} {m t : Msg}
    (hpends : ∀ gs, (s.cardTurn env n kept c).card.agent.history = b.history ++ gs →
      Card.taken gs = [] → (s.cardTurn env n kept c).pend = s.pend ++ outs gs)
    (hadm : s.admitted = true) (hnone : s.ended = none)
    (hhold : s.holder = some (true, v.kind)) (hquiet : Quiet left)
    (hsent : sent = m :: (l ++ (ins left ++ s.up))) (hown : Own v s.pend)
    (hcard : (s.cardTurn env n kept c).card = { card with agent := (b.send env t).enter .idle })
    (hends : v.kind.ends t = true) (hresult : Result v bytes t card)
    (hflow : s.client.Live → Own v owed)
    (hbalanced : s.client.Live → s.Alive → Balanced v s.client owed s.pend card)
    (halive : s.Alive) :
    Mine v bytes (s.cardTurn env n kept c) left sent owed := by
  have hturn := congrArg CardSide.agent hcard
  dsimp only at hturn
  obtain ⟨hhist, hp⟩ | ⟨hhist, hp⟩ := Agent.finish_cases env t .idle b
  · have hpend := hpends [.sent t] (by rw [hturn, hhist]) rfl
    rw [outs_of_ends hends] at hpend
    refine .finished (l := l ++ ins left) (q := s.pend) (m := m) hadm hnone hhold hquiet ?_ hpend
      hown hends ?_ ?_ fun hlive => ⟨hflow hlive, ?_⟩
    · rw [hsent, List.append_assoc]
      rfl
    · rw [hcard]
      exact hresult
    · rw [hturn]
      exact fun _ => hp
    · rw [hcard]
      exact hbalanced hlive halive
  · have hpend := hpends [] (by rw [hturn, hhist, List.append_nil]) rfl
    rw [show outs [] = [] from rfl, List.append_nil] at hpend
    have hgone : ¬ (s.cardTurn env n kept c).Alive := by
      unfold System.Alive
      rw [hturn]
      exact fun ha => ha hp
    refine .running (l := l) (m := m) hadm hnone hhold hquiet hsent (by rw [hpend]; exact hown)
      (fun ha => absurd ha hgone) fun hlive => ⟨hflow hlive, fun ha => absurd ha hgone⟩

/-- An agent that ended itself in the session. -/
theorem turn_gone {l : List Msg} {m : Msg} (h : Turned s (s.cardTurn env n kept c) ms left hs)
    (hadm : s.admitted = true) (hnone : s.ended = none)
    (hhold : s.holder = some (true, v.kind)) (hquiet : Quiet ms)
    (hsent : sent = m :: (l ++ (ins ms ++ s.up))) (hown : Own v s.pend)
    (hflow : s.client.Live → Own v owed) (hdead : s.card.agent.phase = .dead) :
    Mine v bytes (s.cardTurn env n kept c) left sent owed := by
  have hcard := cardTurn_dead env n kept c hdead
  obtain ⟨rfl, hpend⟩ := h.none (g := []) (by rw [hcard, List.append_nil]) rfl
  rw [show outs [] = [] from rfl, List.append_nil] at hpend
  have hgone : ¬ (s.cardTurn env n kept c).Alive := by
    unfold System.Alive
    rw [hcard]
    exact fun ha => ha hdead
  exact .running (l := l) (m := m) hadm hnone hhold hquiet hsent (by rw [hpend]; exact hown)
    (fun ha => absurd ha hgone) fun hlive => ⟨hflow hlive, fun ha => absurd ha hgone⟩

/-- A `Stat` in the session, or any other frame that changes nothing. -/
theorem turn_stays {b : Agent} {l : List Msg} {m : Msg} {g : List Happening}
    (hpends : ∀ gs, (s.cardTurn env n kept c).card.agent.history = b.history ++ gs →
      Card.taken gs = [] → (s.cardTurn env n kept c).pend = s.pend ++ outs gs)
    (hadm : s.admitted = true) (hnone : s.ended = none)
    (hhold : s.holder = some (true, v.kind)) (hquiet : Quiet left)
    (hsent : sent = m :: (l ++ (ins left ++ s.up))) (hown : Own v s.pend)
    (hhist : (s.cardTurn env n kept c).card.agent.history = b.history ++ g)
    (houts : outs g = []) (htaken : Card.taken g = [])
    (hserving : (s.cardTurn env n kept c).Alive → Serving v (s.cardTurn env n kept c).card l)
    (hfetched : (s.cardTurn env n kept c).card.fetched = s.card.fetched)
    (hflow : s.client.Live → Own v owed)
    (hbalanced : s.client.Live → s.Alive → Balanced v s.client owed s.pend s.card)
    (halive : s.Alive) :
    Mine v bytes (s.cardTurn env n kept c) left sent owed := by
  have hpend := hpends g hhist htaken
  rw [houts, List.append_nil] at hpend
  refine .running (l := l) (m := m) hadm hnone hhold hquiet hsent (by rw [hpend]; exact hown)
    hserving fun hlive => ⟨hflow hlive, fun _ hk => ?_⟩
  rw [hfetched, hpend]
  exact hbalanced hlive halive hk

/-- **A put's turn.** -/
theorem turn_put {src dst : String} {o : Option UInt32} {l : List Msg} {m : Msg}
    (h : Turned s (s.cardTurn env n kept c) ms left hs)
    (hframes : Sent bytes (.put src dst o) sent) (hadm : s.admitted = true)
    (hnone : s.ended = none) (hhold : s.holder = some (true, .put)) (hquiet : Quiet ms)
    (hsent : sent = m :: (l ++ (ins ms ++ s.up))) (hown : Own (.put src dst o) s.pend)
    (halive : s.Alive) (hserving : Serving (.put src dst o) s.card l)
    (hflow : s.client.Live → Own (.put src dst o) owed) :
    Mine (.put src dst o) bytes (s.cardTurn env n kept c) left sent owed := by
  obtain ⟨hfailed, hphase, datas, rfl, hfile⟩ := hserving
  obtain ⟨b, hcard, hhist, hp⟩ | ⟨b, f, hhist, hp, hcard⟩ := cardTurn_put env n kept c hphase
  · obtain ⟨rfl, -⟩ := h.none (g := []) (by rw [hcard, List.append_nil, ← hhist]) rfl
    refine turn_stays (b := s.card.agent) (g := []) (fun gs hgs ht => (h.none hgs ht).2) hadm hnone
      hhold hquiet hsent hown ?_ rfl rfl ?_ ?_ hflow nofun halive
    · rw [hcard, List.append_nil]
      exact hhist
    · unfold System.Alive
      rw [hcard]
      exact fun ha => ⟨hfailed, hp.resolve_right ha, datas, rfl, hfile⟩
    · rw [hcard]
  · have hturn := congrArg CardSide.agent hcard
    dsimp only at hturn
    have hpends : ∀ gs, (s.cardTurn env n kept c).card.agent.history = b.history ++ gs →
        Card.taken gs = [] → (s.cardTurn env n kept c).pend = s.pend ++ outs gs := by
      intro gs hgs ht
      obtain ⟨-, -, -, hpend⟩ := h.one hhist hgs ht
      exact hpend
    obtain ⟨gs, hgs, ht⟩ := putFrame_history env (s.calls n c) b
      (Verb.put src dst o).path f
    obtain ⟨x, rfl, rfl, -⟩ := h.one hhist (by rw [hturn, hgs]) ht
    generalize s.calls n c = c' at hcard hturn
    by_cases hstat : x = .stat
    · subst hstat
      obtain ⟨gs, hgs, houts, ht, hp'⟩ := statReply_cases env b
      have hstat : (s.cardTurn env n kept c).card.agent = b.statReply env := hturn
      have hsame : (s.cardTurn env n kept c).card =
          { s.card with agent := b.statReply env } := hcard
      refine turn_stays (b := b) (g := gs) hpends hadm hnone hhold hquiet.tail hsent hown
        (by rw [hstat, hgs]) houts ht ?_ (by rw [hsame]) hflow nofun halive
      intro ha
      unfold System.Alive at ha
      rw [hstat] at ha
      rw [hsame]
      exact ⟨hfailed, (hp'.resolve_right ha).trans hp, datas, rfl, hfile⟩
    · have hins : ins (x :: left) = x :: ins left := by simp [ins, hstat]
      rw [hins] at hsent
      have hnext := hframes
      rw [hsent] at hnext
      obtain ⟨data, rfl⟩ | ⟨rfl, -, hbytes⟩ := Sent.next hnext
      · have hsent' : sent = m :: ((datas ++ [data]).map .putData ++ (ins left ++ s.up)) := by
          rw [hsent]
          simp
        unfold Msg.normal CardSide.putting Agent.putFrame at hcard
        dsimp only at hcard
        cases hwrite : c'.write with
        | none =>
            rw [hwrite] at hcard
            have hb : (s.cardTurn env n kept c).card.agent = b := by rw [hcard]
            refine turn_stays (b := b) (g := []) hpends hadm hnone hhold hquiet.tail hsent' hown
              (by rw [hb, List.append_nil]) rfl rfl ?_ (by rw [hcard]) hflow nofun halive
            rw [hcard]
            refine fun _ => ⟨hfailed, hp, datas ++ [data], rfl, ?_⟩
            simp [hfile]
        | some e =>
            rw [hwrite] at hcard
            exact turn_ends hpends hadm hnone hhold hquiet.tail hsent' hown hcard rfl
              (.inl ⟨⟨_, rfl⟩, rfl⟩) hflow nofun halive
      · have hsent' : sent = m :: ((datas.map .putData ++ [.putClose]) ++ (ins left ++ s.up)) := by
          rw [hsent]
          simp
        unfold Msg.normal CardSide.putting Agent.putFrame at hcard
        dsimp only at hcard
        cases hsync : c'.fsync with
        | none =>
            rw [hsync] at hcard
            have hends : (s.cardTurn env n kept c).card =
                { ({ s.card with failed := s.card.failed || false } : CardSide) with
                  agent := (b.send env (.exit 0)).enter .idle } := hcard
            refine turn_ends hpends hadm hnone hhold hquiet.tail hsent' hown hends rfl
              (.inr ⟨?_, rfl, ?_⟩) hflow nofun halive
            · simp [hfailed]
            · exact hfile.trans hbytes
        | some errno =>
            rw [hsync] at hcard
            have hends : (s.cardTurn env n kept c).card =
                { ({ s.card with failed := s.card.failed || true } : CardSide) with
                  agent := (b.send env (.error ((Verb.put src dst o).path ++ ": " ++
                    env.oserr errno))).enter .idle } := hcard
            refine turn_ends hpends hadm hnone hhold hquiet.tail hsent' hown hends rfl
              (.inl ⟨⟨_, rfl⟩, ?_⟩) hflow nofun halive
            simp

/-- What a read of a file on the card brings. -/
theorem System.chunk_calls (s : System) (n : Nat) (c : Card.Calls) {chunk : List UInt8}
    (h : (s.calls n c).chunk = .data chunk) : chunk.length ≤ chunkBytes := by
  unfold System.calls at h
  dsimp only at h
  cases hchunk : c.chunk with
  | data bytes =>
      rw [hchunk] at h
      dsimp only at h
      split at h
      · cases h
      · cases h
        exact List.length_take_le ..
  | eof | failed _ =>
      rw [hchunk] at h
      cases h

/-- The next of the file is sent, unless the agent ends itself. -/
theorem turn_chunk {src dst : String} {b : Agent} {l : List Msg} {m : Msg} {chunk : List UInt8}
    (hpends : ∀ gs, (s.cardTurn env n kept c).card.agent.history = b.history ++ gs →
      Card.taken gs = [] → (s.cardTurn env n kept c).pend = s.pend ++ outs gs)
    (hadm : s.admitted = true) (hnone : s.ended = none)
    (hhold : s.holder = some (true, .get)) (hquiet : Quiet left)
    (hsent : sent = m :: (l ++ (ins left ++ s.up))) (hown : Own (.get src dst) s.pend)
    (hfailed : s.card.failed = false) (hfit : chunk.length ≤ chunkBytes)
    (hcard : (s.cardTurn env n kept c).card =
      { s.card with
        fetched := s.card.fetched ++ chunk
        agent := (b.send env (.getData chunk)).enter (.get (clipped src)
          (UInt64.ofNat s.card.fetched.length + UInt64.ofNat chunk.length)) })
    (hflow : s.client.Live → Own (.get src dst) owed ∧
      Balanced (.get src dst) s.client owed s.pend s.card) :
    Mine (.get src dst) bytes (s.cardTurn env n kept c) left sent owed := by
  have hturn := congrArg CardSide.agent hcard
  dsimp only at hturn
  have hlength : (Msg.getData chunk).body.length ≤ Rpc.maxFrame := by
    have : chunkBytes < Rpc.maxFrame := by decide
    rw [Msg.length_body]
    exact Nat.lt_of_le_of_lt hfit this
  obtain ⟨hhist, hp⟩ | ⟨hhist, hp⟩ := Agent.finish_cases env (.getData chunk) (.get (clipped src)
    (UInt64.ofNat s.card.fetched.length + UInt64.ofNat chunk.length)) b
  · have hpend := hpends [.sent (.getData chunk)] (by rw [hturn, hhist]) rfl
    have houts : outs [.sent (.getData chunk)] = [.getData chunk] := rfl
    rw [houts] at hpend
    refine .running (l := l) (m := m) hadm hnone hhold hquiet hsent ?_ (fun _ => ?_)
      fun hlive => ⟨(hflow hlive).1, fun _ hk => ?_⟩
    · rw [hpend]
      exact hown.append rfl hlength
    · rw [hcard]
      refine ⟨hfailed, hp.trans ?_⟩
      rw [List.length_append, UInt64.ofNat_add]
      rfl
    · rw [hcard, hpend, dataOf_append, ← List.append_assoc]
      show s.card.fetched ++ chunk = _ ++ (chunk ++ [])
      rw [List.append_nil, (hflow hlive).2 hk]
      rfl
  · have hpend := hpends [] (by rw [hturn, hhist, List.append_nil]) rfl
    rw [show outs [] = [] from rfl, List.append_nil] at hpend
    have hgone : ¬ (s.cardTurn env n kept c).Alive := by
      unfold System.Alive
      rw [hturn]
      exact fun ha => ha hp
    exact .running (l := l) (m := m) hadm hnone hhold hquiet hsent (by rw [hpend]; exact hown)
      (fun ha => absurd ha hgone) fun hlive => ⟨(hflow hlive).1, fun ha => absurd ha hgone⟩

/-- **A get's turn.** -/
theorem turn_get {src dst : String} {l : List Msg} {m : Msg}
    (h : Turned s (s.cardTurn env n kept c) ms left hs) (hadm : s.admitted = true)
    (hnone : s.ended = none) (hhold : s.holder = some (true, .get)) (hquiet : Quiet ms)
    (hsent : sent = m :: (l ++ (ins ms ++ s.up))) (hown : Own (.get src dst) s.pend)
    (halive : s.Alive) (hserving : Serving (.get src dst) s.card l)
    (hflow : s.client.Live → Own (.get src dst) owed ∧
      (s.Alive → Balanced (.get src dst) s.client owed s.pend s.card)) :
    Mine (.get src dst) bytes (s.cardTurn env n kept c) left sent owed := by
  obtain ⟨hfailed, hphase⟩ := hserving
  have howes : s.client.Live → Own (.get src dst) owed := fun hlive => (hflow hlive).1
  have hbal : s.client.Live → s.Alive → Balanced (.get src dst) s.client owed s.pend s.card :=
    fun hlive => (hflow hlive).2
  obtain ⟨b, hhist, hp, hcard⟩ | ⟨b, f, hhist, hp, hcard⟩ := cardTurn_get env n kept c hphase
  · have hturn := congrArg CardSide.agent hcard
    dsimp only at hturn
    obtain ⟨gs, hgs, ht⟩ := getChunk_history env b (s.calls n c).chunk
      (Verb.get src dst).path (UInt64.ofNat s.card.fetched.length)
    obtain ⟨rfl, -⟩ := h.none (g := gs) (by rw [hturn, hgs, hhist]) ht
    have hpends : ∀ gs, (s.cardTurn env n kept c).card.agent.history = b.history ++ gs →
        Card.taken gs = [] → (s.cardTurn env n kept c).pend = s.pend ++ outs gs := by
      intro gs hgs ht
      rw [hhist] at hgs
      exact (h.none hgs ht).2
    have hfit : ∀ chunk, (s.calls n c).chunk = .data chunk → chunk.length ≤ chunkBytes :=
      fun chunk => s.chunk_calls n c
    generalize s.calls n c = c' at hcard hturn hfit
    unfold Agent.getChunk CardSide.getting at hcard
    cases hchunk : c'.chunk with
    | data chunk =>
        rw [hchunk] at hcard
        exact turn_chunk hpends hadm hnone hhold hquiet hsent hown hfailed (hfit chunk hchunk)
          hcard fun hlive => ⟨howes hlive, hbal hlive halive⟩
    | eof =>
        rw [hchunk] at hcard
        exact turn_ends hpends hadm hnone hhold hquiet hsent hown hcard rfl
          (.inr ⟨hfailed, rfl⟩) howes hbal halive
    | failed errno =>
        rw [hchunk] at hcard
        dsimp only at hcard
        by_cases heintr : errno = eintr
        · rw [if_pos heintr, hfailed] at hcard
          have hb : (s.cardTurn env n kept c).card.agent = b := by rw [hcard]
          refine turn_stays (b := b) (g := []) hpends hadm hnone hhold hquiet hsent hown
            (by rw [hb, List.append_nil]) rfl rfl ?_ (by rw [hcard]) howes hbal halive
          unfold System.Alive
          rw [hcard]
          exact fun ha => ⟨by simp [heintr], hp.resolve_right ha⟩
        · rw [if_neg heintr] at hcard
          have hends : (s.cardTurn env n kept c).card =
              { ({ s.card with failed := s.card.failed || decide (errno ≠ eintr) } : CardSide) with
                agent := (b.send env (.error ((Verb.get src dst).path ++ ": " ++
                  env.oserr errno))).enter .idle } := hcard
          refine turn_ends hpends hadm hnone hhold hquiet hsent hown hends rfl
            (.inl ⟨⟨_, rfl⟩, ?_⟩) howes hbal halive
          simp [heintr]
  · have hturn := congrArg CardSide.agent hcard
    dsimp only at hturn
    obtain ⟨gs, hgs, houts, ht, hp'⟩ := getFrame_quiet env b f
    obtain ⟨x, rfl, -, -⟩ := h.one hhist (by rw [hturn, hgs]) ht
    have hpends : ∀ gs, (s.cardTurn env n kept c).card.agent.history = b.history ++ gs →
        Card.taken gs = [] → (s.cardTurn env n kept c).pend = s.pend ++ outs gs := by
      intro gs hgs ht
      obtain ⟨-, -, -, hpend⟩ := h.one hhist hgs ht
      exact hpend
    have hsent' : sent = m :: ((l ++ ins [x]) ++ (ins left ++ s.up)) := by
      rw [hsent, ← List.singleton_append (x := x), ins_append]
      simp only [List.append_assoc]
    refine turn_stays (b := b) (g := gs) hpends hadm hnone hhold hquiet.tail hsent' hown
      (by rw [hturn, hgs]) houts ht ?_ (by rw [hcard]) howes hbal halive
    unfold System.Alive
    rw [hcard]
    exact fun ha => ⟨hfailed, (hp'.resolve_right ha).trans hp⟩

/-- **A turn on the card.** -/
theorem Mine.turn (h : Mine v bytes s ms sent owed) (hframes : Sent bytes v sent)
    (hturned : Turned s (s.cardTurn env n kept c) ms left hs) :
    Mine v bytes (s.cardTurn env n kept c) left sent owed := by
  cases h with
  | before ha hnone hhold hsent hflow =>
      exact (Mine.before ha hnone hhold hsent hflow : Mine v bytes s ms sent owed).apart
        hhold hhold rfl rfl rfl rfl
  | asked ha hnone hhold hms hpre hpost hsent hpend hidle hflow =>
      exact turn_asked hturned hframes ha hnone hhold hms hpre hpost hsent hpend hidle hflow
  | running ha hnone hhold hquiet hsent hown hserving hflow =>
      by_cases halive : s.Alive
      · cases v with
        | put src dst o =>
            exact turn_put hturned hframes ha hnone hhold hquiet hsent hown halive
              (hserving halive) fun hlive => (hflow hlive).1
        | get src dst =>
            exact turn_get hturned ha hnone hhold hquiet hsent hown halive (hserving halive) hflow
      · exact turn_gone hturned ha hnone hhold hquiet hsent hown (fun hlive => (hflow hlive).1)
          (not_not.mp halive)
  | finished ha hnone hhold hquiet hsent hpend hown hends hresult hidle hflow =>
      exact turn_over hturned ha hnone hhold hquiet hsent hpend hown hends hresult hidle hflow
  | after ha hended hhold hends hresult hflow =>
      exact .after ha hended hhold hends hresult hflow

theorem Exact.card (h : Exact v bytes s ms sent owed) (env : Env) (n kept : Nat)
    (c : Card.Calls) : ∃ left, Exact v bytes (s.step env (.card n kept c)) left sent owed := by
  obtain ⟨hs, first, left, hms, htaken, hhist, hpend, hbase⟩ := h.base.cardTurn env n kept c
  exact ⟨left, hbase, h.verb, h.frames, h.fits, h.stands,
    h.mine.turn h.frames ⟨hhist, hpend, first, hms, htaken⟩, h.owes, h.exited⟩

end

end Phi.Xfer
