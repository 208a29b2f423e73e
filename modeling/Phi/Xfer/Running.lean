import Phi.Xfer.Through

/-!
# Phi.Xfer.Running

The card's turns while a command of the host is on its way, runs and has ended.
-/

namespace Phi.Xfer

open Rpc Card Serve

section through

variable {stdin : List UInt8} {written : Pipes} {h0 : List Happening} {cmd : Msg} {s t : Remote}
  {hs : List Happening} {ms sent given : List Msg} {m : Msg}

/-! ## the card -/

theorem Remote.bytes_calls (s : Remote) (n : Nat) (c : Card.Calls) (l : Look)
    (ls : List (Nat × Look)) : (s.calls n c l ls).device.bytes ++
      s.toCard.drop (s.calls n c l ls).device.bytes.length = s.toCard := by
  unfold Remote.calls
  dsimp only
  cases c.device with
  | data bytes =>
      show s.toCard.take (min n readChunk) ++
        s.toCard.drop (s.toCard.take (min n readChunk)).length = s.toCard
      rw [List.length_take, ← List.drop_eq_drop_min, List.take_append_drop]
  | eof => rfl
  | failed errno => rfl

theorem Remote.possible_calls (s : Remote) (n : Nat) (c : Card.Calls) (l : Look)
    (ls : List (Nat × Look)) : (s.calls n c l ls).Possible := by
  unfold Remote.calls
  intro bytes hbytes
  dsimp only at hbytes
  cases hr : c.device with
  | data more =>
      rw [hr] at hbytes
      cases hbytes
      rw [List.length_take]
      exact Nat.le_trans (Nat.min_le_left _ _) (Nat.min_le_right _ _)
  | eof =>
      rw [hr] at hbytes
      cases hbytes
  | failed errno =>
      rw [hr] at hbytes
      cases hbytes

theorem Remote.agent_cardTurn (s : Remote) (env : Env) (n : Nat) (c : Card.Calls) (l : Look)
    (ls : List (Nat × Look)) :
    (s.cardTurn env n c l ls).agent = s.agent.turn env (s.calls n c l ls) := by
  unfold Remote.cardTurn
  dsimp only
  split <;> split <;> rfl

/-- A turn on the card took the next of the frames on their way. -/
structure Moved (s t : Remote) (ms first left : List Msg) (hs : List Happening) : Prop where
  frames : ms = first ++ left
  taken : taken hs = first.map Msg.normal
  history : t.agent.history = s.agent.history ++ hs
  kept : t.agent.Kept
  arriving : t.agent.phase ≠ .dead →
    t.agent.rx.head ≤ t.agent.rx.tail ∧ Carries t.agent.rx t.toCard left
  client : t.client = s.client
  up : t.up = s.up
  seen : t.seen = s.seen
  down : t.down = s.down
  ended : t.ended = s.ended

theorem Through.moves (h : Through stdin written h0 cmd s hs ms sent given) (env : Env) (n : Nat)
    (c : Card.Calls) (l : Look) (ls : List (Nat × Look)) : ∃ first left more,
      Moved s (s.cardTurn env n c l ls) ms first left more := by
  have hstart : s.agent.Feeds s.agent.history ms ((s.calls n c l ls).device.bytes ++
      s.toCard.drop (s.calls n c l ls).device.bytes.length) := by
    rw [s.bytes_calls]
    exact ⟨[], [], ms, rfl, (List.append_nil _).symm, rfl, h.arriving⟩
  have hturn : (s.agent.turn env (s.calls n c l ls)).Feeds s.agent.history ms
      (s.agent.rest (s.calls n c l ls) _) := hstart.turn h.fits
  obtain ⟨more, first, left, hms, hhist, htaken, hlive⟩ := hturn
  have hkept : (s.agent.turn env (s.calls n c l ls)).Kept := h.kept.turn
  unfold Agent.rest at hlive
  rw [s.bytes_calls] at hlive
  refine ⟨first, left, more, ?_⟩
  unfold Remote.cardTurn
  dsimp only
  split <;> split <;>
    exact ⟨hms, htaken, hhist, hkept, hlive, rfl, rfl, rfl, rfl, rfl⟩

/-- What a turn keeps, but for the command's input and where it stands. -/
theorem Through.moved {first left : List Msg} {more : List Happening}
    (h : Through stdin written h0 cmd s hs ms sent given) (hmoved : Moved s t ms first left more)
    (hinput : t.relay.input.Right t.relay.acted) (hacted : ins t.relay.acted <+: sent)
    (hstage : Course written h0 cmd t (hs ++ more) left sent) :
    Through stdin written h0 cmd t (hs ++ more) left sent given where
  kept := hmoved.kept
  history := by rw [hmoved.history, h.history, List.append_assoc]
  seen := by
    rw [hmoved.seen, hmoved.history, List.length_append]
    exact Nat.le_trans h.seen (Nat.le_add_right _ _)
  fits m hm := h.fits m (hmoved.frames ▸ List.mem_append_right _ hm)
  arriving := hmoved.arriving
  standing := by
    obtain ⟨cur, htracks, hstanding⟩ := h.standing
    obtain ⟨cur', htracks', -⟩ := hmoved.kept.tracks
    have hsplit := htracks'.2
    rw [hmoved.history, along_append, htracks.1] at hsplit
    rw [hmoved.frames, List.map_append, ← hmoved.taken] at hstanding
    have hrun := hstanding.happens hsplit.2
    refine ⟨cur', htracks', ?_⟩
    rw [outs_append, ← htracks'.1, hmoved.history, run_append, htracks.1]
    exact hrun
  sends := by
    rw [hmoved.client]
    exact h.sends
  waiting := by
    rw [hmoved.up]
    exact h.waiting
  upfits := by
    rw [hmoved.up]
    exact h.upfits
  input := hinput
  acted := hacted
  stage := hstage
  split := by
    rw [outs_append, h.split, hmoved.history, hmoved.seen, List.drop_append_of_le_length h.seen,
      outs_append, List.append_assoc]
  ended hended := h.ended (by rw [← hmoved.ended]; exact hended)
  shows := by
    rw [hmoved.client, hmoved.down]
    exact h.shows

/-! ### the running command -/

/-- What the agent acted on is the start of what the client sent. -/
theorem acted_start {r : Card.Relay} {rx : Window UInt8} {ps up : List Msg} {coming : List UInt8}
    (hsends : Sends stdin s.client sent) (hfollows : r.Follows rx)
    (hps : rx.content ++ r.arrived ++ coming = ps.flatMap Msg.encode)
    (hfits : ∀ m ∈ ps, m.body.length ≤ Rpc.maxFrame) (hsent : ins ps ++ up = sent) :
    ins r.acted <+: sent := by
  obtain ⟨left, hacted, -, -⟩ := hfollows ps coming hfits hps
  have hnormal : ps.map Msg.normal = ps := by
    refine (List.map_congr_left fun m hm => ?_).trans (List.map_id _)
    by_cases hstat : m = .stat
    · rw [hstat]
      rfl
    · have hmem : m ∈ ins ps := List.mem_filter.mpr ⟨hm, by simpa using hstat⟩
      exact (hsends.mem (hsent ▸ List.mem_append_left _ hmem)).1
  rw [← hsent, ← hnormal, hacted, ins_append, List.append_assoc]
  exact List.prefix_append _ _

/-- A turn in which the command is found running. -/
theorem Through.runs {x : Command} (h : Through stdin written h0 cmd s hs ms sent given)
    (hphase : s.agent.phase = .exec x) (env : Env) (n : Nat) (c : Card.Calls) (l : Look)
    (ls : List (Nat × Look)) (hrun : c.waited = .running) : ∃ hs' ms',
      Through stdin written h0 cmd (s.cardTurn env n c l ls) hs' ms' sent given := by
  obtain ⟨first, left, more, hmoved⟩ := h.moves env n c l ls
  refine ⟨hs ++ more, left, ?_⟩
  have ht : s.cardTurn env n c l ls =
      { s with
        agent := s.agent.turn env (s.calls n c l ls)
        toCard := if s.agent.reads (s.calls n c l ls)
          then s.toCard.drop (s.calls n c l ls).device.bytes.length else s.toCard
        pipes := s.pipes.after l
        relay := s.relay.turn (s.calls n c l ls) } := by
    have hrun' : (s.calls n c l ls).waited = .running := hrun
    unfold Remote.cardTurn
    rw [hphase]
    dsimp only
    rw [hrun']
  cases h.stage with
  | asked _ _ hidle =>
      rw [(hidle (by rw [hphase]; exact nofun)).1] at hphase
      cases hphase
  | gone hdead =>
      rw [hdead] at hphase
      cases hphase
  | finished _ _ hidle =>
      rw [hidle (by rw [hphase]; exact nofun)] at hphase
      cases hphase
  | running rx ps hphase' hright hmirrors hfollows hps hfits hsent houtputs =>
      have hpossible := s.possible_calls n c l ls
      have hbytes := s.bytes_calls n c l ls
      have hcalls : ({ s.calls n c l ls with
          waited := .running, pump := Pipes.pump l s.pipes } : Card.Calls) =
            s.calls n c l ls := by
        unfold Remote.calls
        rw [← hrun]
      have houtputs' := Agent.Outputs.turn (w := ⟨s.agent, s.pipes⟩) houtputs env
        (s.calls n c l ls, l)
      unfold Watched.turn at houtputs'
      dsimp only at houtputs'
      rw [hcalls] at houtputs'
      have hexec : s.agent.turn env (s.calls n c l ls) =
          s.agent.execTurn env (s.calls n c l ls) := by
        unfold Agent.turn
        rw [hphase]
      have hmirrors' : (s.agent.execTurn env (s.calls n c l ls)).Mirrors
          (s.relay.turn (s.calls n c l ls)) := hmirrors.execTurn hright hpossible hrun
      rw [← hexec] at hmirrors'
      have hright' := hright.turn hpossible
      have hfollows' := hfollows.turn (c := s.calls n c l ls) hright
      have harrived := arrived_turn hphase hmirrors hright
        (show (s.calls n c l ls).waited = .running from hrun)
      have hps' : rx.content ++ (s.relay.turn (s.calls n c l ls)).arrived ++
          (if s.agent.reads (s.calls n c l ls)
            then s.toCard.drop (s.calls n c l ls).device.bytes.length else s.toCard) =
              ps.flatMap Msg.encode := by
        rw [harrived, ← hps]
        by_cases hreads : s.agent.reads (s.calls n c l ls) = true
        · rw [if_pos hreads, if_pos hreads]
          simp only [List.append_assoc]
          rw [hbytes]
        · rw [if_neg hreads, if_neg hreads, List.append_nil]
      have hhist := hmoved.history
      rw [ht] at hmoved hhist ⊢
      refine h.moved hmoved hright'.input (acted_start h.sends hfollows' hps' hfits hsent) ?_
      obtain hdead | ⟨z, -, hz, -⟩ := houtputs'.streams
      · obtain ⟨body, hbody, hframes, hpre⟩ := houtputs'.bounded
        have hbody' : h0 ++ (hs ++ more) = h0 ++ body := by
          rw [← hbody, ← List.append_assoc, ← h.history]
          exact hhist.symm
        rw [List.append_cancel_left hbody']
        exact .gone hdead hframes hpre
      · exact .running rx ps hz hright' hmirrors' hfollows' hps' hfits hsent houtputs'

/-- The turn that finds it ended. -/
theorem Through.ends {x : Command} {status : Nat}
    (h : Through stdin written h0 cmd s hs ms sent given) (hphase : s.agent.phase = .exec x)
    (env : Env) (n : Nat) (c : Card.Calls) (l : Look) (ls : List (Nat × Look))
    (hended : c.waited = .exited status) : ∃ hs' ms',
      Through stdin written h0 cmd (s.cardTurn env n c l ls) hs' ms' sent given := by
  obtain ⟨first, left, more, hmoved⟩ := h.moves env n c l ls
  refine ⟨hs ++ more, left, ?_⟩
  have ht : s.cardTurn env n c l ls =
      { s with
        agent := s.agent.turn env (s.calls n c l ls)
        toCard := if s.agent.reads (s.calls n c l ls)
          then s.toCard.drop (s.calls n c l ls).device.bytes.length else s.toCard
        waited := some (status, Watched.ending env ls ⟨s.agent, s.pipes⟩) } := by
    have hended' : (s.calls n c l ls).waited = .exited status := hended
    unfold Remote.cardTurn
    rw [hphase]
    dsimp only
    rw [hended']
  cases h.stage with
  | asked _ _ hidle =>
      rw [(hidle (by rw [hphase]; exact nofun)).1] at hphase
      cases hphase
  | gone hdead =>
      rw [hdead] at hphase
      cases hphase
  | finished _ _ hidle =>
      rw [hidle (by rw [hphase]; exact nofun)] at hphase
      cases hphase
  | running rx ps hphase' hright hmirrors hfollows hps hfits hsent houtputs =>
      have hcalls : ({ s.calls n c l ls with
          waited := .exited status, drain := Pipes.drain ls s.pipes } : Card.Calls) =
            s.calls n c l ls := by
        unfold Remote.calls
        rw [← hended]
      have hfinish := Agent.Outputs.finish (w := ⟨s.agent, s.pipes⟩) houtputs env
        (s.calls n c l ls) status ls
      unfold Watched.finish at hfinish
      dsimp only at hfinish
      rw [hcalls] at hfinish
      obtain ⟨body, hframes, hpre, hend⟩ := hfinish
      have hhist := hmoved.history
      rw [ht] at hmoved hhist ⊢
      refine h.moved hmoved h.input h.acted ?_
      have hall : h0 ++ (hs ++ more) = (s.agent.turn env (s.calls n c l ls)).history := by
        rw [← List.append_assoc, ← h.history]
        exact hhist.symm
      obtain ⟨hdead, hbody⟩ | ⟨hidle, hbody, hclosed⟩ := hend
      · rw [hbody] at hall
        rw [List.append_cancel_left hall]
        exact .gone hdead hframes hpre
      · rw [hbody, List.append_assoc] at hall
        rw [List.append_cancel_left hall]
        refine .finished (outs body) (.exit (exitCode status)) (fun _ => hidle) ?_
          (fun m hm => (own_of_frames hframes hm).2)
          (.inr ⟨status, _, rfl, rfl, fun o => ?_, fun hc o => ?_⟩)
        · rw [outs_append]
          rfl
        · rw [shownOf_outs]
          exact hpre o
        · rw [shownOf_outs]
          exact hclosed hc o

/-- `wait4` failed, and the agent ends itself. -/
theorem Through.fails {x : Command} {errno : Nat}
    (h : Through stdin written h0 cmd s hs ms sent given) (hphase : s.agent.phase = .exec x)
    (env : Env) (n : Nat) (c : Card.Calls) (l : Look) (ls : List (Nat × Look))
    (hfailed : c.waited = .failed errno) : ∃ hs' ms',
      Through stdin written h0 cmd (s.cardTurn env n c l ls) hs' ms' sent given := by
  obtain ⟨first, left, more, hmoved⟩ := h.moves env n c l ls
  refine ⟨hs ++ more, left, ?_⟩
  have hfailed' : (s.calls n c l ls).waited = .failed errno := hfailed
  have hdie : s.agent.turn env (s.calls n c l ls) = s.agent.die := by
    unfold Agent.turn
    rw [hphase]
    dsimp only
    unfold Agent.execTurn
    rw [hfailed']
  have ht : s.cardTurn env n c l ls =
      { s with
        agent := s.agent.die
        toCard := if s.agent.reads (s.calls n c l ls)
          then s.toCard.drop (s.calls n c l ls).device.bytes.length else s.toCard } := by
    unfold Remote.cardTurn
    rw [hphase]
    dsimp only
    rw [hfailed', hdie]
  have hhist := hmoved.history
  rw [ht] at hmoved hhist ⊢
  have hmore : more = [] := by
    have hsame : s.agent.history ++ [] = s.agent.history ++ more := by
      rw [List.append_nil]
      exact hhist
    exact (List.append_cancel_left hsame).symm
  refine h.moved hmoved h.input h.acted ?_
  rw [hmore, List.append_nil]
  cases h.stage with
  | asked _ _ hidle =>
      rw [(hidle (by rw [hphase]; exact nofun)).1] at hphase
      cases hphase
  | gone hdead =>
      rw [hdead] at hphase
      cases hphase
  | finished _ _ hidle =>
      rw [hidle (by rw [hphase]; exact nofun)] at hphase
      cases hphase
  | running _ _ _ _ _ _ _ _ _ houtputs =>
      obtain ⟨body, hbody, hframes, hpre⟩ := houtputs.bounded
      have hall : h0 ++ hs = h0 ++ body := h.history.symm.trans hbody
      rw [List.append_cancel_left hall]
      exact .gone rfl hframes hpre

/-! ### outside the command's loop -/

/-- A turn outside a session: nothing is found, or one frame is acted on. -/
theorem turn_idle {a : Agent} (hidle : a.phase = .idle) (hw : a.rx.head ≤ a.rx.tail)
    (env : Env) {c : Card.Calls} (hc : c.Possible) : ∃ b : Agent,
      (a.rx.tail ≤ decCap → b.rx.tail ≤ decCap) ∧
      (a.turn env c = b ∧ b.history = a.history ∧ (b.phase = .idle ∨ b.phase = .dead) ∨
        ∃ m, a.turn env c = b.mainFrame env c m ∧ b.history = a.history ++ [.took m] ∧
          b.phase = .idle) := by
  have hlooked := Agent.looked_nextBlocking c.device a
  have hbound : a.rx.tail ≤ decCap → (a.nextBlocking c.device).1.rx.tail ≤ decCap :=
    fun hfits => rx_nextBlocking (by rw [hidle]; exact nofun) hw hfits hc
  unfold Agent.turn Agent.mainTurn
  rw [hidle]
  dsimp only
  generalize a.nextBlocking c.device = y at hlooked hbound
  obtain ⟨b, found⟩ := y
  refine ⟨b, hbound, ?_⟩
  obtain ⟨hnone, hhist, hphase⟩ | ⟨m, hm, hhist, hphase, -⟩ := hlooked
  · dsimp only at hnone hhist hphase
    subst hnone
    rw [hidle] at hphase
    exact .inl ⟨rfl, hhist, hphase⟩
  · dsimp only at hm hhist hphase
    subst hm
    exact .inr ⟨m, rfl, hhist, hphase.trans hidle⟩

/-- The card's turn while no command is started. -/
theorem cardTurn_stays (n : Nat) (c : Card.Calls) (l : Look) (ls : List (Nat × Look)) (env : Env)
    (hphase : s.agent.phase = .idle)
    (hstays : ∀ x, (s.agent.turn env (s.calls n c l ls)).phase ≠ .exec x) :
    s.cardTurn env n c l ls =
      { s with
        agent := s.agent.turn env (s.calls n c l ls)
        toCard := if s.agent.reads (s.calls n c l ls)
          then s.toCard.drop (s.calls n c l ls).device.bytes.length else s.toCard } := by
  unfold Remote.cardTurn
  rw [hphase]
  dsimp only
  split
  · next x hx => exact absurd hx (hstays x)
  · rfl

/-- And when one is. -/
theorem cardTurn_starts (n : Nat) (c : Card.Calls) (l : Look) (ls : List (Nat × Look)) (env : Env)
    {x : Command} (hphase : s.agent.phase = .idle)
    (hstarts : (s.agent.turn env (s.calls n c l ls)).phase = .exec x) :
    s.cardTurn env n c l ls =
      { s with
        agent := s.agent.turn env (s.calls n c l ls)
        toCard := if s.agent.reads (s.calls n c l ls)
          then s.toCard.drop (s.calls n c l ls).device.bytes.length else s.toCard
        relay := .start (s.agent.turn env (s.calls n c l ls)).rx fun _ => 0 } := by
  unfold Remote.cardTurn
  rw [hphase]
  dsimp only
  rw [hstarts]

/-- A frame taken alone is the first of those on their way. -/
theorem Moved.one {first left : List Msg} {gs : List Happening}
    (h : Moved s t ms first left (.took m :: gs)) (hgs : Card.taken gs = []) :
    ∃ m', m'.normal = m ∧ ms = m' :: left := by
  have htaken := h.taken
  have hone : Card.taken (.took m :: gs) = [m] := congrArg (m :: ·) hgs
  rw [hone] at htaken
  obtain ⟨m', rest, rfl, hm, hrest⟩ := List.map_eq_cons_iff.mp htaken.symm
  rw [List.map_eq_nil_iff] at hrest
  subst hrest
  exact ⟨m', hm, h.frames⟩

theorem Moved.none {first left : List Msg} (h : Moved s t ms first left []) : left = ms := by
  have htaken := h.taken
  have hnil : first = [] := List.map_eq_nil_iff.mp htaken.symm
  rw [h.frames, hnil]
  rfl

/-- What happened in the turn. -/
theorem Moved.more {first left : List Msg} {g more : List Happening}
    (h : Moved s t ms first left more) (hhist : t.agent.history = s.agent.history ++ g) :
    more = g :=
  List.append_cancel_left (h.history.symm.trans hhist)

theorem Standing.quiet {cur : Option Kind} {q : List Msg} {t : Msg}
    (h : Standing (some .exec) cur (ms.map Msg.normal) (q ++ [t]))
    (ht : Kind.exec.ends t = true) : Quiet ms := by
  generalize hos : q ++ [t] = os at h
  generalize hms : ms.map Msg.normal = xs at h
  have hquiet : Quiet xs := by
    cases h with
    | asked _ _ _ => simp at hos
    | running _ hown =>
        have hmem : t ∈ q ++ [t] := List.mem_append_right _ List.mem_cons_self
        rw [Kind.not_ends_of_own (hown t (hos ▸ hmem))] at ht
        cases ht
    | finished hq _ _ => exact hq
  intro m hm
  rw [← opens_normal]
  exact hquiet _ (hms ▸ List.mem_map_of_mem hm)

theorem Says.ends {waited : Option (Nat × Ending)} {q : List Msg} {t : Msg}
    (h : Says written waited q t) : Kind.exec.ends t = true := by
  obtain ⟨text, rfl, -, -⟩ | ⟨status, ending, -, rfl, -⟩ := h <;> rfl

/-- After the last frame only frames that open nothing are taken. -/
theorem Through.rests {q : List Msg} {t : Msg}
    (h : Through stdin written h0 cmd s hs ms sent given) (hphase : s.agent.phase = .idle)
    (hout : outs hs = q ++ [t]) (hfits : ∀ m ∈ q, m.body.length ≤ Rpc.maxFrame)
    (htold : Says written s.waited q t) (env : Env) (n : Nat) (c : Card.Calls) (l : Look)
    (ls : List (Nat × Look)) : ∃ hs' ms',
      Through stdin written h0 cmd (s.cardTurn env n c l ls) hs' ms' sent given := by
  obtain ⟨first, left, more, hmoved⟩ := h.moves env n c l ls
  refine ⟨hs ++ more, left, ?_⟩
  obtain ⟨cur, -, hstanding⟩ := h.standing
  rw [hout] at hstanding
  have hquiet := hstanding.quiet htold.ends
  have hw := (h.arriving (by rw [hphase]; exact nofun)).1
  obtain ⟨b, -, ⟨hturn, hhist, hb⟩ | ⟨m, hturn, hhist, hb⟩⟩ :=
    turn_idle hphase hw env (s.possible_calls n c l ls)
  · have ht := cardTurn_stays n c l ls env hphase
      (fun x hx => by
        rw [hturn] at hx
        obtain hb | hb := hb <;> rw [hb] at hx <;> cases hx)
    rw [ht] at hmoved ⊢
    obtain rfl := hmoved.more (g := []) (by rw [List.append_nil, ← hhist, ← hturn])
    refine h.moved hmoved h.input h.acted (.finished q t (fun hlive => ?_) ?_ hfits
      htold)
    · dsimp only at hlive ⊢
      rw [hturn] at hlive ⊢
      exact hb.resolve_right hlive
    · rw [List.append_nil, hout]
  · obtain ⟨gs, hgs, hnone, htaken, hstays⟩ :
        ∃ gs, (b.mainFrame env (s.calls n c l ls) m).history = b.history ++ gs ∧ outs gs = [] ∧
          taken gs = [] ∧ ((b.mainFrame env (s.calls n c l ls) m).phase = b.phase ∨
            (b.mainFrame env (s.calls n c l ls) m).phase = .dead) := by
      refine mainFrame_quiet env _ b ?_
      obtain ⟨gs, hgs, htaken⟩ := mainFrame_history env (s.calls n c l ls) b m
      have hagent : (s.cardTurn env n c l ls).agent.history =
          s.agent.history ++ (.took m :: gs) := by
        rw [s.agent_cardTurn, hturn, hgs, hhist, List.append_assoc]
        rfl
      obtain rfl := hmoved.more hagent
      obtain ⟨m', rfl, rfl⟩ := hmoved.one htaken
      rw [opens_normal]
      exact hquiet.head
    have hphase' : ∀ x, (s.agent.turn env (s.calls n c l ls)).phase ≠ .exec x := fun x hx => by
      rw [hturn] at hx
      obtain hb' | hb' := hstays
      · rw [hb', hb] at hx
        cases hx
      · rw [hb'] at hx
        cases hx
    have ht := cardTurn_stays n c l ls env hphase
      hphase'
    rw [ht] at hmoved ⊢
    obtain rfl := hmoved.more (g := .took m :: gs) (by
      dsimp only
      rw [hturn, hgs, hhist, List.append_assoc]
      rfl)
    refine h.moved hmoved h.input h.acted (.finished q t (fun hlive => ?_) ?_ hfits
      htold)
    · dsimp only at hlive ⊢
      rw [hturn] at hlive ⊢
      exact (hstays.resolve_right hlive).trans hb
    · rw [outs_append, hout]
      show (q ++ [t]) ++ outs gs = q ++ [t]
      rw [hnone, List.append_nil]

theorem frames_of_outs (h : outs hs = []) : Frames hs := by
  intro m hm
  refine .inr ?_
  induction hs with
  | nil => cases hm
  | cons x hs ih =>
      cases x with
      | took m' =>
          obtain heq | hm := List.mem_cons.mp hm
          · cases heq
          · exact ih h hm
      | sent m' =>
          cases m' with
          | statReply st =>
              obtain heq | hm := List.mem_cons.mp hm
              · cases heq
                rfl
              · exact ih h hm
          | _ => cases h

/-- The command's input as `run_exec` sets it up. -/
theorem relay_start_right {w : Window UInt8} (hw : w.head ≤ w.tail) (hfits : w.tail ≤ decCap) :
    (Card.Relay.start w fun _ => 0).Right := by
  refine ⟨⟨Nat.le_refl _, Nat.zero_le _, rfl, List.prefix_rfl, ?_, fun _ => rfl, ?_, ?_⟩, hw,
    hfits, ?_⟩
  · simp [Card.Relay.start, Input.start]
  · simp [Card.Relay.start, Input.start]
  · simp [Card.Relay.start, Input.start]
  · show 0 - 0 + w.size ≤ inputBacklog + decCap
    unfold Window.size
    omega

/-- The command is started. -/
theorem Course.starts {x : Agent} {c : List UInt8} (hagent : t.agent = x) (htoCard : t.toCard = c)
    (hphase : x.phase = .exec .start) (hhist : x.history = h0 ++ hs)
    (hw : x.rx.head ≤ x.rx.tail) (hbound : x.rx.tail ≤ decCap) (hcarries : Carries x.rx c ms)
    (hfits : ∀ m ∈ ms, m.body.length ≤ Rpc.maxFrame) (hrelay : t.relay = .start x.rx fun _ => 0)
    (hout : outs hs = []) (hpipes : t.pipes = written) (hsent : ins ms ++ t.up = sent) :
    Course written h0 cmd t hs ms sent := by
  have hnothing : ∀ o, streamOf o hs = [] := fun o => by
    rw [← shownOf_outs, hout]
    rfl
  refine .running (x := .start) x.rx ms (by rw [hagent]; exact hphase) ?_ ?_ ?_ ?_
    hfits hsent ⟨.inr ⟨.start, hs, by rw [hagent]; exact hphase, by rw [hagent]; exact hhist,
      fun o => ?_, fun o ho => by cases o <;> cases ho⟩, hs, by rw [hagent]; exact hhist,
      frames_of_outs hout, fun o => ?_⟩
  · rw [hrelay]
    exact relay_start_right hw hbound
  · rw [hrelay, hagent]
    exact .inr ⟨.start, hphase, rfl, rfl, rfl, rfl, rfl⟩
  · rw [hrelay]
    intro ms coming _ hms
    refine ⟨ms, rfl, fun _ hm => hm, ?_⟩
    unfold Carries
    rw [← hms]
    simp [Card.Relay.start]
  · rw [hrelay, htoCard]
    show x.rx.content ++ [] ++ c = _
    rw [List.append_nil]
    exact hcarries
  · rw [hnothing, hpipes]
    rfl
  · rw [hnothing]
    exact List.nil_prefix

/-- A turn before the command is taken, or the one that takes it. -/
theorem Through.asks {argv : List String} {vars : List (String × String)} {cwd : Option String}
    {ps : List Msg} (h : Through stdin written h0 (.exec argv vars cwd) s hs ms sent given)
    (hphase : s.agent.phase = .idle) (hbound : s.agent.rx.tail ≤ decCap) (hout : outs hs = [])
    (hcmd : ins ms = .exec argv vars cwd :: ps) (hsent : ps ++ s.up = sent)
    (hwritten : s.pipes = written) (hwaited : s.waited = none) (env : Env) (n : Nat)
    (c : Card.Calls) (l : Look) (ls : List (Nat × Look)) : ∃ hs' ms',
      Through stdin written h0 (.exec argv vars cwd) (s.cardTurn env n c l ls) hs' ms' sent
        given := by
  obtain ⟨first, left, more, hmoved⟩ := h.moves env n c l ls
  refine ⟨hs ++ more, left, ?_⟩
  have hw := (h.arriving (by rw [hphase]; exact nofun)).1
  obtain ⟨b, hbbound, ⟨hturn, hhist, hb⟩ | ⟨m, hturn, hhist, hb⟩⟩ :=
    turn_idle hphase hw env (s.possible_calls n c l ls)
  · have ht := cardTurn_stays n c l ls env hphase
      (fun x hx => by
        rw [hturn] at hx
        obtain hb | hb := hb <;> rw [hb] at hx <;> cases hx)
    rw [ht] at hmoved ⊢
    obtain rfl := hmoved.more (g := []) (by rw [List.append_nil, ← hhist, ← hturn])
    obtain rfl := hmoved.none
    refine h.moved hmoved h.input h.acted (.asked ps ?_ (fun hlive => ?_) hcmd hsent
      hwritten hwaited)
    · rw [List.append_nil, hout]
    · dsimp only at hlive ⊢
      rw [hturn] at hlive ⊢
      exact ⟨hb.resolve_right hlive, hbbound hbound⟩
  · obtain ⟨gs, hgs, htaken⟩ := mainFrame_history env (s.calls n c l ls) b m
    obtain rfl := hmoved.more (g := .took m :: gs) (by
      rw [s.agent_cardTurn, hturn, hgs, hhist, List.append_assoc]
      rfl)
    obtain ⟨m', rfl, rfl⟩ := hmoved.one htaken
    have hall : outs (hs ++ .took m'.normal :: gs) = outs gs := by
      rw [outs_append, hout]
      rfl
    by_cases hstat : m' = .stat
    · subst hstat
      obtain ⟨gs', hgs', hnone, -, hstays⟩ := statReply_cases env b
      have hreply : s.agent.turn env (s.calls n c l ls) = b.statReply env := hturn
      obtain rfl : gs = gs' := List.append_cancel_left (hgs.symm.trans hgs')
      have ht := cardTurn_stays n c l ls env hphase
        (fun x hx => by
          rw [hreply] at hx
          obtain hb' | hb' := hstays
          · rw [hb', hb] at hx
            cases hx
          · rw [hb'] at hx
            cases hx)
      rw [ht] at hmoved ⊢
      refine h.moved hmoved h.input h.acted (.asked ps (hall.trans hnone) (fun hlive => ?_)
        hcmd hsent hwritten hwaited)
      dsimp only at hlive ⊢
      rw [hreply] at hlive ⊢
      refine ⟨(hstays.resolve_right hlive).trans hb, ?_⟩
      unfold Agent.statReply
      rw [rx_send]
      exact hbbound hbound
    · have hcons : ins (m' :: left) = m' :: ins left :=
        List.filter_cons_of_pos (by simpa using hstat)
      rw [hcons] at hcmd
      obtain ⟨rfl, rfl⟩ := List.cons.inj hcmd
      obtain ⟨text, hrun⟩ | hrun := runExec_cases env (s.calls n c l ls)
        ((argv.take maxList).map clipped)
        ((vars.take maxList).map fun e => (clipped e.1, clipped e.2))
        ((cwd.filter (· ≠ "")).map clipped) b
      · -- refused
        have hrefused : s.agent.turn env (s.calls n c l ls) = b.send env (.error text) :=
          hturn.trans hrun
        have hsend : b.mainFrame env (s.calls n c l ls) (Msg.exec argv vars cwd).normal =
            b.send env (.error text) := hrun
        rw [hsend] at hgs
        have ht := cardTurn_stays n c l ls env hphase
          (fun x hx => by
            rw [hrefused] at hx
            obtain ⟨-, hb', -⟩ | ⟨-, hb'⟩ := Agent.send_cases env (.error text) b
            · rw [hb', hb] at hx
              cases hx
            · rw [hb'] at hx
              cases hx)
        rw [ht] at hmoved ⊢
        refine h.moved hmoved h.input h.acted ?_
        obtain ⟨hsent', hb', -⟩ | ⟨hsame, hdead⟩ := Agent.send_cases env (.error text) b
        · obtain rfl : gs = [.sent (.error text)] :=
            List.append_cancel_left (hgs.symm.trans hsent')
          refine .finished [] (.error text) (fun _ => ?_) hall nofun
            (.inl ⟨text, rfl, rfl, hwaited⟩)
          dsimp only
          rw [hrefused, hb', hb]
        · obtain rfl : gs = [] :=
            List.append_cancel_left (hgs.symm.trans (hsame.trans (List.append_nil _).symm))
          refine .gone ?_ (frames_of_outs hall) fun o => ?_
          · dsimp only
            rw [hrefused, hdead]
          · rw [← shownOf_outs, hall]
            exact List.nil_prefix
      · -- started
        have hstarted : s.agent.turn env (s.calls n c l ls) = b.enter (.exec .start) :=
          hturn.trans hrun
        have henter : b.enter (.exec .start) = { b with phase := .exec .start } := by
          unfold Agent.enter
          rw [hb]
        have hsend : b.mainFrame env (s.calls n c l ls) (Msg.exec argv vars cwd).normal =
            { b with phase := .exec .start } := hrun.trans henter
        rw [hsend] at hgs
        obtain rfl : gs = [] :=
          List.append_cancel_left (hgs.symm.trans (List.append_nil b.history).symm)
        rw [henter] at hstarted
        have ht := cardTurn_starts (s := s) n c l ls env hphase (by rw [hstarted])
        rw [ht] at hmoved ⊢
        rw [hstarted] at hmoved ⊢
        obtain ⟨hw', hcarries⟩ := hmoved.arriving nofun
        refine h.moved hmoved (relay_start_right hw' (hbbound hbound)).input List.nil_prefix
          (.starts rfl rfl rfl ?_ hw' (hbbound hbound) hcarries
            (fun m hm => h.fits m (List.mem_cons_of_mem _ hm)) rfl hall hwritten hsent)
        dsimp only
        rw [hhist, h.history, List.append_assoc]

theorem Through.card {argv : List String} {vars : List (String × String)} {cwd : Option String}
    (h : Through stdin written h0 (.exec argv vars cwd) s hs ms sent given) (env : Env) (n : Nat)
    (c : Card.Calls) (l : Look) (ls : List (Nat × Look)) : ∃ hs' ms',
      Through stdin written h0 (.exec argv vars cwd) (s.cardTurn env n c l ls) hs' ms' sent
        given := by
  cases hphase : s.agent.phase with
  | dead =>
      have hstay : s.cardTurn env n c l ls = s := by
        have hturn : s.agent.turn env (s.calls n c l ls) = s.agent := by
          unfold Agent.turn
          rw [hphase]
        have hreads : s.agent.reads (s.calls n c l ls) = false := by
          unfold Agent.reads
          rw [hphase]
        unfold Remote.cardTurn
        dsimp only
        rw [hreads, if_neg Bool.false_ne_true, hturn, hphase]
      exact ⟨hs, ms, by rw [hstay]; exact h⟩
  | exec x =>
      cases hwaited : c.waited with
      | running => exact h.runs hphase env n c l ls hwaited
      | exited status => exact h.ends hphase env n c l ls hwaited
      | failed errno => exact h.fails hphase env n c l ls hwaited
  | idle =>
      cases h.stage with
      | asked ps hout hidle hcmd hsent hwritten hwaited =>
          exact h.asks hphase (hidle (by rw [hphase]; exact nofun)).2 hout hcmd hsent hwritten
            hwaited env n c l ls
      | running _ _ hexec =>
          rw [hexec] at hphase
          cases hphase
      | gone hdead =>
          rw [hdead] at hphase
          cases hphase
      | finished _ _ _ hout hfits htold => exact h.rests hphase hout hfits htold env n c l ls
  | put path | get path size =>
      cases h.stage with
      | asked _ _ hidle =>
          rw [(hidle (by rw [hphase]; exact nofun)).1] at hphase
          cases hphase
      | running _ _ hexec =>
          rw [hexec] at hphase
          cases hphase
      | gone hdead =>
          rw [hdead] at hphase
          cases hphase
      | finished _ _ hidle =>
          rw [hidle (by rw [hphase]; exact nofun)] at hphase
          cases hphase

end through

end Phi.Xfer
