import Phi.Xfer.Relayed

/-!
# Phi.Xfer.Through

What a run of the client, the daemon and the card keeps (`Through`), and that the
client and the daemon keep it.

The command is on its way, running, ended with its agent, or ended (`Course`).
-/

namespace Phi.Xfer

open Rpc Card Serve

/-! ## the agent's reads -/

section reads

variable {a : Agent} {r : Card.Relay} {c : Card.Calls}

/-- The loop reads the device in the same turns as its input does. -/
theorem arrived_turn {x : Command} (hphase : a.phase = .exec x) (h : a.Mirrors r)
    (hr : r.Right) (hrun : c.waited = .running) :
    (r.turn c).arrived = r.arrived ++ if a.reads c then c.device.bytes else [] := by
  have hflush : (a.onCommand (Command.flush c.writes)).Mirrors
      { r with input := r.input.flush c.writes } :=
    h.onCommand (fun _ hq he ho => Input.flush_content hq he ho) rfl rfl
  have hlive : (a.onCommand (Command.flush c.writes)).phase ≠ .dead := by
    unfold Agent.onCommand
    rw [hphase]
    exact nofun
  have hfin : r.finished = false := by
    obtain hdead | ⟨y, -, -, -, -, -, hfin⟩ := h
    · rw [hphase] at hdead
      cases hdead
    · exact hfin
  have hsame : ∀ t : Card.Relay, t.next.1.arrived = t.arrived := fun t => by
    unfold Card.Relay.next
    split <;> rfl
  have hreads : ∀ b found, (a.onCommand (Command.flush c.writes)).nextFrame = (b, found) →
      a.reads c = (found.isNone && (c.deviceReady && b.wantsInput)) := by
    intro b found hframe
    unfold Agent.reads
    rw [hphase, hrun]
    dsimp only
    rw [hframe]
    cases found with
    | none => rfl
    | some m => rfl
  have hnext := hsame { r with input := r.input.flush c.writes }
  unfold Card.Relay.turn
  rw [if_neg (by rw [hfin]; exact Bool.false_ne_true), hrun]
  dsimp only
  obtain ⟨b, m, hframe, hfound, -⟩ | ⟨b, hframe, hb, hdead⟩ :=
    hflush.next Agent.calm (hr.flush c.writes)
  · rw [hreads b (some m) hframe]
    generalize ({ r with input := r.input.flush c.writes } : Card.Relay).next = y at hfound hnext
    obtain ⟨t, found⟩ := y
    dsimp only at hfound hnext
    subst hfound
    exact hnext.trans (List.append_nil _).symm
  · have hblive : b.phase ≠ .dead := by
      rw [Agent.nextFrame_eq hlive] at hframe
      split at hframe
      · cases hframe
      · cases hframe
        exact hlive
    rw [hreads b none hframe]
    generalize ({ r with input := r.input.flush c.writes } : Card.Relay).next = y at hb hdead hnext
    obtain ⟨t, _ | _⟩ := y
    · dsimp only at hb hnext ⊢
      obtain hgone | ⟨z, hz, -, hq, -, -, hunfinished⟩ := hb
      · exact absurd hgone hblive
      · have hwants : b.wantsInput = decide (t.input.buf.size < inputBacklog) := by
          unfold Agent.wantsInput
          rw [hz]
          dsimp only
          rw [hq, Window.length_content]
        unfold Card.Relay.poll
        rw [hwants]
        by_cases hread : c.deviceReady = true ∧ t.input.buf.size < inputBacklog
        · have hboth : ((none : Option Msg).isNone &&
              (c.deviceReady && decide (t.input.buf.size < inputBacklog))) = true := by
            simpa using hread
          rw [if_pos hread, if_pos hboth, ← hnext]
          unfold Card.Relay.fill
          cases c.device with
          | data bytes =>
              show (if t.finished = true then _ else _ : Card.Relay).arrived = _
              rw [hunfinished, if_neg Bool.false_ne_true, hsame]
              rfl
          | eof => exact (List.append_nil t.arrived).symm
          | failed errno => exact (List.append_nil t.arrived).symm
        · have hneither : ¬ ((none : Option Msg).isNone &&
              (c.deviceReady && decide (t.input.buf.size < inputBacklog))) = true := by
            simpa using hread
          rw [if_neg hread, if_neg hneither, List.append_nil]
          show (if t.finished = true then t else t.next.1).arrived = _
          rw [hunfinished, if_neg Bool.false_ne_true, hsame]
          exact hnext
    · exact absurd (hdead rfl) hblive

end reads

/-! ## the agent outside a session -/

section idle

variable {env : Env} {a b : Agent} {m : Msg} {c : Card.Calls}

theorem rx_send (env : Env) (m : Msg) (a : Agent) : (a.send env m).rx = a.rx := by
  unfold Agent.send
  split
  · rfl
  · split <;> rfl

/-- The frame found leaves the buffer within its bounds. -/
theorem rx_nextFrame (hw : a.rx.head ≤ a.rx.tail) (hfits : a.rx.tail ≤ decCap) :
    a.nextFrame.1.rx.tail ≤ decCap := by
  by_cases hdead : a.phase = .dead
  · unfold Agent.nextFrame
    rw [hdead]
    exact hfits
  · rw [Agent.nextFrame_eq hdead]
    split
    · next m left hnext => exact Nat.le_trans (rxNext_some hw hnext).2.1 hfits
    · next left hnext => exact Nat.le_trans (rxNext_none hw hnext).2.1 hfits

theorem rx_fill (hlive : a.phase ≠ .dead) (r : Read) :
    (∃ bytes, r = .data bytes ∧ (a.fill r).rx = rxFill a.rx bytes) ∨ (a.fill r).rx = a.rx := by
  unfold Agent.fill
  cases hphase : a.phase with
  | dead => exact absurd hphase hlive
  | _ =>
      cases r with
      | data bytes => exact .inl ⟨bytes, rfl, rfl⟩
      | eof => exact .inr rfl
      | failed errno => exact .inr rfl

theorem rx_nextBlocking (hlive : a.phase ≠ .dead) (hw : a.rx.head ≤ a.rx.tail)
    (hfits : a.rx.tail ≤ decCap) (hc : c.Possible) :
    (a.nextBlocking c.device).1.rx.tail ≤ decCap := by
  unfold Agent.nextBlocking
  have hnext := rx_nextFrame hw hfits
  rw [Agent.nextFrame_eq hlive] at hnext ⊢
  cases hfound : rxNext a.rx with
  | mk found left =>
      rw [hfound] at hnext
      cases found with
      | some m => exact hnext
      | none =>
          obtain ⟨hordered, -, -, hturn⟩ := rxNext_none hw hfound
          dsimp only at hnext ⊢
          have hbounds : ∀ r, c.device = r → (Agent.fill r { a with rx := left }).rx.head ≤
              (Agent.fill r { a with rx := left }).rx.tail ∧
              (Agent.fill r { a with rx := left }).rx.tail ≤ decCap := by
            intro r hr
            obtain ⟨bytes, rfl, hrx⟩ | hrx := rx_fill (a := { a with rx := left }) hlive r
            · rw [hrx]
              exact ⟨(rxFill_content hordered bytes).2, rxFill_fits hordered hturn (hc bytes hr)⟩
            · rw [hrx]
              exact ⟨hordered, hnext⟩
          obtain ⟨hhead, htail⟩ := hbounds c.device rfl
          exact rx_nextFrame hhead htail

/-- A command is started, or refused with an Error. -/
theorem runExec_cases (env : Env) (c : Card.Calls) (argv : List String)
    (vars : List (String × String)) (cwd : Option String) (a : Agent) :
    (∃ text, a.runExec env c argv vars cwd = a.send env (.error text)) ∨
      a.runExec env c argv vars cwd = a.enter (.exec .start) := by
  unfold Agent.runExec
  split
  · exact .inl ⟨_, rfl⟩
  · split
    · exact .inl ⟨_, rfl⟩
    · split
      · exact .inl ⟨_, rfl⟩
      · exact .inr rfl

end idle

/-! ## the invariant -/

/-- What the last frame of the session says: the command was not started, or how it
ended, after its output. -/
def Says (written : Pipes) (waited : Option (Nat × Ending)) (q : List Msg) (t : Msg) : Prop :=
  (∃ text, t = .error text ∧ q = [] ∧ waited = none) ∨
  ∃ status ending, waited = some (status, ending) ∧ t = .exit (exitCode status) ∧
    (∀ o, shownOf o q <+: written o) ∧ (ending = .closed → ∀ o, shownOf o q = written o)

/-- The command on its way, running, ended with its agent, or ended. -/
inductive Course (written : Pipes) (h0 : List Happening) (cmd : Msg) (s : Remote)
    (hs : List Happening) (ms sent : List Msg) : Prop where
  | asked (ps : List Msg) (hout : outs hs = [])
      (hidle : s.agent.phase ≠ .dead → s.agent.phase = .idle ∧ s.agent.rx.tail ≤ decCap)
      (hcmd : ins ms = cmd :: ps) (hsent : ps ++ s.up = sent) (hwritten : s.pipes = written)
      (hwaited : s.waited = none)
  | running {x : Command} (rx : Window UInt8) (ps : List Msg)
      (hphase : s.agent.phase = .exec x) (hright : s.relay.Right)
      (hmirrors : s.agent.Mirrors s.relay) (hfollows : s.relay.Follows rx)
      (hps : rx.content ++ s.relay.arrived ++ s.toCard = ps.flatMap Msg.encode)
      (hfits : ∀ m ∈ ps, m.body.length ≤ Rpc.maxFrame) (hsent : ins ps ++ s.up = sent)
      (houtputs : s.agent.Outputs h0 written s.pipes)
  | gone (hdead : s.agent.phase = .dead) (hframes : Frames hs)
      (hpre : ∀ o, streamOf o hs <+: written o)
  | finished (q : List Msg) (t : Msg) (hidle : s.agent.phase ≠ .dead → s.agent.phase = .idle)
      (hout : outs hs = q ++ [t]) (hfits : ∀ m ∈ q, m.body.length ≤ Rpc.maxFrame)
      (htold : Says written s.waited q t)

/-- What every state reached keeps. -/
structure Through (stdin : List UInt8) (written : Pipes) (h0 : List Happening) (cmd : Msg)
    (s : Remote) (hs : List Happening) (ms sent given : List Msg) : Prop where
  kept : s.agent.Kept
  history : s.agent.history = h0 ++ hs
  seen : s.seen ≤ s.agent.history.length
  fits : ∀ m ∈ ms, m.body.length ≤ Rpc.maxFrame
  arriving : s.agent.phase ≠ .dead →
    s.agent.rx.head ≤ s.agent.rx.tail ∧ Carries s.agent.rx s.toCard ms
  standing : ∃ cur, Tracks s.agent.history cur ∧
    Standing (some .exec) cur (ms.map Msg.normal) (outs hs)
  sends : Sends stdin s.client sent
  waiting : s.up <:+ sent
  upfits : ∀ m ∈ s.up, m.body.length ≤ Rpc.maxFrame
  input : s.relay.input.Right s.relay.acted
  acted : ins s.relay.acted <+: sent
  stage : Course written h0 cmd s hs ms sent
  split : outs hs = given ++ outs (s.agent.history.drop s.seen)
  ended : s.ended = true → ∃ t ∈ given, Kind.exec.ends t = true
  shows : ∃ acted owed, Shows given s.client s.down acted owed

section frames

variable {cur : Option Kind} {ms os p q : List Msg} {t m : Msg} {hs : List Happening}

theorem Standing.frames (h : Standing (some .exec) cur ms os) (hm : m ∈ os) :
    Kind.exec.own m = true ∨ Kind.exec.ends m = true := by
  cases h with
  | asked _ _ _ => cases hm
  | running _ hown => exact .inl (hown m hm)
  | finished _ hown ht =>
      obtain hm | hm := List.mem_append.mp hm
      · exact .inl (hown m hm)
      · rw [List.mem_singleton.mp hm]
        exact .inr ht

/-- Nothing comes after the last frame. -/
theorem Standing.last (h : Standing (some .exec) cur ms (p ++ t :: q))
    (ht : Kind.exec.ends t = true) : q = [] := by
  generalize hall : p ++ t :: q = os at h
  cases h with
  | asked _ _ _ => simp at hall
  | running _ hown =>
      have hmem : t ∈ p ++ t :: q := List.mem_append_right _ List.mem_cons_self
      rw [Kind.not_ends_of_own (hown t (hall ▸ hmem))] at ht
      cases ht
  | @finished _ _ os t' _ hown _ =>
      rcases List.eq_nil_or_concat q with rfl | ⟨q', t'', rfl⟩
      · rfl
      · have hsplit : (p ++ t :: q') ++ [t''] = os ++ [t'] := by
          rw [← hall]
          simp
        have hos : p ++ t :: q' = os := (List.append_inj' hsplit rfl).1
        have hmem : t ∈ os := by
          rw [← hos]
          exact List.mem_append_right _ List.mem_cons_self
        rw [Kind.not_ends_of_own (hown t hmem)] at ht
        cases ht

theorem mem_outs (hm : m ∈ outs hs) : .sent m ∈ hs ∧ answers (.sent m) = false := by
  induction hs with
  | nil => cases hm
  | cons x hs ih =>
      have htail : m ∈ outs hs → .sent m ∈ x :: hs ∧ answers (.sent m) = false := fun h =>
        ⟨List.mem_cons_of_mem _ (ih h).1, (ih h).2⟩
      cases x with
      | took m' => exact htail hm
      | sent m' =>
          cases m' with
          | statReply st => exact htail hm
          | _ =>
              obtain heq | hm := List.mem_cons.mp hm
              · subst heq
                exact ⟨List.mem_cons_self, rfl⟩
              · exact htail hm

theorem own_of_frames (h : Frames hs) (hm : m ∈ outs hs) :
    Kind.exec.own m = true ∧ m.body.length ≤ Rpc.maxFrame := by
  obtain ⟨hsent, hnot⟩ := mem_outs hm
  obtain hown | hanswers := h m hsent
  · exact hown
  · rw [hnot] at hanswers
    cases hanswers

/-- A last frame is short. -/
theorem Says.fits {written : Pipes} {waited : Option (Nat × Ending)}
    (h : Says written waited q t) : t.body.length ≤ Rpc.maxFrame := by
  obtain ⟨text, rfl, -, -⟩ | ⟨status, ending, -, rfl, -⟩ := h
  · rw [Msg.length_body]
    exact Msg.size_lt (by simp [Msg.tag]) (by simp [Msg.tag])
  · rw [Msg.length_body]
    exact Msg.size_lt (by simp [Msg.tag]) (by simp [Msg.tag])

end frames

section through

variable {stdin : List UInt8} {written : Pipes} {h0 : List Happening} {cmd : Msg} {s t : Remote}
  {hs : List Happening} {ms sent given : List Msg} {m : Msg}

/-- The frames of a running command. -/
theorem Course.frames_running (houtputs : s.agent.Outputs h0 written s.pipes)
    (hhist : s.agent.history = h0 ++ hs) : Frames hs := by
  obtain ⟨body, hbody, hframes, -⟩ := houtputs.bounded
  rw [hhist] at hbody
  rw [List.append_cancel_left hbody]
  exact hframes

theorem Through.frame_fits (h : Through stdin written h0 cmd s hs ms sent given)
    (hm : m ∈ outs hs) : m.body.length ≤ Rpc.maxFrame := by
  cases h.stage with
  | asked ps hout =>
      rw [hout] at hm
      cases hm
  | running _ _ _ _ _ _ _ _ _ houtputs =>
      exact (own_of_frames (Course.frames_running houtputs h.history) hm).2
  | gone _ hframes _ => exact (own_of_frames hframes hm).2
  | finished _ _ _ hout hfits htold =>
      rw [hout] at hm
      obtain hm | hm := List.mem_append.mp hm
      · exact hfits m hm
      · rw [List.mem_singleton.mp hm]
        exact htold.fits

/-- Once the session is over nothing of it is on its way back. -/
theorem Through.pend_nil (h : Through stdin written h0 cmd s hs ms sent given)
    (hended : s.ended = true) : outs (s.agent.history.drop s.seen) = [] := by
  obtain ⟨t, ht, hends⟩ := h.ended hended
  obtain ⟨cur, -, hstanding⟩ := h.standing
  obtain ⟨p, q, hsplit⟩ := List.append_of_mem ht
  rw [h.split, hsplit, List.append_assoc, List.cons_append] at hstanding
  exact (List.append_eq_nil_iff.mp (hstanding.last hends)).2

/-- While the command is on its way or running the session is not over. -/
theorem Through.open (h : Through stdin written h0 cmd s hs ms sent given)
    (hown : ∀ m ∈ outs hs, Kind.exec.own m = true) : s.ended = false := by
  cases hended : s.ended with
  | false => rfl
  | true =>
      obtain ⟨t, ht, hends⟩ := h.ended hended
      rw [Kind.not_ends_of_own (hown t (h.split ▸ List.mem_append_left _ ht))] at hends
      cases hends

/-! ## the client and the daemon -/

/-- What the client sends waits to be passed. -/
theorem Course.sends {x : ExecClient} {down : List UInt8} {more : List Msg}
    (h : Course written h0 cmd s hs ms sent) :
    Course written h0 cmd (s.went (x, more, down)) hs ms (sent ++ more) := by
  cases h with
  | asked ps hout hidle hcmd hsent hwritten hwaited =>
      exact .asked ps hout hidle hcmd (by rw [← hsent]; exact (List.append_assoc _ _ _).symm)
        hwritten hwaited
  | running rx ps hphase hright hmirrors hfollows hps hfits hsent houtputs =>
      exact .running rx ps hphase hright hmirrors hfollows hps hfits
        (by rw [← hsent]; exact (List.append_assoc _ _ _).symm) houtputs
  | gone hdead hframes hpre => exact .gone hdead hframes hpre
  | finished q t hidle hout hfits htold => exact .finished q t hidle hout hfits htold

/-- What the daemon has seen and given is not the card's. -/
theorem Course.seen (h : Course written h0 cmd s hs ms sent) (n : Nat) (down : List UInt8)
    (ended : Bool) :
    Course written h0 cmd { s with seen := n, down := down, ended := ended } hs ms sent := by
  cases h with
  | asked ps hout hidle hcmd hsent hwritten hwaited =>
      exact .asked ps hout hidle hcmd hsent hwritten hwaited
  | running rx ps hphase hright hmirrors hfollows hps hfits hsent houtputs =>
      exact .running rx ps hphase hright hmirrors hfollows hps hfits hsent houtputs
  | gone hdead hframes hpre => exact .gone hdead hframes hpre
  | finished q t hidle hout hfits htold => exact .finished q t hidle hout hfits htold

theorem Through.client (h : Through stdin written h0 cmd s hs ms sent given) (env : Env)
    (c : ExecCalls) :
    ∃ sent', Through stdin written h0 cmd (s.step env (.client c)) hs ms sent' given := by
  obtain ⟨acted, owed, hshows⟩ := h.shows
  obtain ⟨cur, -, hstanding⟩ := h.standing
  have hturn := client_turn h.sends hshows
    (fun m hm => hstanding.frames (h.split ▸ List.mem_append_left _ hm)) c
  have hstep : s.step env (.client c) = s.went (s.client.turn c s.down) := rfl
  rw [hstep]
  generalize s.client.turn c s.down = r at hturn
  obtain ⟨x, more, down⟩ := r
  obtain ⟨p, hp⟩ := h.waiting
  exact ⟨sent ++ more, {
    kept := h.kept
    history := h.history
    seen := h.seen
    fits := h.fits
    arriving := h.arriving
    standing := h.standing
    sends := hturn.sends
    waiting := ⟨p, by rw [← hp]; exact (List.append_assoc _ _ _).symm⟩
    upfits := fun m hm => by
      obtain hm | hm := List.mem_append.mp hm
      · exact h.upfits m hm
      · exact hturn.fits m hm
    input := h.input
    acted := h.acted.trans (List.prefix_append _ _)
    stage := h.stage.sends
    split := h.split
    ended := h.ended
    shows := hturn.shows }⟩

/-- A frame that opens nothing goes to the card: `Stat`, or the client's next. -/
theorem Through.toAgent {up : List Msg} (h : Through stdin written h0 cmd s hs ms sent given)
    (hfit : m.body.length ≤ Rpc.maxFrame) (hm : opens m = none) (hup : s.up = ins [m] ++ up) :
    Through stdin written h0 cmd (({ s with up } : Remote).toAgent m) hs (ms ++ [m]) sent
      given := by
  have hsuffix : up <:+ s.up := ⟨ins [m], hup.symm⟩
  exact {
    kept := h.kept
    history := h.history
    seen := h.seen
    fits := fits_append h.fits hfit
    arriving := fun halive => ⟨(h.arriving halive).1, carries_append (h.arriving halive).2 m⟩
    standing := by
      obtain ⟨cur, htracks, hstanding⟩ := h.standing
      refine ⟨cur, htracks, ?_⟩
      rw [List.map_append]
      exact hstanding.pass (by rw [opens_normal, hm])
    sends := h.sends
    waiting := hsuffix.trans h.waiting
    upfits := fun x hx => h.upfits x (hsuffix.subset hx)
    input := h.input
    acted := h.acted
    stage := by
      cases h.stage with
      | asked ps hout hidle hcmd hsent hwritten hwaited =>
          refine .asked (ps ++ ins [m]) hout hidle ?_ ?_ hwritten hwaited
          · rw [ins_append, hcmd]
            rfl
          · rw [← hsent, hup]
            exact List.append_assoc _ _ _
      | running rx ps hphase hright hmirrors hfollows hps hfits hsent houtputs =>
          refine .running rx (ps ++ [m]) hphase hright hmirrors hfollows ?_
            (fits_append hfits hfit) ?_ houtputs
          · show rx.content ++ s.relay.arrived ++ (s.toCard ++ m.encode) = _
            rw [← List.append_assoc, hps, List.flatMap_append, List.flatMap_singleton]
          · rw [← hsent, hup, ins_append]
            exact List.append_assoc _ _ _
      | gone hdead hframes hpre => exact .gone hdead hframes hpre
      | finished q t hidle hout hfits htold => exact .finished q t hidle hout hfits htold
    split := h.split
    ended := h.ended
    shows := h.shows }

theorem Through.pass (h : Through stdin written h0 cmd s hs ms sent given) :
    ∃ ms', Through stdin written h0 cmd s.pass hs ms' sent given := by
  unfold Remote.pass
  split
  · exact ⟨ms, h⟩
  · next m up hup =>
      have hmem : m ∈ s.up := by
        rw [hup]
        exact List.mem_cons_self
      split
      · next hended =>
          have hnot : ∀ hown : ∀ x ∈ outs hs, Kind.exec.own x = true, False := fun hown => by
            rw [h.open hown] at hended
            cases hended
          have hsuffix : up <:+ s.up := by
            rw [hup]
            exact List.suffix_cons m up
          refine ⟨ms, ⟨h.kept, h.history, h.seen, h.fits, h.arriving, h.standing, h.sends,
            hsuffix.trans h.waiting, fun x hx => h.upfits x (hsuffix.subset hx), h.input, h.acted,
            ?_, h.split, h.ended, h.shows⟩⟩
          cases h.stage with
          | asked ps hout _ _ _ _ _ =>
              exact (hnot fun x hx => by rw [hout] at hx; cases hx).elim
          | running _ _ _ _ _ _ _ _ _ houtputs =>
              exact (hnot fun x hx =>
                (own_of_frames (Course.frames_running houtputs h.history) hx).1).elim
          | gone hdead hframes hpre => exact .gone hdead hframes hpre
          | finished q t hidle hout hfits htold => exact .finished q t hidle hout hfits htold
      · obtain ⟨-, hstat, hopens⟩ := h.sends.mem (h.waiting.subset hmem)
        exact ⟨ms ++ [m], h.toAgent (h.upfits m hmem) hopens (by rw [ins_of_ne hstat, hup]; rfl)⟩

theorem Through.relay (h : Through stdin written h0 cmd s hs ms sent given) :
    ∃ given', Through stdin written h0 cmd s.relayNext hs ms sent given' := by
  unfold Remote.relayNext
  cases hx : s.agent.history[s.seen]? with
  | none => exact ⟨given, h⟩
  | some x =>
      obtain ⟨hlt, hget⟩ := List.getElem?_eq_some_iff.mp hx
      have hdrop : s.agent.history.drop s.seen = x :: s.agent.history.drop (s.seen + 1) := by
        rw [List.drop_eq_getElem_cons hlt, hget]
      have hsplit := h.split
      rw [hdrop] at hsplit
      have hlook : outs (s.agent.history.drop (s.seen + 1)) =
          outs (x :: s.agent.history.drop (s.seen + 1)) →
          Through stdin written h0 cmd { s with seen := s.seen + 1 } hs ms sent given :=
        fun hsame => ⟨h.kept, h.history, hlt, h.fits, h.arriving, h.standing, h.sends, h.waiting,
          h.upfits, h.input, h.acted, h.stage.seen _ _ _,
          hsplit.trans (congrArg _ hsame.symm), h.ended, h.shows⟩
      cases x with
      | took m => exact ⟨given, hlook rfl⟩
      | sent m =>
          by_cases hskip : (s.ended || answers (.sent m)) = true
          · refine ⟨given, ?_⟩
            dsimp only
            rw [if_pos hskip]
            refine hlook ?_
            obtain hended | hanswers := Bool.or_eq_true _ _ |>.mp hskip
            · have hnil := h.pend_nil hended
              rw [hdrop] at hnil
              rw [hnil]
              cases m with
              | statReply st => exact hnil
              | _ => cases hnil
            · cases m with
              | statReply st => rfl
              | _ => cases hanswers
          · obtain ⟨hopen, hnot⟩ := not_or.mp (fun hor => hskip (Bool.or_eq_true _ _ |>.mpr hor))
            have hcons : outs (.sent m :: s.agent.history.drop (s.seen + 1)) =
                m :: outs (s.agent.history.drop (s.seen + 1)) := by
              cases m with
              | statReply st => exact absurd rfl hnot
              | _ => rfl
            rw [hcons] at hsplit
            have hmem : m ∈ outs hs := by
              rw [hsplit]
              exact List.mem_append_right _ List.mem_cons_self
            obtain ⟨acted, owed, hshows⟩ := h.shows
            refine ⟨given ++ [m], ?_⟩
            dsimp only
            rw [if_neg hskip]
            exact {
              kept := h.kept
              history := h.history
              seen := hlt
              fits := h.fits
              arriving := h.arriving
              standing := h.standing
              sends := h.sends
              waiting := h.waiting
              upfits := h.upfits
              input := h.input
              acted := h.acted
              stage := h.stage.seen _ _ _
              split := by
                rw [hsplit, List.append_assoc]
                rfl
              ended := fun hends => ⟨m, List.mem_append_right _ List.mem_cons_self, hends⟩
              shows := ⟨acted, owed ++ [m], hshows.give (h.frame_fits hmem)⟩ }

end through

end Phi.Xfer
