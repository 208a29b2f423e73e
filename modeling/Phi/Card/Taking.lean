import Phi.Card.Input

/-!
# Phi.Card.Taking

What a turn of the agent takes from the device, and the session it is in.

The frames of a turn are the next of those arriving, whichever loop takes them;
and the session the agent is in can be read off its history, in which every
frame sent is a reply to `Stat`, one of the session's own or the one that ends
it.
-/

namespace Phi.Card

open Rpc Serve

/-! ## the frames taken -/

/-- The frames taken, in order. -/
def taken : List Happening → List Msg
  | [] => []
  | .took m :: hs => m :: taken hs
  | .sent _ :: hs => taken hs

@[simp] theorem taken_append (hs gs : List Happening) :
    taken (hs ++ gs) = taken hs ++ taken gs := by
  induction hs with
  | nil => rfl
  | cons x hs ih => cases x <;> simp [taken, ih]

/-- What a read brought. -/
def Read.bytes : Read → List UInt8
  | .data bytes => bytes
  | _ => []

namespace Agent

/-- Whether the turn reads the device. -/
def reads (c : Calls) (a : Agent) : Bool :=
  match a.phase with
  | .idle | .put _ => a.nextFrame.2.isNone
  | .get _ _ => a.nextFrame.2.isNone && c.deviceReady
  | .exec _ => match c.waited with
      | .running => match (a.onCommand (Command.flush c.writes)).nextFrame with
          | (_, some _) => false
          | (b, none) => c.deviceReady && b.wantsInput
      | _ => false
  | .dead => false

/-- Since the history `h0`, the agent took the first of the messages, and unless
it ended itself what it has buffered and is still to come are the others. -/
def Feeds (h0 : List Happening) (ms : List Msg) (coming : List UInt8) (a : Agent) : Prop :=
  ∃ hs first left, ms = first ++ left ∧ a.history = h0 ++ hs ∧ taken hs = first.map Msg.normal ∧
    (a.phase ≠ .dead → a.rx.head ≤ a.rx.tail ∧ Carries a.rx coming left)

section

variable {env : Env} {h0 : List Happening} {ms : List Msg} {coming : List UInt8} {a : Agent}

/-- An agent that ended itself takes nothing more. -/
theorem Feeds.dead (h : a.Feeds h0 ms coming) (hdead : a.phase = .dead) (more : List UInt8) :
    a.Feeds h0 ms more := by
  obtain ⟨hs, first, left, hms, hhist, htaken, -⟩ := h
  exact ⟨hs, first, left, hms, hhist, htaken, fun halive => absurd hdead halive⟩

theorem Feeds.die (h : a.Feeds h0 ms coming) (more : List UInt8) : a.die.Feeds h0 ms more := by
  obtain ⟨hs, first, left, hms, hhist, htaken, -⟩ := h
  exact ⟨hs, first, left, hms, hhist, htaken, fun halive => absurd rfl halive⟩

theorem Feeds.send (h : a.Feeds h0 ms coming) (m : Msg) : (a.send env m).Feeds h0 ms coming := by
  have hdie : a.die.Feeds h0 ms coming := h.die coming
  unfold Agent.send
  split
  · exact h
  · split
    · obtain ⟨hs, first, left, hms, hhist, htaken, hlive⟩ := h
      refine ⟨hs ++ [.sent m], first, left, hms, ?_, ?_, hlive⟩
      · dsimp only
        rw [hhist, List.append_assoc]
      · simp [htaken, taken]
    · exact hdie

theorem Feeds.enter (h : a.Feeds h0 ms coming) (p : Phase) : (a.enter p).Feeds h0 ms coming := by
  unfold Agent.enter
  split
  · exact h
  · next halive =>
      obtain ⟨hs, first, left, hms, hhist, htaken, hlive⟩ := h
      exact ⟨hs, first, left, hms, hhist, htaken, fun _ => hlive halive⟩

theorem Feeds.onCommand (h : a.Feeds h0 ms coming) (f : Command → Command) :
    (a.onCommand f).Feeds h0 ms coming := by
  unfold Agent.onCommand
  split
  · next x hphase =>
      obtain ⟨hs, first, left, hms, hhist, htaken, hlive⟩ := h
      exact ⟨hs, first, left, hms, hhist, htaken, fun _ => hlive (by rw [hphase]; exact nofun)⟩
  · exact h

/-- A read brings the next bytes. -/
theorem Feeds.fill {r : Read} (h : a.Feeds h0 ms (r.bytes ++ coming)) :
    (a.fill r).Feeds h0 ms coming := by
  unfold Agent.fill
  split
  · next hdead => exact h.dead hdead coming
  · next bytes halive =>
      obtain ⟨hs, first, left, hms, hhist, htaken, hlive⟩ := h
      refine ⟨hs, first, left, hms, hhist, htaken, fun hphase => ?_⟩
      obtain ⟨hordered, hcarries⟩ := hlive hphase
      exact ⟨(rxFill_content hordered bytes).2, hcarries.fill hordered⟩
  · exact h.die coming

/-- A frame looked for: the next of the messages, unless none is whole. -/
theorem Feeds.nextFrame (h : a.Feeds h0 ms coming) (hfit : ∀ m ∈ ms, m.body.length ≤ maxFrame) :
    a.nextFrame.1.Feeds h0 ms coming := by
  by_cases hdead : a.phase = .dead
  · unfold Agent.nextFrame
    rw [hdead]
    exact h
  · have hcase := h
    obtain ⟨hs, first, left, hms, hhist, htaken, hlive⟩ := hcase
    obtain ⟨hordered, hcarries⟩ := hlive hdead
    have hleft : ∀ m ∈ left, m.body.length ≤ maxFrame := fun m hm =>
      hfit m (hms ▸ List.mem_append_right _ hm)
    rw [Agent.nextFrame_eq hdead]
    obtain hnone | ⟨m, left', rx, hcons, hnext, hrest⟩ := rxNext_carries hleft hcarries
    · rw [hnone]
      exact h
    · rw [hnext]
      refine ⟨hs ++ [.took m.normal], first ++ [m], left', ?_, ?_, ?_, fun _ => ⟨?_, hrest⟩⟩
      · rw [hms, hcons, List.append_assoc]
        rfl
      · dsimp only
        rw [hhist, List.append_assoc]
      · simp [htaken, taken]
      · exact (rxNext_some hordered hnext).1

theorem Feeds.statReply (h : a.Feeds h0 ms coming) : (a.statReply env).Feeds h0 ms coming :=
  h.send _

theorem Feeds.pumpRead (h : a.Feeds h0 ms coming) (o : Output) (r : Read) :
    (a.pumpRead env o r).Feeds h0 ms coming := by
  cases r with
  | data bytes => exact h.send _
  | eof => exact h.onCommand _
  | failed errno =>
      unfold Agent.pumpRead
      dsimp only
      split
      · exact h
      · exact h.onCommand _

theorem Feeds.pumpReady (h : a.Feeds h0 ms coming) (o : Output) (ready : Bool) (r : Read) :
    (a.pumpReady env o ready r).Feeds h0 ms coming := by
  unfold Agent.pumpReady
  split
  · split
    · exact h.pumpRead o r
    · exact h
  · exact h

theorem Feeds.pumpPoll (h : a.Feeds h0 ms coming) (env : Env) (p : Pump) :
    (a.pumpPoll env p).Feeds h0 ms coming := (h.pumpReady _ _ _).pumpReady _ _ _

theorem Feeds.drain {ps : List (Nat × Pump)} (h : a.Feeds h0 ms coming) :
    (a.drain env ps).Feeds h0 ms coming := by
  induction ps generalizing a with
  | nil => exact h
  | cons x ps ih =>
      unfold Agent.drain
      split
      · exact h
      · exact ih (h.pumpPoll env _)

theorem Feeds.execFrame (h : a.Feeds h0 ms coming) (m : Msg) :
    (a.execFrame env m).Feeds h0 ms coming := by
  cases m with
  | stat => exact h.statReply
  | stdin data => exact h.onCommand _
  | stdinEof => exact h.onCommand _
  | _ => exact h

/-! ## whole turns -/

/-- What is still to come after a turn. -/
def rest (c : Calls) (coming : List UInt8) (a : Agent) : List UInt8 :=
  if a.reads c then coming else c.device.bytes ++ coming

theorem Feeds.nextBlocking {c : Calls} (h : a.Feeds h0 ms (c.device.bytes ++ coming))
    (hfit : ∀ m ∈ ms, m.body.length ≤ maxFrame) : (a.nextBlocking c.device).1.Feeds h0 ms
      (if a.nextFrame.2.isNone then coming else c.device.bytes ++ coming) := by
  have hnext := h.nextFrame hfit
  unfold Agent.nextBlocking
  generalize a.nextFrame = x at hnext
  obtain ⟨b, _ | m⟩ := x
  · exact Feeds.nextFrame (Feeds.fill hnext) hfit
  · exact hnext

theorem Feeds.nextReady {c : Calls} (h : a.Feeds h0 ms (c.device.bytes ++ coming))
    (hfit : ∀ m ∈ ms, m.body.length ≤ maxFrame) :
    (a.nextReady c.deviceReady c.device).1.Feeds h0 ms
      (if a.nextFrame.2.isNone && c.deviceReady then coming else c.device.bytes ++ coming) := by
  have hnext := h.nextFrame hfit
  unfold Agent.nextReady
  generalize a.nextFrame = x at hnext
  obtain ⟨b, _ | m⟩ := x
  · dsimp only
    cases c.deviceReady with
    | false => exact hnext
    | true => exact Feeds.nextFrame (Feeds.fill hnext) hfit
  · exact hnext

theorem Feeds.putFrame {c : Calls} {path : String} (h : a.Feeds h0 ms coming) (m : Msg) :
    (a.putFrame env c path m).Feeds h0 ms coming := by
  cases m with
  | putData data =>
      unfold Agent.putFrame
      dsimp only
      split
      · exact h
      · exact (h.send _).enter _
  | putClose =>
      unfold Agent.putFrame
      dsimp only
      split
      · exact (h.send _).enter _
      · exact (h.send _).enter _
  | stat => exact h.statReply
  | _ => exact h

theorem Feeds.getChunk {r : Read} {path : String} {size : UInt64} (h : a.Feeds h0 ms coming) :
    (a.getChunk env r path size).Feeds h0 ms coming := by
  cases r with
  | data bytes => exact (h.send _).enter _
  | eof => exact (h.send _).enter _
  | failed errno =>
      unfold Agent.getChunk
      dsimp only
      split
      · exact h
      · exact (h.send _).enter _

theorem Feeds.getFrame (h : a.Feeds h0 ms coming) (m : Msg) :
    (a.getFrame env m).Feeds h0 ms coming := by
  cases m with
  | stat => exact h.statReply
  | _ => exact h

theorem Feeds.mainFrame {c : Calls} (h : a.Feeds h0 ms coming) (m : Msg) :
    (a.mainFrame env c m).Feeds h0 ms coming := by
  cases m with
  | exec argv vars cwd =>
      unfold Agent.mainFrame Agent.runExec
      dsimp only
      split
      · exact h.send _
      · split
        · exact h.send _
        · split
          · exact h.send _
          · exact h.enter _
  | putOpen path mode =>
      unfold Agent.mainFrame Agent.runPut
      dsimp only
      split
      · exact h.send _
      · split
        · exact h.send _
        · exact h.enter _
  | get path =>
      unfold Agent.mainFrame Agent.runGet
      dsimp only
      split
      · exact h.send _
      · split
        · exact h.send _
        · exact h.enter _
  | stat => exact h.statReply
  | stdin _ | stdinEof | putData _ | putClose => exact h
  | _ => exact h.send _

theorem Feeds.execPoll {c : Calls} (h : a.Feeds h0 ms (c.device.bytes ++ coming))
    (hfit : ∀ m ∈ ms, m.body.length ≤ maxFrame) : (a.execPoll env c).Feeds h0 ms
      (if c.deviceReady && a.wantsInput then coming else c.device.bytes ++ coming) := by
  unfold Agent.execPoll
  dsimp only
  have hpump := h.pumpPoll env c.pump
  have hread : (if (c.deviceReady && a.wantsInput) = true then
      (a.pumpPoll env c.pump).fill c.device else a.pumpPoll env c.pump).Feeds h0 ms
        (if c.deviceReady && a.wantsInput then coming else c.device.bytes ++ coming) := by
    split
    · exact hpump.fill
    · exact hpump
  have hnext := hread.nextFrame hfit
  generalize Agent.nextFrame _ = x at hnext
  obtain ⟨b, _ | m⟩ := x
  · exact hnext
  · exact Feeds.execFrame hnext m

theorem Feeds.execTurn {c : Calls} (h : a.Feeds h0 ms (c.device.bytes ++ coming))
    (hfit : ∀ m ∈ ms, m.body.length ≤ maxFrame) {x : Command} (hphase : a.phase = .exec x) :
    (a.execTurn env c).Feeds h0 ms (a.rest c coming) := by
  unfold Agent.execTurn Agent.rest Agent.reads
  rw [hphase]
  dsimp only
  cases c.waited with
  | failed errno => exact h.die _
  | exited status => exact (((h.onCommand _).drain).send _).enter _
  | running =>
      have hnext := (h.onCommand (Command.flush c.writes)).nextFrame hfit
      generalize (a.onCommand (Command.flush c.writes)).nextFrame = y at hnext
      obtain ⟨b, _ | m⟩ := y
      · exact Feeds.execPoll hnext hfit
      · exact (Feeds.execFrame hnext m).pumpPoll env _

/-- **A turn takes the next of the messages arriving.** -/
theorem Feeds.turn {c : Calls} (h : a.Feeds h0 ms (c.device.bytes ++ coming))
    (hfit : ∀ m ∈ ms, m.body.length ≤ maxFrame) :
    (a.turn env c).Feeds h0 ms (a.rest c coming) := by
  unfold Agent.turn
  split
  · next hphase =>
      have hnext := h.nextBlocking hfit
      unfold Agent.mainTurn Agent.rest Agent.reads
      rw [hphase]
      generalize a.nextBlocking c.device = x at hnext
      obtain ⟨b, _ | m⟩ := x
      · exact hnext
      · exact Feeds.mainFrame hnext m
  · next x hphase => exact h.execTurn hfit hphase
  · next path hphase =>
      have hnext := h.nextBlocking hfit
      unfold Agent.putTurn Agent.rest Agent.reads
      rw [hphase]
      generalize a.nextBlocking c.device = x at hnext
      obtain ⟨b, _ | m⟩ := x
      · exact hnext
      · exact Feeds.putFrame hnext m
  · next path size hphase =>
      have hnext := h.nextReady hfit
      unfold Agent.getTurn Agent.rest Agent.reads
      rw [hphase]
      generalize a.nextReady c.deviceReady c.device = x at hnext
      obtain ⟨b, _ | m⟩ := x
      · exact Feeds.getChunk hnext
      · exact Feeds.getFrame hnext m
  · next hdead => exact h.dead hdead _

end

end Agent

/-! ## one step of a turn -/

namespace Agent

/-- A frame was looked for: none found, or the next of the history. -/
def Looked (a : Agent) (x : Agent × Option Msg) : Prop :=
  (x.2 = none ∧ x.1.history = a.history ∧ (x.1.phase = a.phase ∨ x.1.phase = .dead)) ∨
  ∃ m, x.2 = some m ∧ x.1.history = a.history ++ [.took m] ∧ x.1.phase = a.phase ∧
    x.1.phase ≠ .dead

section

variable {a b : Agent}

theorem looked_nextFrame (a : Agent) : a.Looked a.nextFrame := by
  unfold Agent.nextFrame
  split
  · exact .inl ⟨rfl, rfl, .inl rfl⟩
  · next halive =>
    dsimp only
    split
    · next m _ => exact .inr ⟨m, rfl, rfl, rfl, halive⟩
    · exact .inl ⟨rfl, rfl, .inl rfl⟩

theorem fill_cases (r : Read) (a : Agent) :
    (a.fill r).history = a.history ∧ ((a.fill r).phase = a.phase ∨ (a.fill r).phase = .dead) := by
  unfold Agent.fill
  split
  · exact ⟨rfl, .inl rfl⟩
  · exact ⟨rfl, .inl rfl⟩
  · exact ⟨rfl, .inr rfl⟩

/-- So it is after the next bytes were read. -/
theorem Looked.fill {x : Agent × Option Msg} (r : Read) (h : (b.fill r).Looked x)
    (hhist : b.history = a.history) (hphase : b.phase = a.phase ∨ b.phase = .dead) :
    a.Looked x := by
  obtain ⟨hsame, hfill⟩ := fill_cases r b
  have hfill' : (b.fill r).phase = a.phase ∨ (b.fill r).phase = .dead := by
    obtain hfill | hdead := hfill
    · rw [hfill]
      exact hphase
    · exact .inr hdead
  obtain ⟨hnone, hx, hp⟩ | ⟨m, hm, hx, hp, halive⟩ := h
  · refine .inl ⟨hnone, by rw [hx, hsame, hhist], ?_⟩
    obtain hp | hp := hp
    · rw [hp]
      exact hfill'
    · exact .inr hp
  · refine .inr ⟨m, hm, by rw [hx, hsame, hhist], ?_, halive⟩
    obtain hfill | hdead := hfill'
    · exact hp.trans hfill
    · exact absurd (hp.trans hdead) halive

theorem looked_nextBlocking (r : Read) (a : Agent) : a.Looked (a.nextBlocking r) := by
  have hnext := looked_nextFrame a
  unfold Agent.nextBlocking
  generalize a.nextFrame = x at hnext
  obtain ⟨b, _ | m⟩ := x
  · obtain ⟨-, hhist, hphase⟩ | ⟨m, hm, -⟩ := hnext
    · exact (looked_nextFrame (b.fill r)).fill r hhist hphase
    · cases hm
  · exact hnext

theorem looked_nextReady (ready : Bool) (r : Read) (a : Agent) :
    a.Looked (a.nextReady ready r) := by
  have hnext := looked_nextFrame a
  unfold Agent.nextReady
  generalize a.nextFrame = x at hnext
  obtain ⟨b, _ | m⟩ := x
  · dsimp only
    cases ready with
    | false => exact hnext
    | true =>
        obtain ⟨-, hhist, hphase⟩ | ⟨m, hm, -⟩ := hnext
        · exact (looked_nextFrame (b.fill r)).fill r hhist hphase
        · cases hm
  · exact hnext

/-- A frame is sent, or the agent ends itself. -/
theorem send_cases (env : Env) (m : Msg) (a : Agent) :
    (a.send env m).history = a.history ++ [.sent m] ∧ (a.send env m).phase = a.phase ∧
        a.phase ≠ .dead ∨
      (a.send env m).history = a.history ∧ (a.send env m).phase = .dead := by
  unfold Agent.send
  split
  · next hdead => exact .inr ⟨rfl, hdead⟩
  · next halive =>
    split
    · exact .inl ⟨rfl, rfl, halive⟩
    · exact .inr ⟨rfl, rfl⟩

/-- The same, and the loop goes on with another. -/
theorem finish_cases (env : Env) (m : Msg) (p : Phase) (a : Agent) :
    ((a.send env m).enter p).history = a.history ++ [.sent m] ∧
        ((a.send env m).enter p).phase = p ∨
      ((a.send env m).enter p).history = a.history ∧ ((a.send env m).enter p).phase = .dead := by
  obtain ⟨hsent, hphase, halive⟩ | ⟨hsent, hdead⟩ := send_cases env m a
  · unfold Agent.enter
    split
    · next hdead => exact absurd (hphase.symm.trans hdead) halive
    · exact .inl ⟨hsent, rfl⟩
  · unfold Agent.enter
    rw [hdead]
    exact .inr ⟨hsent, hdead⟩

end

end Agent

/-! ## the session the agent is in -/

/-- A frame taken outside a session may open one, and a frame sent in it may end
it. -/
def sessionAfter (cur : Option Kind) : Happening → Option Kind
  | .took m => cur <|> opens m
  | .sent m => cur.filter fun k => !k.ends m

/-- A frame may be sent: a reply to `Stat`, or one of the session. -/
def legal (cur : Option Kind) : Happening → Bool
  | .took _ => true
  | .sent m => answers (.sent m) || cur.any fun k => k.own m || k.ends m

/-- The session the history is in, each frame of it sent in its place. -/
def Tracks (h : List Happening) (cur : Option Kind) : Prop :=
  run sessionAfter none h = cur ∧ Along sessionAfter (fun cur x => legal cur x = true) none h

theorem Kind.not_ends_of_own {k : Kind} {m : Msg} (h : k.own m = true) : k.ends m = false := by
  cases k <;> cases m <;> first | rfl | cases h

theorem Kind.not_ends_statReply (k : Kind) (s : Stat) : k.ends (.statReply s) = false := by
  cases k <;> rfl

section

variable {h : List Happening} {cur : Option Kind} {k : Kind}

theorem Tracks.step {x : Happening} (ht : Tracks h cur) (hx : legal cur x = true) :
    Tracks (h ++ [x]) (sessionAfter cur x) := by
  obtain ⟨rfl, halong⟩ := ht
  refine ⟨run_append _ _ _ _, ?_⟩
  rw [along_append]
  exact ⟨halong, hx, trivial⟩

theorem Tracks.take {m : Msg} (ht : Tracks h cur) : Tracks (h ++ [.took m]) (cur <|> opens m) :=
  ht.step rfl

theorem Tracks.stay {m : Msg} (ht : Tracks h cur) (hm : legal cur (.sent m) = true)
    (hk : ∀ k, cur = some k → k.ends m = false) : Tracks (h ++ [.sent m]) cur := by
  have hnext := ht.step hm
  cases cur with
  | none => exact hnext
  | some k =>
      have hstay : sessionAfter (some k) (.sent m) = some k := by simp [sessionAfter, hk]
      rwa [hstay] at hnext

theorem Tracks.reply {s : Stat} (ht : Tracks h cur) : Tracks (h ++ [.sent (.statReply s)]) cur :=
  ht.stay rfl fun k _ => k.not_ends_statReply s

theorem Tracks.body {body : List Happening} (ht : Tracks h (some k)) (hb : Body k body) :
    Tracks (h ++ body) (some k) := by
  induction hb with
  | nil => rwa [List.append_nil]
  | @own body m _ hm ih =>
      rw [← List.append_assoc]
      refine ih.stay (by simp [legal, hm]) fun k' hk => ?_
      cases hk
      exact Kind.not_ends_of_own hm
  | other _ _ ih =>
      rw [← List.append_assoc]
      exact ih.take
  | @stat body s _ ih =>
      rw [← List.append_assoc, List.append_cons]
      exact (Tracks.take ih).reply

theorem Settled.tracks (hs : Settled h) : Tracks h none := by
  induction hs with
  | nil => exact ⟨rfl, trivial⟩
  | @ignored h m _ hm _ ih =>
      have hnext := ih.take (m := m)
      rwa [hm] at hnext
  | @stat h s _ ih =>
      rw [List.append_cons]
      exact (Tracks.take ih).reply
  | @session h m k body t _ hm hb ht ih =>
      have hopen := ih.take (m := m)
      rw [hm] at hopen
      have hend := (Tracks.body hopen hb).step (x := .sent t) (by simp [legal, ht])
      simpa [sessionAfter, ht, Option.filter] using hend

theorem Within.tracks (hw : Within k h) : Tracks h (some k) := by
  obtain ⟨before, m, body, rfl, hs, hm, hb⟩ := hw
  have hopen := hs.tracks.take (m := m)
  rw [hm] at hopen
  simpa using Tracks.body hopen hb

theorem Stopped.tracks (hs : Stopped h) : ∃ cur, Tracks h cur := by
  obtain ⟨l, hl, rfl | rfl⟩ := hs
  · obtain hl | ⟨k, hl⟩ := hl
    · exact ⟨_, hl.tracks⟩
    · exact ⟨_, hl.tracks⟩
  · obtain hl | ⟨k, hl⟩ := hl
    · exact ⟨_, hl.tracks.take⟩
    · exact ⟨_, hl.tracks.take⟩

end

/-- The kind of session a loop serves. -/
def Phase.kind : Phase → Option Kind
  | .idle | .dead => none
  | .exec _ => some .exec
  | .put _ => some .put
  | .get _ _ => some .get

theorem Agent.Kept.tracks {a : Agent} (h : a.Kept) :
    ∃ cur, Tracks a.history cur ∧ (a.phase ≠ .dead → a.phase.kind = cur) := by
  unfold Agent.Kept at h
  split at h
  · next hphase => exact ⟨none, h.tracks, fun _ => by rw [hphase]; rfl⟩
  · next x hphase => exact ⟨some .exec, h.tracks, fun _ => by rw [hphase]; rfl⟩
  · next path hphase => exact ⟨some .put, h.tracks, fun _ => by rw [hphase]; rfl⟩
  · next path size hphase => exact ⟨some .get, h.tracks, fun _ => by rw [hphase]; rfl⟩
  · next hdead =>
      obtain ⟨cur, ht⟩ := h.tracks
      exact ⟨cur, ht, fun halive => absurd hdead halive⟩

end Phi.Card
