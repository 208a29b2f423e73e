import Phi.Card.Reading
import Phi.Card.Sessions

/-!
# Phi.Card.Input

The input of a running command: from the device to its pipe.

Stdin frames are queued in a flat buffer and written to the pipe as it takes
them; while the buffer holds a mebibyte or more the device is not read, but the
frames of one read are all acted on.  The buffer takes whatever one read can
bring on top of that, so the bytes written are those of the frames before
StdinEof, in order, until the pipe breaks.
-/

namespace Phi.Card

open Rpc Serve

/-! ## the buffer -/

/-- `in_buf` and the pipe: what the pipe took, and what was thrown away for lack
of room, are kept beside it. -/
structure Input where
  buf : Window UInt8
  eof : Bool
  isOpen : Bool
  broken : Bool
  written : List UInt8
  dropped : List UInt8

/-- As `run_exec` sets it up. -/
def Input.start (cells : Nat → UInt8) : Input := ⟨⟨cells, 0, 0⟩, false, true, false, [], []⟩

namespace Input

/-- `in_push`: what is queued moves to the front when the body does not fit
behind it. -/
def push (data : List UInt8) (s : Input) : Input :=
  if s.eof ∨ s.isOpen = false then s
  else
    let buf := if s.buf.tail + data.length ≤ inCap then s.buf else s.buf.compact
    if buf.tail + data.length ≤ inCap then { s with buf := buf.append data }
    else { s with buf := buf, dropped := s.dropped ++ data }

/-- `in_flush`. -/
def flush : List Write → Input → Input
  | ws, s =>
      if s.isOpen = false then s
      else if s.buf.size = 0 then { s with buf := s.buf.clear, isOpen := !s.eof }
      else match ws with
        | [] | .full :: _ | .written 0 :: _ => s
        | .interrupted :: ws => flush ws s
        | .broken :: _ => { s with buf := s.buf.clear, isOpen := false, broken := true }
        | .written n :: ws =>
            let n := min n s.buf.size
            flush ws { s with buf := s.buf.advance n, written := s.written ++ s.buf.content.take n }

end Input

/-- The loop of a command as far as its input goes: the frames acted on and the
bytes read from the device since it started, and whether it is over. -/
structure Relay where
  rx : Window UInt8
  input : Input
  acted : List Msg
  arrived : List UInt8
  finished : Bool

def Relay.start (rx : Window UInt8) (cells : Nat → UInt8) : Relay :=
  ⟨rx, .start cells, [], [], false⟩

namespace Relay

/-- `ex_frame`. -/
def frame (m : Msg) (s : Relay) : Relay :=
  let input := match m with
    | .stdin data => s.input.push data
    | .stdinEof => { s.input with eof := true }
    | _ => s.input
  { s with input, acted := s.acted ++ [m] }

/-- A frame found in the buffer is acted on. -/
def next (s : Relay) : Relay × Bool :=
  match rxNext s.rx with
  | (some m, rx) => (({ s with rx } : Relay).frame m, true)
  | (none, rx) => ({ s with rx }, false)

/-- `fill`; a device that closes or fails ends the agent. -/
def fill (r : Read) (s : Relay) : Relay :=
  match r with
  | .data bytes => { s with rx := rxFill s.rx bytes, arrived := s.arrived ++ bytes }
  | _ => { s with finished := true }

/-- The poll of `ex_loop`. -/
def poll (c : Calls) (s : Relay) : Relay :=
  let s := if c.deviceReady ∧ s.input.buf.size < inputBacklog then s.fill c.device else s
  if s.finished then s else s.next.1

/-- A turn of `ex_loop`, which the end of the command ends. -/
def turn (s : Relay) (c : Calls) : Relay :=
  if s.finished then s
  else match c.waited with
    | .running =>
        match ({ s with input := s.input.flush c.writes } : Relay).next with
        | (s, true) => s
        | (s, false) => s.poll c
    | _ => { s with finished := true }

end Relay

/-! ## what the command is to read -/

/-- The bodies of the Stdin frames before the first StdinEof. -/
def inputOf : List Msg → List UInt8
  | [] => []
  | .stdinEof :: _ => []
  | .stdin data :: ms => data ++ inputOf ms
  | _ :: ms => inputOf ms

theorem inputOf_append_of_mem {ms : List Msg} (h : .stdinEof ∈ ms) (more : List Msg) :
    inputOf (ms ++ more) = inputOf ms := by
  induction ms with
  | nil => cases h
  | cons m ms ih =>
      cases List.mem_cons.mp h with
      | inl heq =>
          subst heq
          rfl
      | inr hmem =>
          cases m with
          | stdin data =>
              show data ++ inputOf (ms ++ more) = data ++ inputOf ms
              rw [ih hmem]
          | stdinEof => rfl
          | _ => exact ih hmem

theorem inputOf_append {ms : List Msg} (h : .stdinEof ∉ ms) (more : List Msg) :
    inputOf (ms ++ more) = inputOf ms ++ inputOf more := by
  induction ms with
  | nil => rfl
  | cons m ms ih =>
      rw [List.mem_cons, not_or] at h
      obtain ⟨hne, hmem⟩ := h
      cases m with
      | stdin data =>
          show data ++ inputOf (ms ++ more) = data ++ inputOf ms ++ inputOf more
          rw [ih hmem, List.append_assoc]
      | stdinEof => exact absurd rfl hne
      | _ => exact ih hmem

/-- Frames that come later only add to the end. -/
theorem inputOf_start (ms more : List Msg) : inputOf ms <+: inputOf (ms ++ more) := by
  by_cases h : .stdinEof ∈ ms
  · exact ⟨[], by rw [List.append_nil, inputOf_append_of_mem h]⟩
  · rw [inputOf_append h]
    exact List.prefix_append _ _

/-! ## the buffer keeps up -/

/-- The buffer after the frames `ms`: nothing was thrown away, and what was
written and what is queued are what the command is to read. -/
structure Input.Right (s : Input) (ms : List Msg) : Prop where
  ordered : s.buf.head ≤ s.buf.tail
  fits : s.buf.tail ≤ inCap
  kept : s.dropped = []
  before : s.written <+: inputOf ms
  ended : s.eof = true ↔ .stdinEof ∈ ms
  queued : s.broken = false → s.written ++ s.buf.content = inputOf ms
  broke : s.broken = true → s.isOpen = false
  closed : s.broken = false → s.isOpen = false → .stdinEof ∈ ms ∧ s.buf.content = []

section input

variable {s : Input} {ms : List Msg}

/-- The pipe takes the first `k` bytes queued. -/
theorem Input.Right.took {k : Nat} (h : s.Right ms) (hbroken : s.broken = false)
    (hk : k ≤ s.buf.size) :
    ({ s with buf := s.buf.advance k, written := s.written ++ s.buf.content.take k } :
      Input).Right ms := by
  have hqueued := h.queued hbroken
  have hall : (s.written ++ s.buf.content.take k) ++ s.buf.content.drop k = inputOf ms := by
    rw [List.append_assoc, List.take_append_drop]
    exact hqueued
  refine ⟨?_, h.fits, h.kept, ⟨_, hall⟩, h.ended, fun _ => ?_, h.broke, fun hb hclosed => ?_⟩
  · have hordered := h.ordered
    unfold Window.size at hk
    show s.buf.head + k ≤ s.buf.tail
    omega
  · dsimp only
    rw [Window.content_advance]
    exact hall
  · obtain ⟨hmem, hnil⟩ := h.closed hb hclosed
    dsimp only
    rw [Window.content_advance, hnil]
    exact ⟨hmem, List.drop_nil⟩

/-- The writes end: all is written, and after StdinEof the pipe is closed. -/
theorem Input.Right.flushEnd {t : Input} (h : s.Right ms)
    (ht : t = if s.isOpen = false then s
      else if s.buf.size = 0 then { s with buf := s.buf.clear, isOpen := !s.eof } else s) :
    t.Right ms ∧ t.buf.size ≤ s.buf.size := by
  subst ht
  split
  · exact ⟨h, Nat.le_refl _⟩
  · split
    · next hopen hempty =>
        have hnil := Window.content_eq_nil_iff.mpr hempty
        refine ⟨⟨Nat.le_refl _, Nat.zero_le _, h.kept, h.before, h.ended, fun hb => ?_,
          fun hb => ?_, fun hb hclosed => ⟨h.ended.mp ?_, rfl⟩⟩, Nat.zero_le _⟩
        · have hqueued := h.queued hb
          rw [hnil] at hqueued
          exact hqueued
        · exact absurd (h.broke hb) hopen
        · simpa using hclosed
    · exact ⟨h, Nat.le_refl _⟩

theorem Input.Right.flush (h : s.Right ms) (ws : List Write) :
    (s.flush ws).Right ms ∧ (s.flush ws).buf.size ≤ s.buf.size := by
  induction ws generalizing s with
  | nil => exact h.flushEnd rfl
  | cons w ws ih =>
      by_cases hopen : s.isOpen = false
      · exact h.flushEnd (by unfold Input.flush; rw [if_pos hopen, if_pos hopen])
      · by_cases hempty : s.buf.size = 0
        · exact h.flushEnd (by
            unfold Input.flush
            rw [if_neg hopen, if_neg hopen, if_pos hempty, if_pos hempty])
        · have hbroken : s.broken = false := by
            cases hb : s.broken with
            | false => rfl
            | true => exact absurd (h.broke hb) hopen
          unfold Input.flush
          rw [if_neg hopen, if_neg hempty]
          match w with
          | .full => exact ⟨h, Nat.le_refl _⟩
          | .written 0 => exact ⟨h, Nat.le_refl _⟩
          | .interrupted => exact ih h
          | .broken =>
              refine ⟨⟨Nat.le_refl _, Nat.zero_le _, h.kept, h.before, h.ended, by simp, by simp,
                by simp⟩, Nat.zero_le _⟩
          | .written (n + 1) =>
              obtain ⟨hright, hsize⟩ := ih (h.took hbroken (Nat.min_le_right (n + 1) _))
              exact ⟨hright, Nat.le_trans hsize (Nat.sub_le_sub_left (Nat.le_add_right _ _) _)⟩

/-- A frame that brings no input changes nothing. -/
theorem Input.Right.other {m : Msg} (h : s.Right ms) (hm : m ≠ .stdinEof)
    (hnone : .stdinEof ∉ ms → s.broken = true ∨ inputOf [m] = []) : s.Right (ms ++ [m]) := by
  have hmem : Msg.stdinEof ∈ ms ++ [m] ↔ .stdinEof ∈ ms := by
    rw [List.mem_append, List.mem_singleton]
    exact or_iff_left fun heq => hm heq.symm
  have hsame : s.broken = false → inputOf (ms ++ [m]) = inputOf ms := by
    intro hb
    by_cases hin : .stdinEof ∈ ms
    · exact inputOf_append_of_mem hin _
    · obtain hbroken | hnil := hnone hin
      · rw [hb] at hbroken
        cases hbroken
      · rw [inputOf_append hin, hnil, List.append_nil]
  exact {
    ordered := h.ordered
    fits := h.fits
    kept := h.kept
    before := h.before.trans (inputOf_start ms [m])
    ended := by rw [hmem]; exact h.ended
    queued := fun hb => by rw [hsame hb]; exact h.queued hb
    broke := h.broke
    closed := fun hb hc => by rw [hmem]; exact h.closed hb hc }

/-- A body that fits behind what is queued is queued. -/
theorem Input.Right.push {data : List UInt8} (h : s.Right ms)
    (hroom : s.buf.size + data.length ≤ inCap) :
    (s.push data).Right (ms ++ [.stdin data]) ∧
      (s.push data).buf.size ≤ s.buf.size + data.length := by
  unfold Input.push
  by_cases hclosed : s.eof = true ∨ s.isOpen = false
  · rw [if_pos hclosed]
    refine ⟨h.other (by simp) fun hnot => .inl ?_, Nat.le_add_right _ _⟩
    cases hb : s.broken with
    | true => rfl
    | false =>
        obtain heof | hshut := hclosed
        · exact absurd (h.ended.mp heof) hnot
        · exact absurd (h.closed hb hshut).1 hnot
  · rw [if_neg hclosed]
    obtain ⟨heof, hopen⟩ := not_or.mp hclosed
    have hnot : .stdinEof ∉ ms := fun hmem => heof (h.ended.mpr hmem)
    have hbroken : s.broken = false := by
      cases hb : s.broken with
      | false => rfl
      | true => exact absurd (h.broke hb) hopen
    -- moved to the front or not, the buffer holds the same and has the room
    generalize hbuf : (if s.buf.tail + data.length ≤ inCap then s.buf else s.buf.compact) = buf
    have hmoved : buf.content = s.buf.content ∧ buf.head ≤ buf.tail ∧
        buf.tail + data.length ≤ inCap := by
      rw [← hbuf]
      split
      · next hfit => exact ⟨rfl, h.ordered, hfit⟩
      · exact ⟨Window.content_compact _, Nat.zero_le _, hroom⟩
    obtain ⟨hcontent, hordered, hfit⟩ := hmoved
    have hsize : buf.size = s.buf.size := by
      rw [← Window.length_content, hcontent, Window.length_content]
    have happend := Window.content_append hordered data
    have hall : s.written ++ (buf.append data).content = inputOf (ms ++ [.stdin data]) := by
      rw [happend, hcontent, inputOf_append hnot, ← h.queued hbroken, List.append_assoc]
      simp [inputOf]
    dsimp only
    rw [if_pos hfit]
    refine ⟨⟨?_, hfit, h.kept, h.before.trans (inputOf_start _ _), ?_, fun _ => hall, h.broke,
      fun _ hc => absurd hc hopen⟩, ?_⟩
    · exact Nat.le_trans hordered (Nat.le_add_right _ _)
    · rw [h.ended]
      simp
    · have hlen : (buf.append data).size = s.buf.size + data.length := by
        rw [← Window.length_content, happend, List.length_append, Window.length_content, hsize]
      exact Nat.le_of_eq hlen

/-- StdinEof ends the input. -/
theorem Input.Right.end (h : s.Right ms) :
    ({ s with eof := true } : Input).Right (ms ++ [.stdinEof]) := by
  have hsame : inputOf (ms ++ [.stdinEof]) = inputOf ms := by
    by_cases hin : .stdinEof ∈ ms
    · exact inputOf_append_of_mem hin _
    · rw [inputOf_append hin]
      exact List.append_nil _
  refine ⟨h.ordered, h.fits, h.kept, ?_, by simp, ?_, h.broke, fun hb hc => ⟨by simp, ?_⟩⟩
  · rw [hsame]
    exact h.before
  · rw [hsame]
    exact h.queued
  · exact (h.closed hb hc).2

end input

/-! ## the loop -/

/-- A read of the device returns no more than was asked for. -/
def Calls.Possible (c : Calls) : Prop := ∀ bytes, c.device = .data bytes → bytes.length ≤ readChunk

/-- Between two calls: the buffers keep their bounds, together less than the
backlog allows and one read brings on top of it. -/
structure Relay.Right (s : Relay) : Prop where
  input : s.input.Right s.acted
  ordered : s.rx.head ≤ s.rx.tail
  fits : s.rx.tail ≤ decCap
  room : s.input.buf.size + s.rx.size ≤ inputBacklog + decCap

/-- Of messages whose bytes arrive, those before the ones still carried were
acted on. -/
def Relay.Follows (rx : Window UInt8) (s : Relay) : Prop :=
  ∀ (ms : List Msg) (coming : List UInt8), (∀ m ∈ ms, m.body.length ≤ maxFrame) →
    rx.content ++ s.arrived ++ coming = ms.flatMap Msg.encode →
    ∃ left, ms.map Msg.normal = s.acted ++ left.map Msg.normal ∧ (∀ m ∈ left, m ∈ ms) ∧
      Carries s.rx coming left

section relay

variable {s : Relay} {rx : Window UInt8}

theorem backlog_fits : inputBacklog + decCap ≤ inCap := by decide

/-- A frame acted on gives up at least as much as it queues. -/
theorem Relay.Right.frame {m : Msg} {left : Window UInt8} (h : s.Right)
    (hnext : rxNext s.rx = (some m, left)) : (({ s with rx := left } : Relay).frame m).Right := by
  obtain ⟨hordered, htail, hlt, hdata⟩ := rxNext_some h.ordered hnext
  have hroom := h.room
  have hcap := backlog_fits
  have hfits : left.tail ≤ decCap := Nat.le_trans htail h.fits
  unfold Relay.frame
  cases m with
  | stdin data =>
      have hlen := hdata data rfl
      have hspace : s.input.buf.size + data.length ≤ inCap := by omega
      obtain ⟨hpush, hsize⟩ := h.input.push hspace
      refine ⟨hpush, hordered, hfits, ?_⟩
      dsimp only
      omega
  | stdinEof =>
      refine ⟨h.input.end, hordered, hfits, ?_⟩
      dsimp only
      omega
  | _ =>
      refine ⟨h.input.other (by simp) fun _ => .inr rfl, hordered, hfits, ?_⟩
      dsimp only
      omega

theorem Relay.Right.next (h : s.Right) : s.next.1.Right ∧
    (s.next.2 = false → s.next.1.input = s.input ∧ rxTurn s.next.1.rx = none) := by
  unfold Relay.next
  split
  · next hnext => exact ⟨h.frame hnext, by simp⟩
  · next left hnext =>
      obtain ⟨hordered, htail, hsize, hnone⟩ := rxNext_none h.ordered hnext
      have hroom := h.room
      refine ⟨⟨h.input, hordered, Nat.le_trans htail h.fits, ?_⟩, fun _ => ⟨rfl, hnone⟩⟩
      dsimp only
      omega

/-- A read when less than the backlog is queued. -/
theorem Relay.Right.fill {r : Read} (h : s.Right) (hnone : rxTurn s.rx = none)
    (hlow : s.input.buf.size < inputBacklog)
    (hr : ∀ bytes, r = .data bytes → bytes.length ≤ readChunk) : (s.fill r).Right := by
  unfold Relay.fill
  split
  · next bytes =>
      have hfits := rxFill_fits h.ordered hnone (hr bytes rfl)
      have hordered := (rxFill_content h.ordered bytes).2
      refine ⟨h.input, hordered, hfits, ?_⟩
      unfold Window.size at hlow ⊢
      dsimp only
      omega
  · exact ⟨h.input, h.ordered, h.fits, h.room⟩

theorem Relay.Right.poll {c : Calls} (h : s.Right) (hnone : rxTurn s.rx = none)
    (hc : c.Possible) : (s.poll c).Right := by
  have hread : (if c.deviceReady ∧ s.input.buf.size < inputBacklog then s.fill c.device
      else s).Right := by
    split
    · next hready => exact h.fill hnone hready.2 hc
    · exact h
  unfold Relay.poll
  dsimp only
  generalize (if c.deviceReady ∧ s.input.buf.size < inputBacklog then s.fill c.device
      else s) = t at hread
  split
  · exact hread
  · exact hread.next.1

theorem Relay.Right.flush (h : s.Right) (ws : List Write) :
    ({ s with input := s.input.flush ws } : Relay).Right := by
  obtain ⟨hinput, hsize⟩ := h.input.flush ws
  have hroom := h.room
  refine ⟨hinput, h.ordered, h.fits, ?_⟩
  dsimp only
  omega

/-- A turn keeps the bounds and the input. -/
theorem Relay.Right.turn {c : Calls} (h : s.Right) (hc : c.Possible) : (s.turn c).Right := by
  unfold Relay.turn
  split
  · exact h
  · split
    · obtain ⟨hnext, hnone⟩ := (h.flush c.writes).next
      split
      · next t heq =>
          rw [heq] at hnext
          exact hnext
      · next t heq =>
          rw [heq] at hnext hnone
          exact hnext.poll (hnone rfl).2 hc
    · exact ⟨h.input, h.ordered, h.fits, h.room⟩

/-! ## the frames that arrive -/

theorem Relay.Follows.next (h : s.Follows rx) : s.next.1.Follows rx := by
  intro ms coming hfit hms
  have harrived : s.next.1.arrived = s.arrived := by
    unfold Relay.next
    split <;> rfl
  rw [harrived] at hms
  obtain ⟨left, hacted, hsub, hcarries⟩ := h ms coming hfit hms
  unfold Relay.next
  obtain hnone | ⟨m, left', w, rfl, hsome, hleft⟩ :=
    rxNext_carries (fun m hm => hfit m (hsub m hm)) hcarries
  · rw [hnone]
    exact ⟨left, hacted, hsub, hcarries⟩
  · rw [hsome]
    refine ⟨left', ?_, fun x hx => hsub x (List.mem_cons_of_mem _ hx), hleft⟩
    show ms.map Msg.normal = (s.acted ++ [m.normal]) ++ left'.map Msg.normal
    rw [hacted, List.append_assoc]
    rfl

theorem Relay.Follows.fill {r : Read} (h : s.Follows rx) (hs : s.rx.head ≤ s.rx.tail) :
    (s.fill r).Follows rx := by
  unfold Relay.fill
  split
  · next bytes =>
      intro ms coming hfit hms
      obtain ⟨left, hacted, hsub, hcarries⟩ := h ms (bytes ++ coming) hfit (by
        rw [← hms]
        simp only [List.append_assoc])
      exact ⟨left, hacted, hsub, hcarries.fill hs⟩
  · exact h

theorem Relay.Follows.turn {c : Calls} (h : s.Follows rx) (hs : s.Right) :
    (s.turn c).Follows rx := by
  unfold Relay.turn
  split
  · exact h
  · split
    · have hfollows : ({ s with input := s.input.flush c.writes } : Relay).Follows rx := h
      have hnext := (hs.flush c.writes).next.1
      have hgone := hfollows.next
      generalize ({ s with input := s.input.flush c.writes } : Relay).next = x at hnext hgone
      obtain ⟨t, found⟩ := x
      cases found with
      | true => exact hgone
      | false =>
          dsimp only at hnext hgone ⊢
          have hread : (if c.deviceReady ∧ t.input.buf.size < inputBacklog then t.fill c.device
              else t).Follows rx := by
            split
            · exact hgone.fill hnext.ordered
            · exact hgone
          unfold Relay.poll
          dsimp only
          generalize (if c.deviceReady ∧ t.input.buf.size < inputBacklog then t.fill c.device
              else t) = u at hread
          split
          · exact hread
          · exact hread.next
    · exact h

end relay

/-! ## the agent's loop -/

/-- The agent, unless it ended itself, is in the loop of the command with this
input. -/
def Agent.Mirrors (a : Agent) (s : Relay) : Prop :=
  a.phase = .dead ∨ ∃ x, a.phase = .exec x ∧ a.rx = s.rx ∧ x.queue = s.input.buf.content ∧
    x.inEof = s.input.eof ∧ x.inOpen = s.input.isOpen ∧ s.finished = false

section mirrors

variable {env : Env} {a : Agent} {s : Relay}

theorem Agent.Mirrors.send (h : a.Mirrors s) (m : Msg) : (a.send env m).Mirrors s := by
  unfold Agent.send
  split
  · exact h
  · split
    · exact h
    · exact .inl rfl

theorem Agent.Mirrors.onCommand {t : Relay} {f : Command → Command} (h : a.Mirrors s)
    (hf : ∀ x : Command, x.queue = s.input.buf.content → x.inEof = s.input.eof →
      x.inOpen = s.input.isOpen → (f x).queue = t.input.buf.content ∧ (f x).inEof = t.input.eof ∧
        (f x).inOpen = t.input.isOpen)
    (hrx : t.rx = s.rx) (hfin : t.finished = s.finished) : (a.onCommand f).Mirrors t := by
  unfold Agent.onCommand
  obtain hdead | ⟨x, hphase, hw, hq, he, ho, hlive⟩ := h
  · rw [hdead]
    exact .inl hdead
  · rw [hphase]
    obtain ⟨hq', he', ho'⟩ := hf x hq he ho
    exact .inr ⟨f x, rfl, hw.trans hrx.symm, hq', he', ho', hfin.trans hlive⟩

theorem Agent.Mirrors.pumpReady {o : Output} {ready : Bool} {r : Read} (h : a.Mirrors s) :
    (a.pumpReady env o ready r).Mirrors s := by
  have hclose : (a.onCommand o.close).Mirrors s :=
    h.onCommand (fun x hq he ho => by cases o <;> exact ⟨hq, he, ho⟩) rfl rfl
  unfold Agent.pumpReady
  split
  · split
    · unfold Agent.pumpRead
      split
      · exact h.send _
      · exact hclose
      · split
        · exact h
        · exact hclose
    · exact h
  · exact h

theorem Agent.Mirrors.pumpPoll {p : Pump} (h : a.Mirrors s) : (a.pumpPoll env p).Mirrors s :=
  h.pumpReady.pumpReady

theorem Input.push_content {t : Input} (h : t.buf.head ≤ t.buf.tail) (data : List UInt8) :
    (t.push data).buf.content =
        (if t.eof = true ∨ t.isOpen = false ∨ inCap < t.buf.content.length + data.length
          then t.buf.content else t.buf.content ++ data) ∧
      (t.push data).eof = t.eof ∧ (t.push data).isOpen = t.isOpen := by
  unfold Input.push
  by_cases hclosed : t.eof = true ∨ t.isOpen = false
  · rw [if_pos hclosed, if_pos (by tauto)]
    exact ⟨rfl, rfl, rfl⟩
  · rw [if_neg hclosed]
    obtain ⟨heof, hopen⟩ := not_or.mp hclosed
    dsimp only
    by_cases hfit : t.buf.tail + data.length ≤ inCap
    · have hsize : t.buf.size ≤ t.buf.tail := Nat.sub_le _ _
      rw [if_pos hfit, if_pos hfit, if_neg, Window.content_append h]
      · exact ⟨rfl, rfl, rfl⟩
      · rw [Window.length_content]
        rintro (h | h | h)
        · exact heof h
        · exact hopen h
        · omega
    · rw [if_neg hfit]
      by_cases hroom : t.buf.compact.tail + data.length ≤ inCap
      · rw [if_pos hroom, if_neg, Window.content_append (Nat.zero_le _), Window.content_compact]
        · exact ⟨rfl, rfl, rfl⟩
        · rw [Window.length_content]
          rintro (h | h | h)
          · exact heof h
          · exact hopen h
          · exact absurd hroom (Nat.not_le.mpr h)
      · rw [if_neg hroom, if_pos, Window.content_compact]
        · exact ⟨rfl, rfl, rfl⟩
        · rw [Window.length_content]
          exact .inr (.inr (Nat.not_le.mp hroom))

/-- The queue takes and gives what the buffer does. -/
theorem Agent.Mirrors.execFrame {m : Msg} (h : a.Mirrors s)
    (hordered : s.input.buf.head ≤ s.input.buf.tail) :
    (a.execFrame env m).Mirrors (s.frame m) := by
  unfold Agent.execFrame
  cases m with
  | stdin data =>
      refine h.onCommand (fun x hq he ho => ?_) rfl rfl
      obtain ⟨hcontent, heof, hopen⟩ := Input.push_content hordered data
      unfold Relay.frame Command.push
      dsimp only
      rw [hcontent, heof, hopen, hq, he, ho]
      split
      · exact ⟨hq, he, ho⟩
      · exact ⟨rfl, rfl, rfl⟩
  | stdinEof => exact h.onCommand (fun x hq _ ho => ⟨hq, rfl, ho⟩) rfl rfl
  | stat =>
      have hsame : a.Mirrors (s.frame .stat) := h
      exact hsame.send _
  | _ => exact h

/-- Where the writes end, it is only looked whether all is written. -/
theorem Input.flushEnd_content {t u : Input} {x y : Command} (hq : x.queue = t.buf.content)
    (he : x.inEof = t.eof) (ho : x.inOpen = t.isOpen)
    (hy : y = if x.inOpen = false then x
      else if x.queue = [] then if x.inEof then { x with inOpen := false } else x else x)
    (hu : u = if t.isOpen = false then t
      else if t.buf.size = 0 then { t with buf := t.buf.clear, isOpen := !t.eof } else t) :
    y.queue = u.buf.content ∧ y.inEof = u.eof ∧ y.inOpen = u.isOpen := by
  have hempty : x.queue = [] ↔ t.buf.size = 0 := by
    rw [hq]
    exact Window.content_eq_nil_iff
  subst hy hu
  by_cases hopen : t.isOpen = false
  · rw [if_pos hopen, if_pos (ho.trans hopen)]
    exact ⟨hq, he, ho⟩
  · rw [if_neg hopen, if_neg (by rw [ho]; exact hopen)]
    by_cases hnil : t.buf.size = 0
    · have hall := hempty.mpr hnil
      rw [if_pos hnil, if_pos hall]
      cases heof : t.eof with
      | true =>
          rw [if_pos (he.trans heof)]
          exact ⟨hall, he.trans heof, rfl⟩
      | false =>
          rw [if_neg (by rw [he, heof]; exact Bool.false_ne_true)]
          exact ⟨hall, he.trans heof, by simpa [ho] using hopen⟩
    · rw [if_neg hnil, if_neg (mt hempty.mp hnil)]
      exact ⟨hq, he, ho⟩

theorem Input.flush_content {ws : List Write} {t : Input} {x : Command}
    (hq : x.queue = t.buf.content) (he : x.inEof = t.eof) (ho : x.inOpen = t.isOpen) :
    (x.flush ws).queue = (t.flush ws).buf.content ∧ (x.flush ws).inEof = (t.flush ws).eof ∧
      (x.flush ws).inOpen = (t.flush ws).isOpen := by
  induction ws generalizing t x with
  | nil => exact Input.flushEnd_content hq he ho rfl rfl
  | cons w ws ih =>
      have hempty : x.queue = [] ↔ t.buf.size = 0 := by
        rw [hq]
        exact Window.content_eq_nil_iff
      have hshut : x.inOpen = false ↔ t.isOpen = false := by rw [ho]
      by_cases hopen : t.isOpen = false
      · refine Input.flushEnd_content hq he ho ?_ ?_
        · unfold Command.flush
          rw [if_pos (hshut.mpr hopen), if_pos (hshut.mpr hopen)]
        · unfold Input.flush
          rw [if_pos hopen, if_pos hopen]
      · by_cases hnil : t.buf.size = 0
        · refine Input.flushEnd_content hq he ho ?_ ?_
          · unfold Command.flush
            rw [if_neg (mt hshut.mp hopen), if_neg (mt hshut.mp hopen),
              if_pos (hempty.mpr hnil), if_pos (hempty.mpr hnil)]
          · unfold Input.flush
            rw [if_neg hopen, if_neg hopen, if_pos hnil, if_pos hnil]
        · unfold Command.flush Input.flush
          rw [if_neg hopen, if_neg (mt hshut.mp hopen), if_neg hnil, if_neg (mt hempty.mp hnil)]
          match w with
          | .full => exact ⟨hq, he, ho⟩
          | .written 0 => exact ⟨hq, he, ho⟩
          | .interrupted => exact ih hq he ho
          | .broken => exact ⟨rfl, he, rfl⟩
          | .written (n + 1) =>
              refine ih ?_ he ho
              dsimp only
              rw [Window.content_advance, hq, ← Window.length_content]
              exact List.drop_eq_drop_min

/-- A frame found is acted on by both. -/
theorem Agent.Mirrors.next (h : a.Mirrors s) (env : Env) (hs : s.Right) :
    (∃ b m, a.nextFrame = (b, some m) ∧ s.next.2 = true ∧ (b.execFrame env m).Mirrors s.next.1) ∨
    (∃ b, a.nextFrame = (b, none) ∧ b.Mirrors s.next.1 ∧ (s.next.2 = true → b.phase = .dead)) := by
  obtain hdead | ⟨x, hphase, hrx, hq, he, ho, hlive⟩ := h
  · refine .inr ⟨a, ?_, .inl hdead, fun _ => hdead⟩
    unfold Agent.nextFrame
    rw [hdead]
  · have halive : a.phase ≠ .dead := by
      rw [hphase]
      simp
    rw [Agent.nextFrame_eq halive, hrx]
    unfold Relay.next
    cases hnext : rxNext s.rx with
    | mk found left =>
        cases found with
        | none => exact .inr ⟨_, rfl, .inr ⟨x, hphase, rfl, hq, he, ho, hlive⟩, by simp⟩
        | some m =>
            refine .inl ⟨_, m, rfl, rfl, ?_⟩
            exact Agent.Mirrors.execFrame (s := { s with rx := left })
              (.inr ⟨x, hphase, rfl, hq, he, ho, hlive⟩) hs.input.ordered

theorem Agent.execPoll_dead {c : Calls} (h : a.phase = .dead) : a.execPoll env c = a := by
  have hready : ∀ o ready r, a.pumpReady env o ready r = a := by
    intro o ready r
    unfold Agent.pumpReady
    rw [h]
  have hnext : a.nextFrame = (a, none) := by
    unfold Agent.nextFrame
    rw [h]
  unfold Agent.execPoll Agent.pumpPoll Agent.wantsInput
  dsimp only
  rw [hready, hready, h, Bool.and_false, if_neg Bool.false_ne_true, hnext]

theorem Agent.Mirrors.fill (h : a.Mirrors s) (r : Read) : (a.fill r).Mirrors (s.fill r) := by
  unfold Agent.fill Relay.fill
  obtain hdead | ⟨x, hphase, hrx, hq, he, ho, hlive⟩ := h
  · rw [hdead]
    exact .inl hdead
  · rw [hphase]
    cases r with
    | data bytes =>
        refine .inr ⟨x, rfl, ?_, hq, he, ho, hlive⟩
        dsimp only
        rw [hrx]
    | eof => exact .inl rfl
    | failed errno => exact .inl rfl

/-- What is found after the poll is acted on. -/
theorem Agent.Mirrors.acts (h : a.Mirrors s) (hs : s.Right) :
    Agent.Mirrors (match a.nextFrame with
      | (b, some m) => b.execFrame env m
      | (b, none) => b) (if s.finished = true then s else s.next.1) := by
  by_cases hfin : s.finished = true
  · have hdead : a.phase = .dead := by
      obtain hdead | ⟨x, -, -, -, -, -, hlive⟩ := h
      · exact hdead
      · rw [hfin] at hlive
        cases hlive
    have hnext : a.nextFrame = (a, none) := by
      unfold Agent.nextFrame
      rw [hdead]
    rw [hnext]
    exact .inl hdead
  · rw [if_neg hfin]
    obtain ⟨b, m, hnext, -, hb⟩ | ⟨b, hnext, hb, -⟩ := h.next env hs
    · rw [hnext]
      exact hb
    · rw [hnext]
      exact hb

/-- The poll reads the device when less than the backlog is queued. -/
theorem Agent.Mirrors.execPoll {c : Calls} (h : a.Mirrors s) (hs : s.Right)
    (hnone : rxTurn s.rx = none) (hc : c.Possible) : (a.execPoll env c).Mirrors (s.poll c) := by
  obtain hdead | ⟨x, hphase, hrx, hq, he, ho, hlive⟩ := h
  · rw [Agent.execPoll_dead hdead]
    exact .inl hdead
  · have hwants : a.wantsInput = decide (s.input.buf.size < inputBacklog) := by
      unfold Agent.wantsInput
      rw [hphase]
      dsimp only
      rw [hq, Window.length_content]
    have hpump : (a.pumpPoll env c.pump).Mirrors s :=
      Agent.Mirrors.pumpPoll (.inr ⟨x, hphase, hrx, hq, he, ho, hlive⟩)
    unfold Agent.execPoll Relay.poll
    dsimp only
    rw [hwants]
    generalize a.pumpPoll env c.pump = b at hpump
    have hready : (c.deviceReady && decide (s.input.buf.size < inputBacklog)) = true ↔
        c.deviceReady = true ∧ s.input.buf.size < inputBacklog := by simp
    by_cases hread : c.deviceReady = true ∧ s.input.buf.size < inputBacklog
    · rw [if_pos (hready.mpr hread), if_pos hread]
      have hfill := hpump.fill c.device
      have hs' := hs.fill hnone hread.2 hc
      generalize b.fill c.device = b' at hfill
      generalize s.fill c.device = s' at hfill hs'
      exact hfill.acts hs'
    · rw [if_neg (mt hready.mp hread), if_neg hread]
      exact hpump.acts hs

/-- **The agent's loop moves the input as the buffers do**, turn by turn, while
the command runs and the agent does not end itself. -/
theorem Agent.Mirrors.execTurn {c : Calls} (h : a.Mirrors s) (hs : s.Right) (hc : c.Possible)
    (hrun : c.waited = .running) : (a.execTurn env c).Mirrors (s.turn c) := by
  have hflush : (a.onCommand (Command.flush c.writes)).Mirrors
      { s with input := s.input.flush c.writes } :=
    h.onCommand (fun _ hq he ho => Input.flush_content hq he ho) rfl rfl
  have hright := hs.flush c.writes
  have hnone := hright.next
  unfold Agent.execTurn
  rw [hrun]
  dsimp only
  obtain hdead | ⟨x, hphase, -, -, -, -, hlive⟩ := h
  · have hstay : a.onCommand (Command.flush c.writes) = a := by
      unfold Agent.onCommand
      rw [hdead]
    have hnext : a.nextFrame = (a, none) := by
      unfold Agent.nextFrame
      rw [hdead]
    rw [hstay, hnext]
    dsimp only
    rw [Agent.execPoll_dead hdead]
    exact .inl hdead
  · unfold Relay.turn
    rw [if_neg (by rw [hlive]; exact Bool.false_ne_true), hrun]
    dsimp only
    obtain ⟨b, m, hnext, hfound, hb⟩ | ⟨b, hnext, hb, hdead⟩ := hflush.next env hright
    · rw [hnext]
      dsimp only
      generalize ({ s with input := s.input.flush c.writes } : Relay).next = y at hfound hb
      obtain ⟨t, found⟩ := y
      dsimp only at hfound hb
      subst hfound
      exact hb.pumpPoll
    · rw [hnext]
      dsimp only
      generalize ({ s with input := s.input.flush c.writes } : Relay).next = y at hb hdead hnone
      obtain ⟨t, found⟩ := y
      cases found with
      | true =>
          have hgone := hdead rfl
          rw [Agent.execPoll_dead hgone]
          exact .inl hgone
      | false => exact hb.execPoll hnone.1 (hnone.2 rfl).2 hc

end mirrors

/-! ## whole runs -/

/-- **The input relay is lossless.**  Whatever arrives however cut, and whatever
the pipe takes: what it took is the start of what the frames acted on bring
before StdinEof, and until it breaks nothing else is queued; a pipe closed
unbroken took it all.  No byte is thrown away, the buffers keep their bounds,
and the frames acted on are the messages that arrived, one after the other. -/
theorem input_lossless (rx : Window UInt8) (hrx : rx.head ≤ rx.tail) (hfits : rx.tail ≤ decCap)
    (cells : Nat → UInt8) (cs : List Calls) (hcs : ∀ c ∈ cs, c.Possible) :
    let s := run Relay.turn (.start rx cells) cs
    s.input.written <+: inputOf s.acted ∧
    (s.input.broken = false → s.input.written ++ s.input.buf.content = inputOf s.acted) ∧
    (s.input.broken = false → s.input.isOpen = false →
      .stdinEof ∈ s.acted ∧ s.input.written = inputOf s.acted) ∧
    s.input.dropped = [] ∧
    s.input.buf.tail ≤ inCap ∧
    s.input.buf.size ≤ inputBacklog + decCap ∧
    s.rx.tail ≤ decCap ∧
    ∀ (ms : List Msg) (coming : List UInt8), (∀ m ∈ ms, m.body.length ≤ maxFrame) →
      rx.content ++ s.arrived ++ coming = ms.flatMap Msg.encode →
      ∃ left : List Msg, ms.map Msg.normal = s.acted ++ left.map Msg.normal ∧
        s.rx.content ++ coming = left.flatMap Msg.encode := by
  intro s
  have hrun : s.Right ∧ s.Follows rx := by
    have hstart : (Relay.start rx cells).Right ∧ (Relay.start rx cells).Follows rx := by
      refine ⟨⟨⟨Nat.le_refl _, Nat.zero_le _, rfl, List.prefix_rfl,
        by simp [Relay.start, Input.start], fun _ => rfl, by simp [Relay.start, Input.start],
        by simp [Relay.start, Input.start]⟩,
        hrx, hfits, ?_⟩, fun ms coming _ hms => ⟨ms, rfl, fun _ hm => hm, ?_⟩⟩
      · show 0 - 0 + rx.size ≤ inputBacklog + decCap
        unfold Window.size
        omega
      · unfold Carries
        rw [← hms]
        simp [Relay.start]
    have hstep : ∀ (t : Relay) (c : Calls), t.Right ∧ t.Follows rx → c.Possible →
        (t.turn c).Right ∧ (t.turn c).Follows rx :=
      fun t c ⟨ht, hf⟩ hc => ⟨ht.turn hc, hf.turn ht⟩
    exact run_inv hstep hstart (along_of_mem hcs _)
  obtain ⟨hright, hfollows⟩ := hrun
  have hinput := hright.input
  refine ⟨hinput.before, hinput.queued, fun hb hc => ?_, hinput.kept, hinput.fits,
    Nat.le_trans (Nat.le_add_right _ _) hright.room, hright.fits, fun ms coming hfit hms => ?_⟩
  · obtain ⟨hmem, hnil⟩ := hinput.closed hb hc
    have hqueued := hinput.queued hb
    rw [hnil, List.append_nil] at hqueued
    exact ⟨hmem, hqueued⟩
  · obtain ⟨left, hacted, -, hcarries⟩ := hfollows ms coming hfit hms
    exact ⟨left, hacted, hcarries⟩

/-- `Stdin` of two bytes and `StdinEof`. -/
def stdinAb : List UInt8 := [3, 0, 0, 0, 2, 97, 98, 1, 0, 0, 0, 3]

example : stdinAb = [Msg.stdin [97, 98], Msg.stdinEof].flatMap Msg.encode := by decide

/-- Two bytes read in one go and written one by one. -/
theorem input_lossless_ab :
    let rx : Window UInt8 := ⟨fun _ => 0, 0, 0⟩
    let s := run Relay.turn (.start rx fun _ => 0)
      [{ Agent.quiet with deviceReady := true, device := .data stdinAb }, Agent.quiet,
        { Agent.quiet with writes := [.written 1, .interrupted, .written 1] }]
    s.input.written <+: inputOf s.acted ∧
    (s.input.broken = false → s.input.written ++ s.input.buf.content = inputOf s.acted) ∧
    (s.input.broken = false → s.input.isOpen = false →
      .stdinEof ∈ s.acted ∧ s.input.written = inputOf s.acted) ∧
    s.input.dropped = [] ∧
    s.input.buf.tail ≤ inCap ∧
    s.input.buf.size ≤ inputBacklog + decCap ∧
    s.rx.tail ≤ decCap ∧
    ∀ (ms : List Msg) (coming : List UInt8), (∀ m ∈ ms, m.body.length ≤ maxFrame) →
      rx.content ++ s.arrived ++ coming = ms.flatMap Msg.encode →
      ∃ left : List Msg, ms.map Msg.normal = s.acted ++ left.map Msg.normal ∧
        s.rx.content ++ coming = left.flatMap Msg.encode :=
  input_lossless _ (Nat.le_refl _) (Nat.zero_le _) _ _ (by
    intro c hc bytes hbytes
    simp only [List.mem_cons, List.not_mem_nil, or_false] at hc
    obtain rfl | rfl | rfl := hc <;> cases hbytes <;> decide)

example :
    let s := run Relay.turn (.start ⟨fun _ => 0, 0, 0⟩ fun _ => 0)
      [{ Agent.quiet with deviceReady := true, device := .data stdinAb }, Agent.quiet,
        { Agent.quiet with writes := [.written 1, .interrupted, .written 1] }]
    s.input.written = [97, 98] ∧ s.input.isOpen = false := by decide

end Phi.Card
