import Phi.Card.Agent

/-!
# Phi.Card.Reading

What the agent takes from the device.

A call of `next_frame` gives up what it takes from the front of the buffer, and
more than the body of the frame it finds.  When the bytes arriving are those of
whole messages, however they are cut, it finds the messages one after the other
and none is lost between two calls.
-/

namespace Phi.Card

open Rpc Serve

/-! ## a message and its tag -/

/-- A message read under a tag carries it. -/
theorem tag_of_fields (t : Tag) : Reader.Gives (Read.fields t) fun m => m.tag = t := by
  cases t with
  | stdin | stdout | stderr | putData | get | getData | getEnd | error | pong | sensorsReply
  | statReply | trafficReply => exact Reader.gives_bind _ fun _ => Reader.gives_pure rfl
  | stdinEof | putClose | ping | sensors | stat | traffic => exact Reader.gives_pure rfl
  | exec =>
      exact Reader.gives_bind _ fun _ => Reader.gives_bind _ fun _ => Reader.gives_bind _ fun _ =>
        Reader.gives_pure rfl
  | exit => exact Reader.gives_bind _ fun _ => Reader.gives_pure rfl
  | putOpen =>
      exact Reader.gives_bind _ fun _ => Reader.gives_bind _ fun _ => Reader.gives_pure rfl

/-- The bytes of a Stdin message are the body of its frame. -/
theorem body_of_stdin {tag : UInt8} {body data : List UInt8}
    (h : decodeBody tag body = .ok (.stdin data)) : data = body := by
  unfold decodeBody at h
  split at h
  · cases h
  · next t ht =>
      split at h
      · cases h
      · next m left hread =>
          cases h
          have htag := tag_of_fields t body _ left hread
          subst htag
          cases hread
          rfl

/-! ## one call -/

/-- `next_frame` on the buffer alone: the message it finds, and what is left. -/
def rxNext (w : Window UInt8) : Option Msg × Window UInt8 :=
  let (_, found, rx) := nextRxFrame w.size w
  match found.map fun f => decodeBody f.1 f.2 with
  | some (.ok m) => (some m, rx)
  | _ => (none, rx)

theorem Agent.nextFrame_eq {a : Agent} (h : a.phase ≠ .dead) :
    a.nextFrame = match rxNext a.rx with
      | (some m, rx) => ({ a with rx, history := a.history ++ [.took m] }, some m)
      | (none, rx) => ({ a with rx }, none) := by
  unfold Agent.nextFrame
  split
  · next hphase => exact absurd hphase h
  · unfold rxNext
    dsimp only
    generalize (nextRxFrame a.rx.size a.rx).2.1.map (fun f => decodeBody f.1 f.2) = found
    obtain _ | _ | m := found
    · rfl
    · rfl
    · rfl

/-- What a call leaves of the buffer: the same order, no more than there was,
and less by a frame when it found one. -/
theorem nextRxFrame_spec {n : Nat} {w left : Window UInt8} {log : List (Outcome × List UInt8)}
    {found : Option (UInt8 × List UInt8)} (hw : w.head ≤ w.tail)
    (h : nextRxFrame n w = (log, found, left)) :
    left.head ≤ left.tail ∧ left.tail ≤ w.tail ∧ left.size ≤ w.size ∧
      ∀ tag body, found = some (tag, body) → left.size + body.length + 5 ≤ w.size := by
  induction n generalizing w log with
  | zero =>
      cases h
      exact ⟨hw, Nat.le_refl _, Nat.le_refl _, by simp⟩
  | succ n ih =>
      unfold nextRxFrame at h
      cases hturn : rxTurn w with
      | none =>
          rw [hturn] at h
          cases h
          exact ⟨hw, Nat.le_refl _, Nat.le_refl _, by simp⟩
      | some x =>
          obtain ⟨o, v⟩ := x
          have hv := rxTurn_ordered hw hturn
          have hlt : v.size < w.size :=
            rxIntake_shrinks w (o, v.content) v (congrArg (Option.map _) hturn)
          have htail : v.tail ≤ w.tail := rxTurn_tail hturn
          rw [hturn] at h
          cases o with
          | frame tag body =>
              cases h
              have hframe := rxTurn_frame hturn
              refine ⟨hv, htail, Nat.le_of_lt hlt, fun tag' body' heq => ?_⟩
              cases heq
              rw [hframe] at hv ⊢
              unfold Window.advance at hv ⊢
              unfold Window.size
              dsimp only at hv ⊢
              omega
          | length _ | tag _ | malformed =>
              dsimp only at h
              generalize hr : nextRxFrame n v = r at h
              obtain ⟨log', found', left'⟩ := r
              cases h
              obtain ⟨h1, h2, h3, h4⟩ := ih hv hr
              refine ⟨h1, Nat.le_trans h2 htail, by omega, fun tag body heq => ?_⟩
              have := h4 tag body heq
              omega

theorem rxNext_none {w left : Window UInt8} (hw : w.head ≤ w.tail) (h : rxNext w = (none, left)) :
    left.head ≤ left.tail ∧ left.tail ≤ w.tail ∧ left.size ≤ w.size ∧ rxTurn left = none := by
  unfold rxNext at h
  generalize hr : nextRxFrame w.size w = r at h
  obtain ⟨log, found, rx⟩ := r
  obtain ⟨h1, h2, h3, -⟩ := nextRxFrame_spec hw hr
  cases found with
  | none =>
      cases h
      have hdrain := drain_nextRxFrame (Nat.le_refl w.size)
      rw [hr] at hdrain
      have hnext := Intake.next_drain rxIntake_shrinks w
      rw [hdrain] at hnext
      exact ⟨h1, h2, h3, Option.map_eq_none_iff.mp hnext⟩
  | some f =>
      obtain ⟨tag, body⟩ := f
      obtain ⟨m, hm⟩ := Agent.decodes_of_nextRxFrame (n := w.size) (w := w) (by rw [hr])
      dsimp only [Option.map] at h
      rw [hm] at h
      cases h

theorem rxNext_some {w left : Window UInt8} {m : Msg} (hw : w.head ≤ w.tail)
    (h : rxNext w = (some m, left)) :
    left.head ≤ left.tail ∧ left.tail ≤ w.tail ∧ left.size < w.size ∧
      ∀ data, m = .stdin data → left.size + data.length + 5 ≤ w.size := by
  unfold rxNext at h
  generalize hr : nextRxFrame w.size w = r at h
  obtain ⟨log, found, rx⟩ := r
  obtain ⟨h1, h2, -, h4⟩ := nextRxFrame_spec hw hr
  cases found with
  | none => cases h
  | some f =>
      obtain ⟨tag, body⟩ := f
      have hlen := h4 tag body rfl
      dsimp only [Option.map] at h
      split at h
      · next m' hm =>
          cases h
          refine ⟨h1, h2, by omega, fun data heq => ?_⟩
          subst heq
          rw [body_of_stdin (Option.some.inj hm)]
          exact hlen
      · cases h

/-! ## messages arriving -/

/-- The bytes buffered and those still to come are those of the messages. -/
def Carries (w : Window UInt8) (coming : List UInt8) (ms : List Msg) : Prop :=
  w.content ++ coming = ms.flatMap Msg.encode

/-- The turn at the front of whole messages: the first is found, or waited
for. -/
theorem cut_of_carries {bs coming : List UInt8} {ms : List Msg}
    (hfit : ∀ m ∈ ms, m.body.length ≤ maxFrame) (h : bs ++ coming = ms.flatMap Msg.encode) :
    cut bs = none ∨ ∃ m ms' tag body left, ms = m :: ms' ∧ cut bs = some (.frame tag body, left) ∧
      decodeBody tag body = .ok m.normal ∧ left ++ coming = ms'.flatMap Msg.encode := by
  cases ms with
  | nil =>
      obtain ⟨rfl, -⟩ := List.append_eq_nil_iff.mp h
      exact .inl rfl
  | cons m ms =>
      have hm := hfit m List.mem_cons_self
      rw [List.flatMap_cons] at h
      by_cases hwhole : m.encode.length ≤ bs.length
      · obtain ⟨left, hbs, hleft⟩ : ∃ left, bs = m.encode ++ left ∧
            left ++ coming = ms.flatMap Msg.encode := by
          obtain ⟨l, hl, hr⟩ | ⟨l, hl, hr⟩ := List.append_eq_append_iff.mp h
          · have hlen := congrArg List.length hl
            rw [List.length_append] at hlen
            have hnil : l = [] := List.length_eq_zero_iff.mp (by omega)
            subst hnil
            exact ⟨[], by rw [hl]; simp, by simpa using hr⟩
          · exact ⟨l, hl, hr.symm⟩
        have hnext := decoderNext_encode hm left
        rw [← hbs] at hnext
        obtain ⟨-, hnone⟩ | ⟨o, rest, r, hcut, hsome, hagree⟩ := decoderNext_cut bs
        · rw [hnone] at hnext
          cases hnext
        · rw [hsome] at hnext
          cases hnext
          cases o with
          | frame tag body =>
              obtain ⟨m', hm', heq⟩ := hagree
              cases heq
              exact .inr ⟨m, ms, tag, body, left, rfl, hcut, hm', hleft⟩
          | length _ | tag _ | malformed => cases hagree
      · obtain ⟨more, hbs⟩ : ∃ more, m.encode = bs ++ more := by
          obtain ⟨l, hl, hr⟩ | ⟨l, hl, hr⟩ := List.append_eq_append_iff.mp h
          · exact ⟨l, hl⟩
          · rw [hl, List.length_append] at hwhole
            omega
        have hmore : more ≠ [] := by
          rintro rfl
          rw [hbs, List.append_nil] at hwhole
          exact hwhole (Nat.le_refl _)
        have hnext := decoderNext_part hm hbs hmore
        obtain ⟨hcut, -⟩ | ⟨o, rest, r, -, hsome, -⟩ := decoderNext_cut bs
        · exact .inl hcut
        · rw [hsome] at hnext
          cases hnext

/-- A call finds the first of the messages arriving, or leaves all as it is. -/
theorem rxNext_carries {w : Window UInt8} {coming : List UInt8} {ms : List Msg}
    (hfit : ∀ m ∈ ms, m.body.length ≤ maxFrame) (h : Carries w coming ms) :
    rxNext w = (none, w) ∨
      ∃ m ms' left, ms = m :: ms' ∧ rxNext w = (some m.normal, left) ∧ Carries left coming ms' := by
  have hturn := rxTurn_content w
  obtain hnone | ⟨m, ms', tag, body, rest, hms, hcut, hm, hrest⟩ := cut_of_carries hfit h
  · rw [hnone, Option.map_eq_none_iff] at hturn
    have hstay : nextRxFrame w.size w = ([], none, w) := by
      cases w.size with
      | zero => rfl
      | succ n =>
          unfold nextRxFrame
          rw [hturn]
    unfold rxNext
    rw [hstay]
    exact .inl rfl
  · rw [hcut] at hturn
    obtain ⟨⟨o, left⟩, hx, heq⟩ := Option.map_eq_some_iff.mp hturn
    cases heq
    have hpos : w.size ≠ 0 := by
      intro hzero
      have hlt := cut_shrinks hcut
      rw [w.length_content, hzero] at hlt
      exact absurd hlt (Nat.not_lt_zero _)
    obtain ⟨n, hn⟩ := Nat.exists_eq_succ_of_ne_zero hpos
    refine .inr ⟨m, ms', left, hms, ?_, hrest⟩
    unfold rxNext
    rw [hn]
    unfold nextRxFrame
    rw [hx]
    dsimp only [Option.map]
    rw [hm]

/-- Reading on keeps what is carried. -/
theorem Carries.fill {w : Window UInt8} {chunk coming : List UInt8} {ms : List Msg}
    (hw : w.head ≤ w.tail) (h : Carries w (chunk ++ coming) ms) :
    Carries (rxFill w chunk) coming ms := by
  unfold Carries at h ⊢
  rw [(rxFill_content hw chunk).1, List.append_assoc]
  exact h

end Phi.Card
