import Phi.Xfer.System

/-!
# Phi.Xfer.Standing

Where the daemon and the card stand.

The daemon lets a session in only when none is held, and holds it until its last
frame has passed.  So the frame that opens the next one is taken by an agent
that is outside a session, and every frame of an earlier one that was still on
its way is taken before it and opens nothing.
-/

namespace Phi.Xfer

open Rpc Card Serve

/-! ## the protocol -/

/-- The frames sent, other than replies to `Stat`. -/
def outs : List Happening → List Msg
  | [] => []
  | .took _ :: hs | .sent (.statReply _) :: hs => outs hs
  | .sent m :: hs => m :: outs hs

@[simp] theorem outs_append (hs gs : List Happening) : outs (hs ++ gs) = outs hs ++ outs gs := by
  induction hs with
  | nil => rfl
  | cons x hs ih => cases x with
      | took m => exact ih
      | sent m => cases m <;> simp [outs, ih]

/-- Frames that open no session. -/
def Quiet (ms : List Msg) : Prop := ∀ m ∈ ms, opens m = none

/-- The session the daemon holds, the one the agent is in, the frames on their
way to the card, and those of the session on their way back. -/
inductive Standing : Option Kind → Option Kind → List Msg → List Msg → Prop where
  | idle {ms} : Quiet ms → Standing none none ms []
  | asked {k pre m post} : Quiet pre → opens m = some k → Quiet post →
      Standing (some k) none (pre ++ m :: post) []
  | running {k ms os} : Quiet ms → (∀ o ∈ os, k.own o = true) → Standing (some k) (some k) ms os
  | finished {k ms os t} : Quiet ms → (∀ o ∈ os, k.own o = true) → k.ends t = true →
      Standing (some k) none ms (os ++ [t])

section

variable {held cur : Option Kind} {ms os : List Msg} {m : Msg}

theorem Quiet.tail (h : Quiet (m :: ms)) : Quiet ms := fun x hx => h x (List.mem_cons_of_mem _ hx)

theorem Quiet.head (h : Quiet (m :: ms)) : opens m = none := h m List.mem_cons_self

theorem Quiet.snoc (h : Quiet ms) (hm : opens m = none) : Quiet (ms ++ [m]) := by
  intro x hx
  simp only [List.mem_append, List.mem_singleton] at hx
  obtain hx | rfl := hx
  · exact h x hx
  · exact hm

/-- The next frame is taken. -/
theorem Standing.took (h : Standing held cur (m :: ms) os) :
    Standing held (cur <|> opens m) ms os := by
  generalize hall : m :: ms = all at h
  cases h with
  | idle hq =>
      subst hall
      rw [hq.head]
      exact .idle hq.tail
  | @asked k pre x post hpre hx hpost =>
      cases pre with
      | nil =>
          cases hall
          rw [hx]
          exact .running hpost nofun
      | cons y pre =>
          cases hall
          rw [hpre.head]
          exact .asked hpre.tail hx hpost
  | running hq hown =>
      subst hall
      exact .running hq.tail hown
  | finished hq hown ht =>
      subst hall
      rw [hq.head]
      exact .finished hq.tail hown ht

/-- A frame is sent where it may be. -/
theorem Standing.sent (h : Standing held cur ms os) (hm : legal cur (.sent m) = true) :
    Standing held (sessionAfter cur (.sent m)) ms (os ++ outs [.sent m]) := by
  by_cases hreply : answers (.sent m) = true
  · have hstay : sessionAfter cur (.sent m) = cur := by
      cases m with
      | statReply st => cases cur <;> simp [sessionAfter, Option.filter, Kind.not_ends_statReply]
      | _ => cases hreply
    have hnone : outs [.sent m] = [] := by
      cases m with
      | statReply st => rfl
      | _ => cases hreply
    rwa [hstay, hnone, List.append_nil]
  · have hone : outs [.sent m] = [m] := by
      cases m with
      | statReply st => exact absurd rfl hreply
      | _ => rfl
    rw [hone]
    simp only [legal, hreply, Bool.false_or, Option.any_eq_true] at hm
    cases h with
    | @running k _ _ hq hown =>
        obtain ⟨k', hk, hm⟩ := hm
        cases hk
        rw [Bool.or_eq_true] at hm
        obtain hm | hm := hm
        · have hstay : sessionAfter (some k) (.sent m) = some k := by
            simp [sessionAfter, Option.filter, Kind.not_ends_of_own hm]
          rw [hstay]
          refine .running hq fun o ho => ?_
          simp only [List.mem_append, List.mem_singleton] at ho
          obtain ho | rfl := ho
          · exact hown o ho
          · exact hm
        · have hend : sessionAfter (some k) (.sent m) = none := by
            simp [sessionAfter, Option.filter, hm]
          rw [hend]
          exact .finished hq hown hm
    | idle _ | asked _ _ _ | finished _ _ _ => simp at hm

/-- What happens in a turn. -/
theorem Standing.happens {hs : List Happening} (h : Standing held cur (taken hs ++ ms) os)
    (hlegal : Along sessionAfter (fun cur x => legal cur x = true) cur hs) :
    Standing held (run sessionAfter cur hs) ms (os ++ outs hs) := by
  induction hs generalizing cur os with
  | nil => rwa [show outs [] = [] from rfl, List.append_nil]
  | cons x hs ih =>
      obtain ⟨hx, hrest⟩ := hlegal
      cases x with
      | took m => exact ih h.took hrest
      | sent m =>
          have hnext := ih (h.sent hx) hrest
          rwa [List.append_assoc, ← outs_append] at hnext

/-- A frame passed to the card that opens nothing. -/
theorem Standing.pass (h : Standing held cur ms os) (hm : opens m = none) :
    Standing held cur (ms ++ [m]) os := by
  cases h with
  | idle hq => exact .idle (hq.snoc hm)
  | asked hpre hx hpost =>
      rw [List.append_assoc]
      exact .asked hpre hx (hpost.snoc hm)
  | running hq hown => exact .running (hq.snoc hm) hown
  | finished hq hown ht => exact .finished (hq.snoc hm) hown ht

/-- The frame that opens a session passed while none is held. -/
theorem Standing.letIn {k : Kind} (h : Standing none cur ms os) (hm : opens m = some k) :
    Standing (some k) cur (ms ++ [m]) os := by
  cases h with
  | idle hq => exact .asked hq hm nofun

/-- A frame of the session passed to its client; the last one ends it. -/
theorem Standing.relay {k : Kind} (h : Standing (some k) cur ms (m :: os)) :
    Standing (if k.ends m then none else some k) cur ms os := by
  generalize hall : m :: os = all at h
  cases h with
  | asked _ _ _ => cases hall
  | running hq hown =>
      subst hall
      rw [Kind.not_ends_of_own (hown m List.mem_cons_self)]
      exact .running hq fun o ho => hown o (List.mem_cons_of_mem _ ho)
  | @finished _ _ os' t hq hown ht =>
      cases os' with
      | nil =>
          cases hall
          rw [ht]
          exact .idle hq
      | cons o os' =>
          cases hall
          rw [Kind.not_ends_of_own (hown m List.mem_cons_self)]
          exact .finished hq (fun o ho => hown o (List.mem_cons_of_mem _ ho)) ht

end

/-! ## the system -/

/-- The frames of the card on their way to the daemon. -/
def System.pend (s : System) : List Msg := outs (s.card.agent.history.drop s.seen)

/-- What is on the way to the card are whole frames, the agent keeps its loops,
and the two stand together. -/
structure Base (s : System) (ms : List Msg) : Prop where
  fits : ∀ m ∈ ms, m.body.length ≤ Rpc.maxFrame
  kept : s.card.agent.Kept
  seen : s.seen ≤ s.card.agent.history.length
  arriving : s.card.agent.phase ≠ .dead →
    s.card.agent.rx.head ≤ s.card.agent.rx.tail ∧ Carries s.card.agent.rx s.toCard ms
  standing : ∃ cur, Tracks s.card.agent.history cur ∧
    Standing (s.holder.map Prod.snd) cur (ms.map Msg.normal) s.pend

theorem opens_normal (m : Msg) : opens m.normal = opens m := by
  cases m <;> rfl

section

variable {s : System} {ms : List Msg} {m : Msg}

theorem base_start (client : Client) (cells : Nat → UInt8) (files : String → List UInt8) :
    Base (.start client (.start cells files)) [] where
  fits := nofun
  kept := .nil
  seen := Nat.zero_le _
  arriving := fun _ => ⟨Nat.le_refl _, rfl⟩
  standing := ⟨none, ⟨rfl, trivial⟩, .idle nofun⟩

theorem carries_append {w : Window UInt8} {coming : List UInt8} (h : Carries w coming ms)
    (m : Msg) : Carries w (coming ++ m.encode) (ms ++ [m]) := by
  unfold Carries at h ⊢
  rw [← List.append_assoc, h, List.flatMap_append, List.flatMap_singleton]

theorem fits_append (h : ∀ x ∈ ms, x.body.length ≤ Rpc.maxFrame)
    (hm : m.body.length ≤ Rpc.maxFrame) :
    ∀ x ∈ ms ++ [m], x.body.length ≤ Rpc.maxFrame := by
  intro x hx
  simp only [List.mem_append, List.mem_singleton] at hx
  obtain hx | rfl := hx
  · exact h x hx
  · exact hm

/-- A frame that opens nothing may be passed at any time. -/
theorem Base.toAgent (h : Base s ms) (hfit : m.body.length ≤ Rpc.maxFrame) (hm : opens m = none) :
    Base (s.toAgent m) (ms ++ [m]) where
  fits := fits_append h.fits hfit
  kept := h.kept
  seen := h.seen
  arriving := fun halive => ⟨(h.arriving halive).1, carries_append (h.arriving halive).2 m⟩
  standing := by
    obtain ⟨cur, htracks, hstanding⟩ := h.standing
    refine ⟨cur, htracks, ?_⟩
    rw [List.map_append]
    exact hstanding.pass (by rw [opens_normal, hm])

/-- One that opens a session is passed when none is held. -/
theorem Base.letIn {k : Kind} {b : Bool} (h : Base s ms) (hfree : s.holder = none)
    (hfit : m.body.length ≤ Rpc.maxFrame) (hm : opens m = some k) :
    Base (({ s with holder := some (b, k) } : System).toAgent m) (ms ++ [m]) where
  fits := fits_append h.fits hfit
  kept := h.kept
  seen := h.seen
  arriving := fun halive => ⟨(h.arriving halive).1, carries_append (h.arriving halive).2 m⟩
  standing := by
    obtain ⟨cur, htracks, hstanding⟩ := h.standing
    refine ⟨cur, htracks, ?_⟩
    rw [hfree] at hstanding
    rw [List.map_append]
    exact hstanding.letIn (by rw [opens_normal, hm])

/-- Outside a session the agent is idle, and nothing on the way opens one. -/
theorem Base.free (h : Base s ms) (hfree : s.holder = none) :
    Quiet ms ∧ s.pend = [] ∧ (s.card.agent.phase ≠ .dead → s.card.agent.phase = .idle) := by
  obtain ⟨cur, htracks, hstanding⟩ := h.standing
  rw [hfree] at hstanding
  generalize hpend : s.pend = os at hstanding
  generalize hms : ms.map Msg.normal = xs at hstanding
  cases hstanding with
  | idle hq =>
      refine ⟨fun m hm => ?_, rfl, fun halive => ?_⟩
      · rw [← opens_normal]
        exact hq _ (hms ▸ List.mem_map_of_mem hm)
      · obtain ⟨cur, ⟨hrun, -⟩, hkind⟩ := h.kept.tracks
        rw [htracks.1] at hrun
        have hnone := hkind halive
        rw [← hrun] at hnone
        cases hphase : s.card.agent.phase with
        | idle => rfl
        | dead => exact absurd hphase halive
        | exec _ | put _ | get _ _ =>
            rw [hphase] at hnone
            cases hnone

theorem System.bytes_calls (s : System) (n : Nat) (c : Card.Calls) :
    (s.calls n c).device.bytes ++ s.toCard.drop (s.calls n c).device.bytes.length = s.toCard := by
  unfold System.calls
  dsimp only
  cases c.device with
  | data bytes =>
      show s.toCard.take (min n readChunk) ++
        s.toCard.drop (s.toCard.take (min n readChunk)).length = s.toCard
      rw [List.length_take, ← List.drop_eq_drop_min, List.take_append_drop]
  | eof => rfl
  | failed errno => rfl

/-- A turn on the card takes the next of the frames on their way. -/
theorem Base.cardTurn (h : Base s ms) (env : Env) (n kept : Nat) (c : Card.Calls) :
    ∃ hs first left, ms = first ++ left ∧ taken hs = first.map Msg.normal ∧
      (s.cardTurn env n kept c).card.agent.history = s.card.agent.history ++ hs ∧
      (s.cardTurn env n kept c).pend = s.pend ++ outs hs ∧
      Base (s.cardTurn env n kept c) left := by
  have hstart : s.card.agent.Feeds s.card.agent.history ms ((s.calls n c).device.bytes ++
      s.toCard.drop (s.calls n c).device.bytes.length) := by
    rw [s.bytes_calls]
    exact ⟨[], [], ms, rfl, (List.append_nil _).symm, rfl, h.arriving⟩
  have hturn : (s.card.agent.turn env (s.calls n c)).Feeds s.card.agent.history ms
      (s.card.agent.rest (s.calls n c) _) := hstart.turn h.fits
  obtain ⟨hs, first, left, hms, hhist, htaken, hlive⟩ := hturn
  have hkept : (s.card.agent.turn env (s.calls n c)).Kept := h.kept.turn
  have hpend : (s.cardTurn env n kept c).pend = s.pend ++ outs hs := by
    unfold System.pend
    show outs ((s.card.agent.turn env (s.calls n c)).history.drop s.seen) = _
    rw [hhist, List.drop_append_of_le_length h.seen, outs_append]
  refine ⟨hs, first, left, hms, htaken, hhist, hpend, ?_⟩
  obtain ⟨cur, htracks, hstanding⟩ := h.standing
  obtain ⟨cur', htracks', -⟩ := hkept.tracks
  have hsplit := htracks'.2
  rw [hhist, along_append, htracks.1] at hsplit
  rw [hms, List.map_append, ← htaken] at hstanding
  have hrun := hstanding.happens hsplit.2
  exact {
    fits := fun m hm => h.fits m (hms ▸ List.mem_append_right _ hm)
    kept := hkept
    seen := by
      show s.seen ≤ (s.card.agent.turn env (s.calls n c)).history.length
      rw [hhist, List.length_append]
      exact Nat.le_trans h.seen (Nat.le_add_right _ _)
    arriving := fun halive => by
      have hcarries := hlive halive
      unfold Agent.rest at hcarries
      rwa [s.bytes_calls] at hcarries
    standing := ⟨cur', htracks', by
      rw [hpend, ← htracks'.1]
      show Standing _ (run sessionAfter none (s.card.agent.turn env (s.calls n c)).history) _ _
      rw [hhist, run_append, htracks.1]
      exact hrun⟩ }

theorem System.relay_cases (s : System) :
    s.relay = s ∨
    s.seen < s.card.agent.history.length ∧ s.relay = s.look ∧
      (s.look.pend = s.pend ∨ s.holder = none) ∨
    s.seen < s.card.agent.history.length ∧ ∃ m mine k, s.pend = m :: s.look.pend ∧
      s.holder = some (mine, k) ∧ s.relay = s.give mine k m := by
  unfold System.relay
  cases hx : s.card.agent.history[s.seen]? with
  | none => exact .inl rfl
  | some x =>
      obtain ⟨hlt, hget⟩ := List.getElem?_eq_some_iff.mp hx
      have hdrop : s.pend = outs (x :: s.card.agent.history.drop (s.seen + 1)) := by
        unfold System.pend
        rw [List.drop_eq_getElem_cons hlt, hget]
      cases x with
      | took m => exact .inr (.inl ⟨hlt, rfl, .inl hdrop.symm⟩)
      | sent m =>
          dsimp only
          cases hholder : s.holder with
          | none => exact .inr (.inl ⟨hlt, rfl, .inr rfl⟩)
          | some x =>
              obtain ⟨mine, k⟩ := x
              dsimp only
              by_cases hreply : answers (.sent m) = true
              · rw [if_pos hreply]
                cases m with
                | statReply st => exact .inr (.inl ⟨hlt, rfl, .inl hdrop.symm⟩)
                | _ => cases hreply
              · rw [if_neg hreply]
                refine .inr (.inr ⟨hlt, m, mine, k, ?_, rfl, rfl⟩)
                cases m with
                | statReply st => exact absurd rfl hreply
                | _ => exact hdrop

theorem Base.relay (h : Base s ms) : Base s.relay ms := by
  obtain hstay | ⟨hlt, hlook, hpend⟩ | ⟨hlt, m, mine, k, hpend, hholder, hgive⟩ := s.relay_cases
  · rwa [hstay]
  · rw [hlook]
    refine ⟨h.fits, h.kept, hlt, h.arriving, ?_⟩
    obtain ⟨cur, htracks, hstanding⟩ := h.standing
    refine ⟨cur, htracks, ?_⟩
    have hsame : s.look.pend = s.pend := by
      obtain hsame | hfree := hpend
      · exact hsame
      · have hnil := (h.free hfree).2.1
        rw [hnil]
        unfold System.pend at hnil
        rw [List.drop_eq_getElem_cons hlt] at hnil
        unfold System.pend System.look
        generalize s.card.agent.history[s.seen] = x at hnil
        cases x with
        | took m => exact hnil
        | sent m => cases m <;> first | exact hnil | cases hnil
    rw [hsame]
    exact hstanding
  · rw [hgive]
    refine ⟨h.fits, h.kept, hlt, h.arriving, ?_⟩
    obtain ⟨cur, htracks, hstanding⟩ := h.standing
    refine ⟨cur, htracks, ?_⟩
    rw [hpend, hholder] at hstanding
    have hnext := Standing.relay hstanding
    unfold System.give
    cases hends : k.ends m with
    | true =>
        rw [hends] at hnext
        exact hnext
    | false =>
        rw [hends] at hnext
        exact hnext

end

end Phi.Xfer
