import Phi.Xfer.Running

/-!
# Phi.Xfer.Transparent

A command run from the host, over every run of the client, the daemon and the
card.
-/

namespace Phi.Xfer

open Rpc Card Serve

section through

variable {stdin : List UInt8} {written : Pipes} {h0 : List Happening} {cmd : Msg} {s t : Remote}
  {hs : List Happening} {ms sent given : List Msg} {m : Msg}

/-! ## every run -/

theorem Through.step {argv : List String} {vars : List (String × String)} {cwd : Option String}
    (h : Through stdin written h0 (.exec argv vars cwd) s hs ms sent given) (env : Env)
    (e : RemoteEvent) : ∃ hs' ms' sent' given',
      Through stdin written h0 (.exec argv vars cwd) (s.step env e) hs' ms' sent' given' := by
  cases e with
  | client c =>
      obtain ⟨sent', h'⟩ := h.client env c
      exact ⟨hs, ms, sent', given, h'⟩
  | pass =>
      obtain ⟨ms', h'⟩ := h.pass
      exact ⟨hs, ms', sent, given, h'⟩
  | ask =>
      have hask : Through stdin written h0 (.exec argv vars cwd) (s.toAgent .stat) hs
          (ms ++ [.stat]) sent given := h.toAgent (by decide) rfl rfl
      exact ⟨hs, ms ++ [Msg.stat], sent, given, hask⟩
  | card n c l ls =>
      obtain ⟨hs', ms', h'⟩ := h.card env n c l ls
      exact ⟨hs', ms', sent, given, h'⟩
  | relay =>
      obtain ⟨given', h'⟩ := h.relay
      exact ⟨hs, ms, sent, given', h'⟩

theorem Through.run {argv : List String} {vars : List (String × String)} {cwd : Option String}
    (h : Through stdin written h0 (.exec argv vars cwd) s hs ms sent given) (env : Env)
    (es : List RemoteEvent) : ∃ hs' ms' sent' given', Through stdin written h0
      (.exec argv vars cwd) (run (Remote.step env) s es) hs' ms' sent' given' := by
  induction es generalizing s hs ms sent given with
  | nil => exact ⟨hs, ms, sent, given, h⟩
  | cons e es ih =>
      obtain ⟨hs', ms', sent', given', h'⟩ := h.step env e
      exact ih h'

/-- What a client that exited says is so: the command's status once it has all of
the output, or that the command was not started. -/
def Exits (written : Pipes) (s : Remote) (e : Exit) : Prop :=
  match e with
  | .code c => ∃ status ending, s.waited = some (status, ending) ∧ c = exitCode status ∧
      (ending = .closed → ∀ o, s.client.short o = false → s.client.shown o = written o)
  | .error _ => s.waited = none ∧ ∀ o, s.client.short o = false → s.client.shown o = []
  | .unexpected _ => False
  | .failed .. => True

/-- The frame that a client exits for is the last one, and it acted on all of them. -/
theorem Through.all_acted {acted owed : List Msg} {t : Msg}
    (h : Through stdin written h0 cmd s hs ms sent given)
    (hshows : Shows given s.client s.down acted owed) (ht : t ∈ acted)
    (hends : Kind.exec.ends t = true) : outs hs = acted ∧ ∃ q, acted = q ++ [t] := by
  obtain ⟨cur, -, hstanding⟩ := h.standing
  obtain ⟨p, q, hsplit⟩ := List.append_of_mem ht
  have hall : outs hs = p ++ t :: (q ++ (owed ++ outs (s.agent.history.drop s.seen))) := by
    rw [h.split, hshows.split, hsplit]
    simp
  rw [hall] at hstanding
  have hnil := hstanding.last hends
  obtain ⟨hq, hrest⟩ := List.append_eq_nil_iff.mp hnil
  rw [hq] at hsplit
  refine ⟨?_, p, hsplit⟩
  rw [hall, hnil, hsplit]

theorem Through.exits {e : Exit} (h : Through stdin written h0 cmd s hs ms sent given)
    (he : s.client.stage = .exited e) : Exits written s e := by
  obtain ⟨acted, owed, hshows⟩ := h.shows
  have hleft := hshows.left e he
  -- the last frame is one the agent sent when the command had ended, or was refused
  have hlast : ∀ t ∈ acted, Kind.exec.ends t = true →
      ∃ q, acted = q ++ [t] ∧ Says written s.waited q t := by
    intro t ht hends
    obtain ⟨hall, q, hq⟩ := h.all_acted hshows ht hends
    refine ⟨q, hq, ?_⟩
    have hmem : t ∈ outs hs := by
      rw [hall]
      exact ht
    have hnot : Kind.exec.own t ≠ true := fun hown => by
      rw [Kind.not_ends_of_own hown] at hends
      cases hends
    cases h.stage with
    | asked ps hout =>
        rw [hout] at hmem
        cases hmem
    | running _ _ _ _ _ _ _ _ _ houtputs =>
        exact absurd (own_of_frames (Course.frames_running houtputs h.history) hmem).1 hnot
    | gone _ hframes _ => exact absurd (own_of_frames hframes hmem).1 hnot
    | finished _ _ _ hout _ htold =>
        rw [hall, hq] at hout
        obtain ⟨rfl, htt⟩ := List.append_inj' hout rfl
        cases htt
        exact htold
  unfold Left at hleft
  unfold Exits
  cases e with
  | code c =>
      obtain ⟨q, hq, ⟨text, hclash, -⟩ | ⟨status, ending, hwaited, hcode, -, hclosed⟩⟩ :=
        hlast _ hleft rfl
      · cases hclash
      · cases hcode
        refine ⟨status, ending, hwaited, rfl, fun hc o ho => ?_⟩
        rw [hshows.shown o ho, hq, shownOf_append, hclosed hc o]
        exact List.append_nil _
  | error text =>
      obtain ⟨t, ht, -⟩ := hleft
      obtain ⟨q, hq, ⟨text, -, rfl, hwaited⟩ | ⟨status, ending, -, hclash, -⟩⟩ := hlast _ ht rfl
      · refine ⟨hwaited, fun o ho => ?_⟩
        rw [hshows.shown o ho, hq]
        rfl
      · cases hclash
  | unexpected t => exact hleft
  | failed what errno => trivial

end through

/-- A poll that finds nothing ready. -/
def ExecCalls.none : ExecCalls := ⟨.none, .none, .none, .none⟩

end Phi.Xfer
