import Phi.Xfer.Serving

/-!
# Phi.Xfer.Exact

A transfer ends with the files the same at both ends, or with the Error.

The stages of the session are kept by every turn of the client, of the daemon
and of the card, so they hold along every run.
-/

namespace Phi.Xfer

open Rpc Card Serve

/-- Before anything happened. -/
theorem exact_start (v : Verb) (socketPath : String) (bytes : List UInt8)
    (cells cells' : Nat → UInt8) (files : String → List UInt8) :
    Exact v bytes (.start (.start v socketPath bytes cells) (.start cells' files)) [] [] [] where
  base := base_start _ cells' files
  verb := rfl
  frames := .nothing
  fits := nofun
  stands := ⟨rfl, rfl⟩
  mine := .before rfl rfl nofun rfl fun _ => ⟨rfl, rfl⟩
  owes := fun _ => ⟨Nat.le_refl _, nofun, rfl⟩
  exited := nofun

/-- **One event.** -/
theorem Exact.step {v : Verb} {bytes : List UInt8} {s : System} {ms sent owed : List Msg}
    (h : Exact v bytes s ms sent owed) (env : Env) (e : Event) :
    ∃ ms' sent' owed', Exact v bytes (s.step env e) ms' sent' owed' := by
  cases e with
  | client c =>
      obtain ⟨sent', owed', h'⟩ := h.client (c := c) env
      exact ⟨ms, sent', owed', h'⟩
  | pass =>
      obtain ⟨ms', h'⟩ := h.pass env
      exact ⟨ms', sent, owed, h'⟩
  | ask => exact ⟨ms ++ [.stat], sent, owed, h.ask env⟩
  | other m =>
      obtain ⟨ms', h'⟩ := h.other env m
      exact ⟨ms', sent, owed, h'⟩
  | card n kept c =>
      obtain ⟨ms', h'⟩ := h.card env n kept c
      exact ⟨ms', sent, owed, h'⟩
  | relay =>
      obtain ⟨owed', h'⟩ := h.relay env
      exact ⟨ms, sent, owed', h'⟩

/-- **A run.** -/
theorem Exact.run {v : Verb} {bytes : List UInt8} {s : System} {ms sent owed : List Msg}
    (h : Exact v bytes s ms sent owed) (env : Env) (es : List Event) :
    ∃ ms' sent' owed', Exact v bytes (run (System.step env) s es) ms' sent' owed' := by
  induction es generalizing s ms sent owed with
  | nil => exact ⟨ms, sent, owed, h⟩
  | cons e es ih =>
      obtain ⟨ms', sent', owed', h'⟩ := h.step env e
      exact ih h'

/-- The last frame of the session is an Error when a system call failed on the
card, and only then. -/
theorem Result.error_iff {v : Verb} {bytes : List UInt8} {t : Msg} {c : CardSide}
    (h : Result v bytes t c) : c.failed = true ↔ ∃ text, t = .error text := by
  obtain ⟨herror, hfailed⟩ | ⟨hfailed, hright⟩ := h
  · exact ⟨fun _ => herror, fun _ => hfailed⟩
  · refine ⟨fun h => absurd (hfailed.symm.trans h) nofun, ?_⟩
    rintro ⟨text, rfl⟩
    cases v with
    | put src dst o => cases hright.1
    | get src dst => cases hright

/-- **File transfers are exact.**  In every run, whatever the system calls
return, the other clients send and the pieces are in which the frames come: a
put that exits with 0 has left the local file's bytes in the file on the card;
a get that exits with 0 has left in the local file what the agent read, and
reports how much that is; and when an open, a write, a sync or a read failed on
the card the session's last frame is an Error, which is on its way to the client
as long as that runs, and an exit with 0 is none of one that failed. -/
theorem transfers_exact (env : Env) (v : Verb) (socketPath : String) (bytes : List UInt8)
    (cells cells' : Nat → UInt8) (files : String → List UInt8) (es : List Event) :
    let s := run (System.step env)
      (.start (.start v socketPath bytes cells) (.start cells' files)) es
    (∀ r, s.client.stage = .exited r → r.code = 0 →
      ∃ t c, s.ended = some (t, c) ∧ c.failed = false ∧ match v with
        | .put .. => c.files v.path = bytes ∧ r = .done (UInt64.ofNat bytes.length)
        | .get .. => s.client.dst = some c.fetched ∧
            r = .done (UInt64.ofNat c.fetched.length)) ∧
    (∀ text, s.client.stage = .exited (.error text) →
      ∃ t c, s.ended = some (t, c) ∧ c.failed = true ∧ t.normal = .error text) ∧
    (∀ r, s.client.stage = .exited r → (∀ code, r ≠ .status code) ∧ ∀ t, r ≠ .unexpected t) ∧
    ∀ t c, s.ended = some (t, c) → (c.failed = true ↔ ∃ text, t = .error text) ∧
      (s.client.Live → ∃ os, (∀ o ∈ os, v.kind.own o = true) ∧
        Carries s.client.dec.win s.down (os ++ [t])) := by
  intro s
  obtain ⟨ms, sent, owed, h⟩ :=
    (exact_start v socketPath bytes cells cells' files).run env es
  refine ⟨fun r hr hcode => ?_, fun text hr => ?_, fun r hr => ?_, fun t c hended => ?_⟩
  · have hexited := h.exited r hr
    cases r with
    | done total =>
        obtain ⟨t, c, hended, hfailed, hright⟩ := hexited
        refine ⟨t, c, hended, hfailed, ?_⟩
        cases v with
        | put src dst o =>
            obtain ⟨hfile, rfl⟩ := hright
            exact ⟨hfile, rfl⟩
        | get src dst =>
            obtain ⟨hdst, rfl⟩ := hright
            exact ⟨hdst, rfl⟩
    | error _ | status _ | unexpected _ | failed _ _ => cases hcode
  · exact h.exited _ hr
  · have hexited := h.exited r hr
    cases r with
    | status _ | unexpected _ => exact hexited.elim
    | done _ | error _ | failed _ _ => exact ⟨nofun, nofun⟩
  · cases h.mine with
    | before _ hnone _ _ _ | asked _ hnone _ | running _ hnone _ | finished _ hnone _ =>
        exact absurd (hnone.symm.trans hended) nofun
    | after _ hended' _ _ hresult hflow =>
        cases hended'.symm.trans hended
        refine ⟨hresult.error_iff, fun hlive => ?_⟩
        obtain ⟨os, rfl, hown, -⟩ := hflow hlive
        exact ⟨os, fun o ho => (hown o ho).1, (h.owes hlive).carries⟩

/-- Every system call succeeds. -/
def Calls.smooth : Calls := ⟨none, 0o644, none, none, .upTo 65535, some (.upTo 65535), none⟩

/-- A put of two bytes, with a `Stat` between its frames. -/
example :
    let card := Event.card 65536 0 { Agent.quiet with device := .data [] }
    let client := Event.client .smooth
    let s := run (System.step Agent.calm)
      (.start (.start (.put "a" "b" none) "s" [1, 2] fun _ => 0) (.start (fun _ => 0) fun _ => []))
      [client, .pass, client, .ask, .pass, card, client, .pass, card, card, card, card,
        .relay, .relay, .relay, .relay, .relay, .relay, client, client]
    s.client.stage = .exited (.done 2) ∧ s.card.files "b" = [1, 2] := ⟨rfl, rfl⟩

end Phi.Xfer
