import Phi.Xfer.Turns

/-!
# Phi.Xfer.Passing

What the daemon passes.

A frame of the client joins those on their way to the card, whichever stage the
session is in; a `Stat` of another client does not disturb them; and the frames
that come back are owed to the client in the order they were sent.
-/

namespace Phi.Xfer

open Rpc Card Serve

section passing

variable {v : Verb} {bytes : List UInt8} {s : System} {ms sent owed : List Msg} {m : Msg}

theorem ins_append (ms ns : List Msg) : ins (ms ++ ns) = ins ms ++ ins ns := List.filter_append ..

theorem ins_of_ne (h : m ≠ .stat) : ins [m] = [m] := by simp [ins, h]

/-- A session that is not the client's, before or after its own. -/
theorem Mine.apart {t : System} {ns : List Msg} (h : Mine v bytes s ms sent owed)
    (hhold : ∀ k, s.holder ≠ some (true, k)) (hhold' : ∀ k, t.holder ≠ some (true, k))
    (hclient : t.client = s.client) (hup : t.up = s.up) (hadm : t.admitted = s.admitted)
    (hended : t.ended = s.ended) : Mine v bytes t ns sent owed := by
  cases h with
  | before ha hnone _ hsent hflow =>
      exact .before (hadm.trans ha) (hended.trans hnone) hhold' (hsent.trans hup.symm)
        (by rw [hclient]; exact hflow)
  | asked _ _ hh => exact absurd hh (hhold _)
  | running _ _ hh => exact absurd hh (hhold _)
  | finished _ _ hh => exact absurd hh (hhold _)
  | after ha he _ hends hresult hflow =>
      exact .after (hadm.trans ha) (hended.trans he) hhold' hends hresult
        (by rw [hclient]; exact hflow)

/-- A frame of another client passed while the session is the client's: only
`Stat` is. -/
theorem Mine.ask (h : Mine v bytes s ms sent owed) :
    Mine v bytes (s.toAgent .stat) (ms ++ [.stat]) sent owed := by
  have hins : ∀ xs : List Msg, ins (xs ++ [.stat]) = ins xs := fun xs => by simp [ins]
  cases h with
  | before ha hnone hhold hsent hflow => exact .before ha hnone hhold hsent hflow
  | @asked pre post m ha hnone hhold hms hpre hpost hsent hpend hidle hflow =>
      refine .asked (p := pre) (q := post ++ [.stat]) (m := m) ha hnone hhold ?_ hpre
        (hpost.snoc rfl) ?_ hpend hidle hflow
      · rw [hms, List.append_assoc, List.cons_append]
      · rw [hins]
        exact hsent
  | @running l m ha hnone hhold hquiet hsent hown hserving hflow =>
      refine .running (l := l) (m := m) ha hnone hhold (hquiet.snoc rfl) ?_ hown hserving hflow
      rw [hins]
      exact hsent
  | finished ha hnone hhold hquiet hsent hpend hown hends hresult hidle hflow =>
      exact .finished ha hnone hhold (hquiet.snoc rfl) hsent hpend hown hends hresult hidle hflow
  | after ha hended hhold hends hresult hflow => exact .after ha hended hhold hends hresult hflow

/-- The client's own next frame. -/
theorem Mine.pass {up : List Msg} (h : Mine v bytes s ms sent owed)
    (hframes : Sent bytes v sent) (hup : s.up = m :: up) (hadm : s.admitted = true)
    {k : Kind} (hhold : s.holder = some (true, k)) :
    Card.opens m = none ∧
      Mine v bytes (({ s with up := up } : System).toAgent m) (ms ++ [m]) sent owed := by
  have htail : ∀ {m0 : Msg} {l : List Msg}, sent = m0 :: (l ++ m :: up) →
      Card.opens m = none ∧ m ≠ .stat := by
    rintro m0 l rfl
    exact hframes.tail m (List.mem_append_right _ List.mem_cons_self)
  cases h with
  | before ha => rw [ha] at hadm; cases hadm
  | @asked pre post m0 ha hnone hh hms hpre hpost hsent hpend hidle hflow =>
      obtain ⟨hm, hne⟩ := htail (by rw [hsent, hup])
      refine ⟨hm, .asked (p := pre) (q := post ++ [m]) (m := m0) ha hnone hh ?_ hpre
        (hpost.snoc hm) ?_ hpend hidle hflow⟩
      · rw [hms, List.append_assoc, List.cons_append]
      · rw [hsent, hup, ins_append, ins_of_ne hne, List.append_assoc]
        rfl
  | @running l m0 ha hnone hh hquiet hsent hown hserving hflow =>
      obtain ⟨hm, hne⟩ := htail (l := l ++ ins ms) (by rw [hsent, hup, List.append_assoc])
      refine ⟨hm, .running (l := l) (m := m0) ha hnone hh (hquiet.snoc hm) ?_ hown hserving hflow⟩
      rw [hsent, hup, ins_append, ins_of_ne hne, List.append_assoc]
      rfl
  | @finished l os m0 t ha hnone hh hquiet hsent hpend hown hends hresult hidle hflow =>
      obtain ⟨hm, -⟩ := htail (by rw [hsent, hup])
      refine ⟨hm, .finished (l := l ++ [m]) (m := m0) ha hnone hh (hquiet.snoc hm) ?_ hpend hown
        hends hresult hidle hflow⟩
      rw [hsent, hup, List.append_assoc]
      rfl
  | after _ _ hh => exact absurd hhold (hh k)

theorem Exact.ask (h : Exact v bytes s ms sent owed) (env : Env) :
    Exact v bytes (s.step env .ask) (ms ++ [.stat]) sent owed where
  base := h.base.toAgent (by decide) rfl
  verb := h.verb
  frames := h.frames
  fits := h.fits
  stands := h.stands
  mine := h.mine.ask
  owes := h.owes
  exited := h.exited

theorem System.pass_cases (s : System) : s.pass = s ∨ ∃ m up, s.up = m :: up ∧
    ((∃ k, s.holder = some (true, k) ∧ s.pass = ({ s with up := up } : System).toAgent m) ∨
    (s.holder = none ∧ s.admitted = false ∧ ∃ k, Card.opens m = some k ∧ s.pass =
      ({ s with up := up, holder := some (true, k), admitted := true } : System).toAgent m) ∨
    (s.admitted = true ∧ (∀ k, s.holder ≠ some (true, k)) ∧ s.pass = { s with up := up })) := by
  obtain ⟨client, up, holder, admitted, toCard, card, seen, down, ended⟩ := s
  unfold System.pass
  cases up with
  | nil => exact .inl rfl
  | cons m up =>
      obtain _ | ⟨mine, k⟩ := holder
      · cases admitted with
        | false =>
            cases hm : Card.opens m with
            | none =>
                dsimp only
                rw [hm]
                exact .inl rfl
            | some k =>
                dsimp only
                rw [hm]
                exact .inr ⟨m, up, rfl, .inr (.inl ⟨rfl, rfl, k, hm, rfl⟩)⟩
        | true => exact .inr ⟨m, up, rfl, .inr (.inr ⟨rfl, nofun, rfl⟩)⟩
      · cases mine with
        | true => exact .inr ⟨m, up, rfl, .inl ⟨k, rfl, rfl⟩⟩
        | false => cases admitted with
            | false => exact .inl rfl
            | true => exact .inr ⟨m, up, rfl, .inr (.inr ⟨rfl, nofun, rfl⟩)⟩

/-- The session is let in. -/
theorem Mine.letIn {up : List Msg} (h : Mine v bytes s ms sent owed) (hbase : Base s ms)
    (hframes : Sent bytes v sent) (hup : s.up = m :: up) (hfree : s.holder = none)
    (hadm : s.admitted = false) {k : Kind} (hm : Card.opens m = some k) :
    Mine v bytes
      (({ s with up := up, holder := some (true, k), admitted := true } : System).toAgent m)
      (ms ++ [m]) sent owed := by
  cases h with
  | before _ hnone _ hsent hflow =>
      rw [hup] at hsent
      rw [hsent] at hframes
      have hk := hframes.opens
      rw [hm] at hk
      cases hk
      obtain ⟨hquiet, hpend, hidle⟩ := hbase.free hfree
      exact .asked (p := ms) (q := []) rfl hnone rfl rfl hquiet nofun hsent hpend hidle hflow
  | asked ha | running ha | finished ha | after ha => rw [ha] at hadm; cases hadm

theorem Exact.pass (h : Exact v bytes s ms sent owed) (env : Env) :
    ∃ ms', Exact v bytes (s.step env .pass) ms' sent owed := by
  show ∃ ms', Exact v bytes s.pass ms' sent owed
  obtain hstay | ⟨m, up, hup, hcase⟩ := s.pass_cases
  · rw [hstay]
    exact ⟨ms, h⟩
  · have hfit : m.body.length ≤ Rpc.maxFrame := h.fits m (hup ▸ List.mem_cons_self)
    have hfits : ∀ x ∈ up, x.body.length ≤ Rpc.maxFrame := fun x hx =>
      h.fits x (hup ▸ List.mem_cons_of_mem _ hx)
    have hbase : Base { s with up := up } ms :=
      ⟨h.base.fits, h.base.kept, h.base.seen, h.base.arriving, h.base.standing⟩
    obtain ⟨k, hhold, hpass⟩ | ⟨hfree, hadm, k, hm, hpass⟩ | ⟨hadm, hhold, hpass⟩ := hcase
    · have hadm : s.admitted = true := by
        cases h.mine with
        | before _ _ hh => exact absurd hhold (hh k)
        | asked ha | running ha | finished ha | after ha => exact ha
      obtain ⟨hopens, hmine⟩ := h.mine.pass h.frames hup hadm hhold
      rw [hpass]
      exact ⟨ms ++ [m], hbase.toAgent hfit hopens, h.verb, h.frames, hfits, h.stands, hmine,
        h.owes, h.exited⟩
    · have hmine := h.mine.letIn h.base h.frames hup hfree hadm hm
      have hlet := hbase.letIn (b := true) hfree hfit hm
      rw [hpass]
      exact ⟨ms ++ [m], ⟨hlet.fits, hlet.kept, hlet.seen, hlet.arriving, hlet.standing⟩, h.verb,
        h.frames, hfits, h.stands, hmine, h.owes, h.exited⟩
    · rw [hpass]
      refine ⟨ms, hbase, h.verb, h.frames, hfits, h.stands, ?_, h.owes, h.exited⟩
      cases h.mine with
      | before ha => rw [ha] at hadm; cases hadm
      | asked _ _ hh | running _ _ hh | finished _ _ hh => exact absurd hh (hhold _)
      | after ha hended _ hends hresult hflow => exact .after ha hended hhold hends hresult hflow

/-- A frame of another client. -/
theorem Exact.other (h : Exact v bytes s ms sent owed) (env : Env) (m : Msg) :
    ∃ ms', Exact v bytes (s.step env (.other m)) ms' sent owed := by
  show ∃ ms', Exact v bytes (s.other m) ms' sent owed
  unfold System.other
  by_cases hbad : Rpc.maxFrame < m.body.length ∨ m = .stat
  · rw [if_pos hbad]
    exact ⟨ms, h⟩
  · rw [if_neg hbad]
    rw [not_or, Nat.not_lt] at hbad
    cases hhold : s.holder with
    | none =>
        cases hm : Card.opens m with
        | none => exact ⟨ms, h⟩
        | some k =>
            have hmine : Mine v bytes
                (({ s with holder := some (false, k) } : System).toAgent m) (ms ++ [m]) sent owed :=
              h.mine.apart (by rw [hhold]; exact nofun) nofun rfl rfl rfl rfl
            exact ⟨ms ++ [m], h.base.letIn hhold hbad.1 hm, h.verb, h.frames, h.fits, h.stands,
              hmine, h.owes, h.exited⟩
    | some x =>
        obtain ⟨mine, k⟩ := x
        cases mine with
        | true =>
            cases Card.opens m with
            | none => exact ⟨ms, h⟩
            | some k' => exact ⟨ms, h⟩
        | false =>
            cases hm : Card.opens m with
            | none =>
                have hmine : Mine v bytes (s.toAgent m) (ms ++ [m]) sent owed :=
                  h.mine.apart (by rw [hhold]; exact nofun)
                    (fun k' => show s.holder ≠ _ by rw [hhold]; exact nofun) rfl rfl rfl rfl
                exact ⟨ms ++ [m], h.base.toAgent hbad.1 hm, h.verb, h.frames, h.fits, h.stands,
                  hmine, h.owes, h.exited⟩
            | some k' => exact ⟨ms, h⟩

/-! ## frames coming back -/

theorem Owes.append {x : Client} {down : List UInt8} (h : Owes x down owed)
    (hfit : m.body.length ≤ Rpc.maxFrame) : Owes x (down ++ m.encode) (owed ++ [m]) :=
  ⟨h.ordered, fits_append h.fits hfit, carries_append h.carries m⟩

/-- Nothing for the client was seen. -/
theorem Mine.look (h : Mine v bytes s ms sent owed) (hpend : s.look.pend = s.pend) :
    Mine v bytes s.look ms sent owed := by
  cases h with
  | before ha hnone hhold hsent hflow => exact .before ha hnone hhold hsent hflow
  | asked ha hnone hhold hms hpre hpost hsent hnil hidle hflow =>
      exact .asked ha hnone hhold hms hpre hpost hsent (hpend.trans hnil) hidle hflow
  | running ha hnone hhold hquiet hsent hown hserving hflow =>
      exact .running ha hnone hhold hquiet hsent (by rw [hpend]; exact hown) hserving
        (by rw [hpend]; exact hflow)
  | finished ha hnone hhold hquiet hsent hos hown hends hresult hidle hflow =>
      exact .finished ha hnone hhold hquiet hsent (hpend.trans hos) hown hends hresult hidle hflow
  | after ha hended hhold hends hresult hflow => exact .after ha hended hhold hends hresult hflow

/-- A frame before the last moves from those on their way to those owed. -/
theorem Balanced.move {x : Client} {os : List Msg} {c : CardSide}
    (h : Balanced v x owed (m :: os) c) : Balanced v x (owed ++ [m]) os c := by
  intro hk
  have hcons : dataOf (m :: os) = dataOf [m] ++ dataOf os := dataOf_append [m] os
  rw [h hk, hcons, dataOf_append]
  simp only [List.append_assoc]

/-- A frame of the client's session is passed to it. -/
theorem Mine.give {k : Kind} (h : Mine v bytes s ms sent owed) (hpend : s.pend = m :: s.look.pend)
    (hhold : s.holder = some (true, k)) : m.body.length ≤ Rpc.maxFrame ∧
      Mine v bytes (s.give true k m) ms sent (owed ++ [m]) := by
  have hpend' : (s.give true k m).pend = s.look.pend := rfl
  cases h with
  | before _ _ hh => exact absurd hhold (hh k)
  | asked _ _ _ _ _ _ _ hnil => rw [hnil] at hpend; cases hpend
  | @running l m0 ha hnone hh hquiet hsent hown hserving hflow =>
      rw [hhold] at hh
      cases hh
      rw [hpend] at hown hflow
      obtain ⟨hm, hfit⟩ := hown m List.mem_cons_self
      have hends := Kind.not_ends_of_own hm
      refine ⟨hfit, .running (l := l) (m := m0) ha ?_ ?_ hquiet hsent ?_ hserving fun hlive => ?_⟩
      · show (if (true && v.kind.ends m) = true then _ else s.ended) = none
        rw [hends]
        exact hnone
      · show (if v.kind.ends m = true then none else some (true, v.kind)) = some (true, v.kind)
        rw [hends]
        rfl
      · rw [hpend']
        exact hown.tail
      · rw [hpend']
        exact ⟨(hflow hlive).1.append hm hfit, fun halive => ((hflow hlive).2 halive).move⟩
  | @finished l os m0 t ha hnone hh hquiet hsent hos hown hends hresult hidle hflow =>
      rw [hhold] at hh
      cases hh
      rw [hos] at hpend
      cases os with
      | nil =>
          obtain ⟨rfl, hnil⟩ := List.cons.inj hpend
          have hfit : t.body.length ≤ Rpc.maxFrame := by
            obtain ⟨⟨text, rfl⟩, -⟩ | ⟨-, hresult⟩ := hresult
            · rw [Msg.length_body]
              exact Msg.size_lt (by simp [Msg.tag]) (by simp [Msg.tag])
            · cases v with
              | put src dst o =>
                  rw [hresult.1, Msg.length_body]
                  exact Msg.size_lt (by simp [Msg.tag]) (by simp [Msg.tag])
              | get src dst =>
                  rw [show t = _ from hresult, Msg.length_body]
                  exact Msg.size_lt (by simp [Msg.tag]) (by simp [Msg.tag])
          refine ⟨hfit, .after (c := s.card) ha ?_ ?_ hends hresult fun hlive =>
            ⟨owed, rfl, (hflow hlive).1, (hflow hlive).2⟩⟩
          · show (if (true && v.kind.ends t) = true then some (t, s.card) else s.ended) = _
            rw [hends]
            rfl
          · intro k'
            show (if v.kind.ends t = true then none else some (true, v.kind)) ≠ some (true, k')
            rw [hends]
            exact (Option.some_ne_none _).symm
      | cons o os =>
          obtain ⟨rfl, hrest⟩ := List.cons.inj hpend
          obtain ⟨hm, hfit⟩ := hown o List.mem_cons_self
          have hnot := Kind.not_ends_of_own hm
          refine ⟨hfit, .finished (l := l) (m := m0) ha ?_ ?_ hquiet hsent (hpend'.trans hrest.symm)
            hown.tail hends hresult hidle fun hlive =>
              ⟨(hflow hlive).1.append hm hfit, (hflow hlive).2.move⟩⟩
          · show (if (true && v.kind.ends o) = true then _ else s.ended) = none
            rw [hnot]
            exact hnone
          · show (if v.kind.ends o = true then none else some (true, v.kind)) = some (true, v.kind)
            rw [hnot]
            rfl
  | after _ _ hh => exact absurd hhold (hh k)

theorem Exact.relay (h : Exact v bytes s ms sent owed) (env : Env) :
    ∃ owed', Exact v bytes (s.step env .relay) ms sent owed' := by
  show ∃ owed', Exact v bytes s.relay ms sent owed'
  have hbase := h.base.relay
  obtain hstay | ⟨-, hlook, hpend⟩ | ⟨-, m, mine, k, hpend, hhold, hgive⟩ := s.relay_cases
  · rw [hstay]
    exact ⟨owed, h⟩
  · rw [hlook] at hbase ⊢
    refine ⟨owed, hbase, h.verb, h.frames, h.fits, h.stands, ?_, h.owes, h.exited⟩
    obtain hsame | hfree := hpend
    · exact h.mine.look hsame
    · exact h.mine.apart (by rw [hfree]; exact nofun)
        (fun k => show s.holder ≠ _ by rw [hfree]; exact nofun) rfl rfl rfl rfl
  · rw [hgive] at hbase ⊢
    cases mine with
    | false =>
        refine ⟨owed, hbase, h.verb, h.frames, h.fits, h.stands, ?_, h.owes, h.exited⟩
        refine h.mine.apart (by rw [hhold]; exact nofun) (fun k' => ?_) rfl rfl rfl rfl
        show (if k.ends m = true then none else some (false, k)) ≠ some (true, k')
        split
        · exact nofun
        · exact nofun
    | true =>
        obtain ⟨hfit, hmine⟩ := h.mine.give hpend hhold
        refine ⟨owed ++ [m], hbase, h.verb, h.frames, h.fits, h.stands, hmine,
          fun hlive => (h.owes hlive).append hfit, fun r hr => ?_⟩
        have hexited := h.exited r hr
        unfold Exited at hexited ⊢
        have hkept : ∀ t c, s.ended = some (t, c) → (s.give true k m).ended = some (t, c) := by
          intro t c hended
          exfalso
          cases h.mine with
          | before _ hnone _ _ _ | asked _ hnone _ | running _ hnone _ | finished _ hnone _ =>
              rw [hnone] at hended
              cases hended
          | after _ _ hh => exact hh k hhold
        cases r with
        | done total =>
            obtain ⟨t, c, hended, hrest⟩ := hexited
            exact ⟨t, c, hkept t c hended, hrest⟩
        | error text =>
            obtain ⟨t, c, hended, hrest⟩ := hexited
            exact ⟨t, c, hkept t c hended, hrest⟩
        | failed _ _ => trivial
        | status _ | unexpected _ => exact hexited

end passing

end Phi.Xfer
