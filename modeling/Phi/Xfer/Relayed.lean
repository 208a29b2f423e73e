import Phi.Xfer.Remote

/-!
# Phi.Xfer.Relayed

What a command run from the host reads and what its client writes.

The frames of the session are followed both ways: those the client sent to the
input the agent acts on, and those the agent sent to what the client wrote.
`exec_transparent`: the command reads the client's standard input and the
client writes the command's output, each up to where it has come, and the
client exits with the command's status once it has all of it.
-/

namespace Phi.Xfer

open Rpc Card Serve

/-! ## frames -/

/-- The bytes of a stream that frames bring. -/
def shownOf (o : Output) : List Msg → List UInt8
  | [] => []
  | .stdout bytes :: ms => (if o = .out then bytes else []) ++ shownOf o ms
  | .stderr bytes :: ms => (if o = .err then bytes else []) ++ shownOf o ms
  | _ :: ms => shownOf o ms

@[simp] theorem shownOf_append (o : Output) (ms ns : List Msg) :
    shownOf o (ms ++ ns) = shownOf o ms ++ shownOf o ns := by
  induction ms with
  | nil => rfl
  | cons m ms ih => cases m <;> simp [shownOf, ih]

theorem shownOf_outs (o : Output) (hs : List Happening) : shownOf o (outs hs) = streamOf o hs := by
  induction hs with
  | nil => rfl
  | cons x hs ih =>
      cases x with
      | took m => exact ih
      | sent m => cases m <;> simp [outs, shownOf, streamOf, ih]

theorem inputOf_stdins (datas : List (List UInt8)) (ms : List Msg) :
    inputOf (datas.map .stdin ++ ms) = datas.flatten ++ inputOf ms := by
  induction datas with
  | nil => rfl
  | cons data datas ih =>
      rw [List.map_cons, List.cons_append, List.flatten_cons, List.append_assoc, ← ih]
      rfl

/-! ## what the client sent -/

def ExecClient.Live (x : ExecClient) : Prop := ∀ e, x.stage ≠ .exited e

/-- The frames after the command: its input as far as it was read, and StdinEof
once no more is. -/
inductive Sends (stdin : List UInt8) (x : ExecClient) : List Msg → Prop where
  | part {datas : List (List UInt8)} {rest : List UInt8} : datas.flatten ++ rest = stdin →
      (x.Live → x.stdinOpen = true ∧ x.source = rest) → Sends stdin x (datas.map .stdin)
  | whole {datas : List (List UInt8)} : datas.flatten ++ x.source = stdin →
      x.stdinOpen = false → Sends stdin x (datas.map .stdin ++ [.stdinEof])

section sends

variable {stdin : List UInt8} {x y : ExecClient} {sent : List Msg} {c : ExecCalls}

theorem Sends.same (h : Sends stdin x sent) (hsource : y.source = x.source)
    (hopen : y.stdinOpen = x.stdinOpen) (hlive : y.Live → x.Live) : Sends stdin y sent := by
  cases h with
  | part hflat hrest =>
      refine .part hflat fun hy => ?_
      rw [hsource, hopen]
      exact hrest (hlive hy)
  | whole hflat hshut => exact .whole (by rw [hsource, hflat]) (hopen.trans hshut)

/-- Each is a Stdin or a StdinEof. -/
theorem Sends.mem (h : Sends stdin x sent) {m : Msg} (hm : m ∈ sent) :
    m.normal = m ∧ m ≠ .stat ∧ opens m = none := by
  have hone : (∃ data, m = .stdin data) ∨ m = .stdinEof := by
    cases h with
    | part _ _ =>
        obtain ⟨data, -, rfl⟩ := List.mem_map.mp hm
        exact .inl ⟨data, rfl⟩
    | whole _ _ =>
        obtain hm | hm := List.mem_append.mp hm
        · obtain ⟨data, -, rfl⟩ := List.mem_map.mp hm
          exact .inl ⟨data, rfl⟩
        · exact .inr (List.mem_singleton.mp hm)
  obtain ⟨data, rfl⟩ | rfl := hone
  · exact ⟨rfl, nofun, rfl⟩
  · exact ⟨rfl, nofun, rfl⟩

/-- And all that was read, once StdinEof is among them. -/
theorem Sends.ended (h : Sends stdin x sent) (heof : .stdinEof ∈ sent) :
    x.stdinOpen = false ∧ inputOf sent ++ x.source = stdin := by
  cases h with
  | part _ _ =>
      obtain ⟨data, -, hdata⟩ := List.mem_map.mp heof
      cases hdata
  | @whole datas hflat hshut =>
      refine ⟨hshut, ?_⟩
      rw [inputOf_stdins]
      show datas.flatten ++ [] ++ x.source = stdin
      rw [List.append_nil, hflat]

/-- What a read of standard input does: the client's output is as it was. -/
structure Forwards (stdin : List UInt8) (sent : List Msg) (x : ExecClient)
    (r : ExecClient × List Msg) : Prop where
  sends : Sends stdin r.1 (sent ++ r.2)
  fits : ∀ m ∈ r.2, m.body.length ≤ Rpc.maxFrame
  dec : r.1.dec = x.dec
  shown : r.1.shown = x.shown
  short : r.1.short = x.short
  stage : r.1.stage = x.stage ∨
    r.1.stage = .exited (.failed "writing to the control socket" none)

theorem Forwards.nothing (h : Sends stdin x sent) : Forwards stdin sent x (x, []) :=
  ⟨by rw [List.append_nil]; exact h, nofun, rfl, rfl, rfl, .inl rfl⟩

/-- A frame is sent, or the client exits. -/
theorem Forwards.sendTx {m : Msg} {datas : List (List UInt8)} {rest : List UInt8}
    (hflat : datas.flatten ++ rest = stdin) (hsent : Sends stdin y (datas.map .stdin ++ [m]))
    (hfit : m.body.length ≤ Rpc.maxFrame) (hdec : y.dec = x.dec) (hshown : y.shown = x.shown)
    (hshort : y.short = x.short) (hstage : y.stage = x.stage) :
    Forwards stdin (datas.map .stdin) x (y.sendTx c m) := by
  unfold ExecClient.sendTx
  cases c.send with
  | none =>
      refine ⟨hsent, fun m' hm' => ?_, hdec, hshown, hshort, .inl hstage⟩
      rw [List.mem_singleton.mp hm']
      exact hfit
  | some e =>
      refine ⟨?_, nofun, hdec, hshown, hshort, .inr rfl⟩
      dsimp only
      rw [List.append_nil]
      exact .part hflat fun hexit => absurd rfl (hexit _)

theorem Sends.readStdin (h : Sends stdin x sent) (hlive : x.Live) (c : ExecCalls) :
    Forwards stdin sent x (x.readStdin c) := by
  unfold ExecClient.readStdin
  by_cases hshut : x.stdinOpen = false
  · rw [if_pos hshut]
    exact .nothing h
  · rw [if_neg hshut]
    -- nothing but Stdin was sent before
    obtain ⟨datas, rfl, hflat⟩ : ∃ datas : List (List UInt8), sent = datas.map .stdin ∧
        datas.flatten ++ x.source = stdin := by
      cases h with
      | @part datas rest hflat hrest =>
          obtain ⟨-, hsource⟩ := hrest hlive
          exact ⟨datas, rfl, by rw [hsource, hflat]⟩
      | whole _ hclosed => exact absurd hclosed hshut
    have hend : Forwards stdin (datas.map .stdin) x
        (({ x with stdinOpen := false } : ExecClient).sendTx c .stdinEof) :=
      .sendTx hflat (.whole hflat rfl) (by decide) rfl rfl rfl rfl
    cases c.stdin with
    | none => exact .nothing h
    | some r => cases r with
        | failed errno =>
            dsimp only
            split
            · exact .nothing h
            · exact hend
        | upTo n =>
            dsimp only
            generalize hdata : x.source.take (min (n + 1) stdinChunk) = data
            split
            · exact hend
            · have hsplit : data ++ x.source.drop data.length = x.source := by
                rw [← hdata, List.length_take, ← List.drop_eq_drop_min, List.take_append_drop]
              have hmore : (datas ++ [data]).flatten ++ x.source.drop data.length = stdin := by
                simp only [List.flatten_append, List.flatten_singleton, List.append_assoc]
                rw [hsplit, hflat]
              have hmap : datas.map Msg.stdin ++ [.stdin data] = (datas ++ [data]).map .stdin := by
                simp
              refine .sendTx hflat ?_ ?_ rfl rfl rfl rfl
              · rw [hmap]
                exact .part hmore fun _ => ⟨by simpa using hshut, rfl⟩
              · have hle : data.length ≤ stdinChunk := by
                  rw [← hdata, List.length_take]
                  exact Nat.le_trans (Nat.min_le_left _ _) (Nat.min_le_right _ _)
                exact Nat.le_trans (Nat.add_le_add_right hle 1) (by decide)

end sends

/-! ## what the client wrote -/

/-- The bytes on their way to the client, and those it has buffered, are whole frames. -/
structure Due (d : Dec) (down : List UInt8) (owed : List Msg) : Prop where
  ordered : d.win.head ≤ d.win.tail
  fits : ∀ m ∈ owed, m.body.length ≤ Rpc.maxFrame
  carries : Carries d.win down owed

/-- What the client exits with is in the frames it acted on. -/
def Left (e : Exit) (acted : List Msg) : Prop :=
  match e with
  | .code c => .exit c ∈ acted
  | .error text => ∃ t, .error t ∈ acted ∧ text = clipped t
  | .unexpected _ => False
  | .failed .. => True

/-- Of the frames given to the client those it acted on are shown. -/
structure Shows (given : List Msg) (x : ExecClient) (down : List UInt8) (acted owed : List Msg) :
    Prop where
  split : given = acted ++ owed
  shown : ∀ o, x.short o = false → x.shown o = shownOf o acted
  due : x.Live → Due x.dec down owed
  left : ∀ e, x.stage = .exited e → Left e acted

section shows

variable {x y : ExecClient} {d : Dec} {given acted owed : List Msg} {down : List UInt8}
  {m : Msg} {c : ExecCalls}

theorem Due.append (h : Due d down owed) (hfit : m.body.length ≤ Rpc.maxFrame) :
    Due d (down ++ m.encode) (owed ++ [m]) :=
  ⟨h.ordered, fits_append h.fits hfit, carries_append h.carries m⟩

/-- The socket read on. -/
theorem Due.push {chunk : List UInt8} (h : Due d down owed)
    (hsplit : chunk ++ down.drop chunk.length = down) :
    Due (d.push chunk) (down.drop chunk.length) owed := by
  obtain ⟨hcontent, hordered⟩ := Dec.push_content h.ordered chunk
  refine ⟨hordered, h.fits, ?_⟩
  unfold Carries
  rw [hcontent, List.append_assoc, hsplit]
  exact h.carries

/-- No frame is whole, or the first of those due is found. -/
theorem Due.next (h : Due d down owed) : d.next = none ∨
    ∃ m owed' tag body d', owed = m :: owed' ∧ d.next = some (.frame tag body, d') ∧
      decodeBody tag body = .ok m.normal ∧ Due d' down owed' := by
  obtain hcut | ⟨m, owed', tag, body, rest, howed, hcut, hm, hrest⟩ :=
    cut_of_carries h.fits h.carries
  · have hturn := rxTurn_content d.win
    rw [hcut, Option.map_eq_none_iff] at hturn
    exact .inl (by rw [Dec.next_eq, hturn]; rfl)
  · obtain ⟨d', hnext, hcontent, -⟩ := decNext_of_cut hcut
    refine .inr ⟨m, owed', tag, body, d', howed, hnext, hm, decNext_ordered h.ordered hnext,
      fun x hx => h.fits x (howed ▸ List.mem_cons_of_mem _ hx), ?_⟩
    unfold Carries
    rw [hcontent]
    exact hrest

theorem Shows.give (h : Shows given x down acted owed) (hfit : m.body.length ≤ Rpc.maxFrame) :
    Shows (given ++ [m]) x (down ++ m.encode) acted (owed ++ [m]) :=
  ⟨by rw [h.split, List.append_assoc], h.shown, fun hlive => (h.due hlive).append hfit, h.left⟩

/-- The client exits for its own reasons. -/
theorem Shows.fails {what : String} {errno : Option Nat} (h : Shows given x down acted owed)
    (hshown : y.shown = x.shown) (hshort : y.short = x.short)
    (hstage : y.stage = .exited (.failed what errno)) : Shows given y down acted owed where
  split := h.split
  shown o ho := by
    rw [hshown]
    exact h.shown o (by rw [← hshort]; exact ho)
  due hlive := absurd hstage (hlive _)
  left e he := by
    rw [hstage] at he
    cases he
    trivial

/-- What a frame's body brings is written, or a write fails. -/
theorem Shows.write {o : Output} {bytes : List UInt8}
    (h : Shows given x down acted (m :: owed)) (hm : ∀ o', shownOf o' [m] =
      if o' = o then bytes else []) (hlive : x.Live) (hd : Due d down owed) :
    Shows given (({ x with dec := d } : ExecClient).writeAll c o bytes) down (acted ++ [m])
      owed where
  split := by rw [h.split, List.append_assoc]; rfl
  shown o' ho' := by
    unfold ExecClient.writeAll at ho' ⊢
    dsimp only at ho' ⊢
    rw [shownOf_append, hm]
    by_cases heq : o' = o
    · subst heq
      rw [Function.update_self] at ho' ⊢
      obtain ⟨hwhole, hsome⟩ := Bool.or_eq_false_iff.mp ho'
      have hall : c.shows = none := by simpa using hsome
      rw [if_pos rfl, h.shown o' hwhole, hall]
    · rw [Function.update_of_ne heq] at ho' ⊢
      rw [if_neg heq, List.append_nil, h.shown o' ho']
  due _ := hd
  left e he := absurd he (hlive e)

/-- The last frame of the session. -/
theorem Shows.exits {e : Exit} (h : Shows given x down acted (m :: owed))
    (hm : ∀ o, shownOf o [m] = []) (hleft : Left e [m]) :
    Shows given (({ x with dec := d } : ExecClient).exit e) down (acted ++ [m]) owed where
  split := by rw [h.split, List.append_assoc]; rfl
  shown o ho := by
    rw [shownOf_append, hm, List.append_nil]
    exact h.shown o ho
  due hlive := absurd rfl (hlive e)
  left e' he' := by
    cases he'
    unfold Left at hleft ⊢
    cases e with
    | code c => exact List.mem_append_right _ hleft
    | error text =>
        obtain ⟨t, ht, htext⟩ := hleft
        exact ⟨t, List.mem_append_right _ ht, htext⟩
    | unexpected t => exact hleft
    | failed what errno => trivial

/-- A frame acted on: one of the command's, or the last. -/
theorem Shows.act (h : Shows given x down acted owed) (hlive : x.Live)
    (hframes : ∀ m ∈ given, Kind.exec.own m = true ∨ Kind.exec.ends m = true) :
    ∃ acted' owed', Shows given (x.act c) down acted' owed' := by
  unfold ExecClient.act
  obtain hnone | ⟨m, owed', tag, body, d, rfl, hnext, hm, hd⟩ := (h.due hlive).next
  · rw [hnone]
    exact ⟨acted, owed, h.split, h.shown, fun _ => h.due hlive, fun e he => by cases he⟩
  · rw [hnext]
    dsimp only
    rw [hm]
    dsimp only
    have hmem : m ∈ given := by
      rw [h.split]
      exact List.mem_append_right _ List.mem_cons_self
    refine ⟨acted ++ [m], owed', ?_⟩
    obtain hown | hends := hframes m hmem
    · cases m with
      | stdout data => exact h.write (fun o => List.append_nil _) hlive hd
      | stderr data => exact h.write (fun o => List.append_nil _) hlive hd
      | _ => cases hown
    · cases m with
      | exit code => exact h.exits (fun _ => rfl) (List.mem_singleton.mpr rfl)
      | error text => exact h.exits (fun _ => rfl) ⟨text, List.mem_singleton.mpr rfl, rfl⟩
      | _ => cases hends

/-- The socket read, or found closed. -/
theorem Shows.readSocket (h : Shows given x down acted owed) (hlive : x.Live) (c : ExecCalls) :
    Shows given (x.readSocket c down).1 (x.readSocket c down).2 acted owed := by
  unfold ExecClient.readSocket
  split
  · exact h
  · exact h.fails rfl rfl rfl
  · split
    · exact h
    · exact h.fails rfl rfl rfl
  · dsimp only
    generalize hchunk : down.take _ = chunk
    have hsplit : chunk ++ down.drop chunk.length = down := by
      rw [← hchunk, List.length_take, ← List.drop_eq_drop_min, List.take_append_drop]
    exact ⟨h.split, h.shown, fun _ => (h.due hlive).push hsplit, fun e he => by cases he⟩

theorem readSocket_source (c : ExecCalls) (down : List UInt8) (x : ExecClient) :
    (x.readSocket c down).1.source = x.source ∧
      (x.readSocket c down).1.stdinOpen = x.stdinOpen := by
  unfold ExecClient.readSocket
  split
  · exact ⟨rfl, rfl⟩
  · exact ⟨rfl, rfl⟩
  · split <;> exact ⟨rfl, rfl⟩
  · exact ⟨rfl, rfl⟩

theorem act_source (c : ExecCalls) (x : ExecClient) :
    (x.act c).source = x.source ∧ (x.act c).stdinOpen = x.stdinOpen := by
  unfold ExecClient.act
  split
  · exact ⟨rfl, rfl⟩
  · split
    · next m _ => cases m <;> exact ⟨rfl, rfl⟩
    · exact ⟨rfl, rfl⟩
  · exact ⟨rfl, rfl⟩

/-- A turn of the client. -/
structure Went (stdin : List UInt8) (given sent : List Msg)
    (r : ExecClient × List Msg × List UInt8) : Prop where
  sends : Sends stdin r.1 (sent ++ r.2.1)
  fits : ∀ m ∈ r.2.1, m.body.length ≤ Rpc.maxFrame
  shows : ∃ acted owed, Shows given r.1 r.2.2 acted owed

theorem client_turn {stdin : List UInt8} {sent : List Msg} (hsends : Sends stdin x sent)
    (h : Shows given x down acted owed)
    (hframes : ∀ m ∈ given, Kind.exec.own m = true ∨ Kind.exec.ends m = true) (c : ExecCalls) :
    Went stdin given sent (x.turn c down) := by
  have hstay : ∀ {y : ExecClient}, Sends stdin y sent → Sends stdin y (sent ++ []) := fun hy => by
    rw [List.append_nil]
    exact hy
  unfold ExecClient.turn
  cases hstage : x.stage with
  | polling =>
      have hlive : x.Live := fun e he => by
        rw [hstage] at he
        cases he
      have hread := hsends.readStdin hlive c
      dsimp only
      generalize x.readStdin c = r at hread
      obtain ⟨y, more⟩ := r
      obtain ⟨hmore, hfits, hdec, hshown, hshort, hgone⟩ := hread
      dsimp only at hmore hfits hdec hshown hshort hgone ⊢
      obtain hsame | hexit := hgone
      · rw [hsame, hstage]
        dsimp only
        have hylive : y.Live := fun e he => by
          rw [hsame, hstage] at he
          cases he
        have hshows : Shows given y down acted owed :=
          ⟨h.split, by rw [hshown, hshort]; exact h.shown, fun _ => by rw [hdec]; exact h.due hlive,
            fun e he => absurd he (hylive e)⟩
        obtain ⟨hsource, hopen⟩ := readSocket_source c down y
        exact ⟨hmore.same hsource hopen fun _ => hylive, hfits,
          acted, owed, hshows.readSocket hylive c⟩
      · rw [hexit]
        exact ⟨hmore, hfits, acted, owed, h.fails hshown hshort hexit⟩
  | acting =>
      have hlive : x.Live := fun e he => by
        rw [hstage] at he
        cases he
      obtain ⟨hsource, hopen⟩ := act_source c x
      exact ⟨hstay (hsends.same hsource hopen fun _ => hlive), nofun, h.act hlive hframes⟩
  | exited e => exact ⟨hstay hsends, nofun, acted, owed, h⟩

end shows

end Phi.Xfer
