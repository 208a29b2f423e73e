import Phi.Rpc.Size
import Phi.Xfer.Flow

/-!
# Phi.Xfer.Turns

The client's turns.

A turn sends the next frame of the transfer, reads on, or acts on the first of
the frames the client is owed; a client that exits says what is so, or that it
failed by itself.
-/

namespace Phi.Xfer

open Rpc Card Serve

/-! ## what a turn may do -/

section client

variable {v : Verb} {bytes : List UInt8} {s : System} {ms sent owed : List Msg}

/-- The client after a turn: what it sent is on its way, and it took at most the
first of the frames it is owed, one before the last. -/
theorem Mine.client {owed' : List Msg} (h : Mine v bytes s ms sent owed) (x : Client)
    (new : List Msg) (down : List UInt8)
    (hx : x.Live → s.client.Live ∧ (owed' = owed ∧ x.dst = s.client.dst ∨
      ∃ o, v.kind.own o = true ∧ owed = o :: owed' ∧ x.got = s.client.got ++ dataOf [o])) :
    Mine v bytes (s.went (x, new, down)) ms (sent ++ new) owed' := by
  have hup : (s.went (x, new, down)).up = s.up ++ new := rfl
  have hbalanced : ∀ {xs os : List Msg} {c : CardSide} {o : Msg},
      x.got = s.client.got ++ dataOf [o] → Balanced v s.client (o :: xs) os c →
      Balanced v x xs os c := by
    intro xs os c o hgot hbal hk
    have hcons : dataOf (o :: xs) = dataOf [o] ++ dataOf xs := dataOf_append [o] xs
    rw [hgot, hbal hk, hcons]
    simp only [List.append_assoc]
  have hsame : ∀ {xs os : List Msg} {c : CardSide}, x.dst = s.client.dst →
      Balanced v s.client xs os c → Balanced v x xs os c := by
    intro xs os c hdst hbal hk
    unfold Client.got
    rw [hdst]
    exact hbal hk
  cases h with
  | before hadm hnone hhold hsent hflow =>
      refine .before hadm hnone hhold (by rw [hsent, hup]) fun hlive => ?_
      obtain ⟨hl, ⟨rfl, hdst⟩ | ⟨o, -, howed, -⟩⟩ := hx hlive
      · exact ⟨(hflow hl).1, hdst.trans (hflow hl).2⟩
      · rw [(hflow hl).1] at howed
        cases howed
  | asked hadm hnone hhold hms hpre hpost hsent hpend hidle hflow =>
      refine .asked hadm hnone hhold hms hpre hpost ?_ hpend hidle fun hlive => ?_
      · rw [hsent, hup]
        simp only [List.cons_append, List.append_assoc]
      · obtain ⟨hl, ⟨rfl, hdst⟩ | ⟨o, -, howed, -⟩⟩ := hx hlive
        · exact ⟨(hflow hl).1, hdst.trans (hflow hl).2⟩
        · rw [(hflow hl).1] at howed
          cases howed
  | @running l m hadm hnone hhold hquiet hsent hown hserving hflow =>
      refine .running (l := l) (m := m) hadm hnone hhold hquiet ?_ hown hserving fun hlive => ?_
      · rw [hsent, hup]
        simp only [List.cons_append, List.append_assoc]
      · obtain ⟨hl, ⟨rfl, hdst⟩ | ⟨o, ho, rfl, hgot⟩⟩ := hx hlive
        · exact ⟨(hflow hl).1, fun ha => hsame hdst ((hflow hl).2 ha)⟩
        · exact ⟨(hflow hl).1.tail, fun ha => hbalanced hgot ((hflow hl).2 ha)⟩
  | @finished l os m t hadm hnone hhold hquiet hsent hpend hown hends hresult hidle hflow =>
      refine .finished (l := l) (m := m) hadm hnone hhold hquiet ?_ hpend hown hends hresult hidle
        fun hlive => ?_
      · rw [hsent, hup]
        simp only [List.cons_append, List.append_assoc]
      · obtain ⟨hl, ⟨rfl, hdst⟩ | ⟨o, ho, rfl, hgot⟩⟩ := hx hlive
        · exact ⟨(hflow hl).1, hsame hdst (hflow hl).2⟩
        · exact ⟨(hflow hl).1.tail, hbalanced hgot (hflow hl).2⟩
  | @after t c hadm hended hhold hends hresult hflow =>
      refine .after hadm hended hhold hends hresult fun hlive => ?_
      obtain ⟨hl, ⟨rfl, hdst⟩ | ⟨o, ho, howed, hgot⟩⟩ := hx hlive
      · obtain ⟨os, howed, hown, hbal⟩ := hflow hl
        exact ⟨os, howed, hown, hsame hdst hbal⟩
      · obtain ⟨os, hos, hown, hbal⟩ := hflow hl
        rw [howed] at hos
        cases os with
        | nil =>
            cases hos
            rw [Kind.not_ends_of_own ho] at hends
            cases hends
        | cons o' os =>
            cases hos
            exact ⟨os, rfl, hown.tail, hbalanced hgot hbal⟩

theorem not_live_exit (x : Client) (r : Report) : ¬ (x.exit r).Live := fun h => h r rfl

/-- The client exits, and what it says is so. -/
theorem Exact.exits (h : Exact v bytes s ms sent owed) (x : Client) (r : Report)
    (hverb : x.verb = s.client.verb) (down : List UInt8)
    (hr : Exited v bytes { s with client := x.exit r } r) :
    Exact v bytes (s.went (x.exit r, [], down)) ms sent owed where
  base := ⟨h.base.fits, h.base.kept, h.base.seen, h.base.arriving, h.base.standing⟩
  verb := hverb.trans h.verb
  frames := h.frames
  fits := by
    show ∀ m ∈ s.up ++ [], _
    rw [List.append_nil]
    exact h.fits
  stands := trivial
  mine := by
    have hmine : Mine v bytes (s.went (x.exit r, [], down)) ms (sent ++ []) owed :=
      h.mine.client (x.exit r) [] down fun hlive => absurd hlive (not_live_exit _ _)
    rwa [List.append_nil sent] at hmine
  owes := fun hlive => absurd hlive (not_live_exit _ _)
  exited := by
    rintro r' ⟨⟩
    exact hr

/-- It may fail by itself at any time. -/
theorem Exact.fails (h : Exact v bytes s ms sent owed) (x : Client) (what : String)
    (errno : Option Nat) (hverb : x.verb = s.client.verb) (down : List UInt8) :
    Exact v bytes (s.went (x.exit (.failed what errno), [], down)) ms sent owed :=
  h.exits x _ hverb down trivial

/-- The client sends a frame or reads on. -/
theorem Exact.sends {x : Client} {down : List UInt8} (h : Exact v bytes s ms sent owed)
    (new : List Msg) (hlive : s.client.Live) (hxlive : x.Live) (hverb : x.verb = s.client.verb)
    (hdst : x.dst = s.client.dst) (howes : Owes x down owed)
    (hframes : Sent bytes v (sent ++ new)) (hfits : ∀ m ∈ new, m.body.length ≤ Rpc.maxFrame)
    (hstands : Stands bytes x (sent ++ new)) :
    Exact v bytes (s.went (x, new, down)) ms (sent ++ new) owed where
  base := ⟨h.base.fits, h.base.kept, h.base.seen, h.base.arriving, h.base.standing⟩
  verb := hverb.trans h.verb
  frames := hframes
  fits := by
    intro m hm
    obtain hm | hm := List.mem_append.mp hm
    · exact h.fits m hm
    · exact hfits m hm
  stands := hstands
  mine := h.mine.client x new down fun _ => ⟨hlive, .inl ⟨rfl, hdst⟩⟩
  owes := fun _ => howes
  exited := fun r hr => absurd hr (hxlive r)

/-- Data of a get is written to the local file. -/
theorem Exact.writes {x : Client} {o : Msg} {owed' : List Msg} {down : List UInt8}
    (h : Exact v bytes s ms sent (o :: owed')) (hlive : s.client.Live) (hxlive : x.Live)
    (hverb : x.verb = s.client.verb) (hown : v.kind.own o = true)
    (hgot : x.got = s.client.got ++ dataOf [o]) (howes : Owes x down owed')
    (hstands : Stands bytes x sent) :
    Exact v bytes (s.went (x, [], down)) ms sent owed' where
  base := ⟨h.base.fits, h.base.kept, h.base.seen, h.base.arriving, h.base.standing⟩
  verb := hverb.trans h.verb
  frames := h.frames
  fits := by
    show ∀ m ∈ s.up ++ [], _
    rw [List.append_nil]
    exact h.fits
  stands := hstands
  mine := by
    have hmine := h.mine.client x [] down fun _ => ⟨hlive, .inr ⟨o, hown, rfl, hgot⟩⟩
    rwa [List.append_nil sent] at hmine
  owes := fun _ => howes
  exited := fun r hr => absurd hr (hxlive r)

theorem sendTx_cases (c : Calls) (m : Msg) (next : Stage) (x : Client) :
    x.sendTx c m next = ({ x with stage := next }, [m]) ∨
      ∃ what errno, x.sendTx c m next = (x.exit (.failed what errno), []) := by
  unfold Client.sendTx
  cases c.write with
  | none => exact .inl rfl
  | some e => exact .inr ⟨_, _, rfl⟩

theorem connect_cases (c : Calls) (m : Msg) (next : Stage) (x : Client) :
    x.connect c m next = ({ x with stage := next }, [m]) ∨
      ∃ what errno, x.connect c m next = (x.exit (.failed what errno), []) := by
  unfold Client.connect
  cases c.socket with
  | some errno => exact .inr ⟨_, _, rfl⟩
  | none => cases c.connected with
      | some errno => exact .inr ⟨_, _, rfl⟩
      | none => exact sendTx_cases c m next x

theorem Owes.same {x y : Client} {down : List UInt8} (h : Owes x down owed)
    (hdec : y.dec = x.dec) : Owes y down owed :=
  ⟨hdec ▸ h.ordered, h.fits, hdec ▸ h.carries⟩

/-- The first frame. -/
theorem Exact.opening {c : Calls} (h : Exact v bytes s ms sent owed) (env : Env)
    (hstage : s.client.stage = .opening) :
    ∃ sent', Exact v bytes (s.step env (.client c)) ms sent' owed := by
  have hlive : s.client.Live := fun r hr => by rw [hstage] at hr; cases hr
  have howes := h.owes hlive
  have hstands := h.stands
  unfold Stands at hstands
  rw [hstage] at hstands
  obtain ⟨rfl, hfile⟩ := hstands
  unfold System.step Client.turn
  rw [hstage]
  dsimp only
  unfold Client.openTransfer
  have hverb := h.verb
  cases hv : s.client.verb with
  | put src dst o =>
      dsimp only
      cases c.opened with
      | some errno => exact ⟨[], h.fails _ _ _ rfl _⟩
      | none =>
          dsimp only
          obtain hsend | ⟨what, errno, hfail⟩ := connect_cases c
            (.putOpen dst (o.getD (c.mode &&& 0o7777))) (.sending 0) s.client
          · rw [hsend]
            refine ⟨_, h.sends _ hlive (fun r hr => by cases hr) rfl rfl (howes.same rfl) ?_ ?_ ?_⟩
            · rw [← hverb, hv]
              exact .part []
            · intro m hm
              rw [List.mem_singleton.mp hm, Msg.length_body]
              exact Msg.size_lt (by simp [Msg.tag]) (by simp [Msg.tag])
            · exact ⟨src, dst, o, _, [], hv, rfl, hfile, rfl⟩
          · rw [hfail]
            exact ⟨[], h.fails _ _ _ rfl _⟩
  | get src dst =>
      dsimp only
      obtain hsend | ⟨what, errno, hfail⟩ := connect_cases c (.get src) .receiving s.client
      · rw [hsend]
        refine ⟨_, h.sends _ hlive (fun r hr => by cases hr) rfl rfl (howes.same rfl) ?_ ?_ ?_⟩
        · rw [← hverb, hv]
          exact .asked
        · intro m hm
          rw [List.mem_singleton.mp hm, Msg.length_body]
          exact Msg.size_lt (by simp [Msg.tag]) (by simp [Msg.tag])
        · exact ⟨src, dst, hv⟩
      · rw [hfail]
        exact ⟨[], h.fails _ _ _ rfl _⟩

/-- The file goes out as it is read. -/
theorem Exact.sending {c : Calls} (h : Exact v bytes s ms sent owed) (env : Env) {total : UInt64}
    (hstage : s.client.stage = .sending total) :
    ∃ sent', Exact v bytes (s.step env (.client c)) ms sent' owed := by
  have hlive : s.client.Live := fun r hr => by rw [hstage] at hr; cases hr
  have howes := h.owes hlive
  have hstands := h.stands
  unfold Stands at hstands
  rw [hstage] at hstands
  obtain ⟨src, dst, o, mode, datas, hv, rfl, hflat, htotal⟩ := hstands
  unfold System.step Client.turn
  rw [hstage]
  dsimp only
  unfold Client.sendNext
  have hverb := h.verb
  rw [hv] at hverb
  cases c.file with
  | failed errno =>
      dsimp only
      by_cases hintr : errno = eintr
      · rw [if_pos hintr]
        refine ⟨_, h.sends [] hlive hlive rfl rfl howes ?_ nofun ?_⟩
        · rw [List.append_nil]
          exact h.frames
        · rw [List.append_nil]
          exact h.stands
      · rw [if_neg hintr, hv]
        exact ⟨_, h.fails _ _ _ rfl _⟩
  | upTo n =>
      dsimp only
      by_cases hend : s.client.file.take (min (n + 1) readChunk) = []
      · rw [if_pos hend]
        have hfile : s.client.file = [] := by
          have hlen := congrArg List.length hend
          rw [List.length_take] at hlen
          unfold readChunk at hlen
          exact List.length_eq_zero_iff.mp (by simp only [List.length_nil] at hlen; omega)
        obtain hsend | ⟨what, errno, hfail⟩ := sendTx_cases c .putClose (.waiting total) s.client
        · rw [hsend]
          refine ⟨_, h.sends _ hlive nofun rfl rfl (howes.same rfl) ?_ ?_ ?_⟩
          · rw [← hverb]
            exact .whole (by rw [← hflat, hfile, List.append_nil])
          · intro m hm
            rw [List.mem_singleton.mp hm, Msg.length_body]
            decide
          · refine ⟨⟨src, dst, o, hv⟩, ?_⟩
            rw [htotal, ← hflat, hfile, List.append_nil]
        · rw [hfail]
          exact ⟨_, h.fails _ _ _ rfl _⟩
      · rw [if_neg hend]
        generalize hdata : s.client.file.take (min (n + 1) readChunk) = data at hend
        have hrest : data ++ s.client.file.drop data.length = s.client.file := by
          rw [← hdata, List.length_take, ← List.drop_eq_drop_min, List.take_append_drop]
        obtain hsend | ⟨what, errno, hfail⟩ := sendTx_cases c (.putData data)
          (.sending (total + UInt64.ofNat data.length))
          { s.client with file := s.client.file.drop data.length }
        · rw [hsend]
          refine ⟨_, h.sends _ hlive nofun rfl rfl (howes.same rfl) ?_ ?_ ?_⟩
          · rw [← hverb]
            have hpart : Sent bytes (.put src dst o)
              (.putOpen dst mode :: (datas ++ [data]).map .putData) := .part _
            simpa using hpart
          · intro m hm
            rw [List.mem_singleton.mp hm, Msg.length_body]
            have hle : data.length ≤ readChunk := by
              rw [← hdata, List.length_take]
              omega
            exact Nat.lt_of_le_of_lt hle (by decide)
          · refine ⟨src, dst, o, mode, datas ++ [data], hv, by simp, ?_, ?_⟩
            · simp only [List.flatten_append, List.flatten_singleton, List.append_assoc]
              rw [hrest, hflat]
            · simp only [List.flatten_append, List.flatten_singleton, List.length_append]
              rw [htotal, UInt64.ofNat_add]
        · rw [hfail]
          exact ⟨_, h.fails { s.client with file := s.client.file.drop data.length } _ _ rfl _⟩

/-- A round of `recv_frame`: the client fails, reads on, or finds the first of
the frames it is owed. -/
theorem recvFrame_cases {x : Client} {down : List UInt8} (c : Calls) (h : Owes x down owed) :
    (∃ what errno, x.recvFrame c down = (x.exit (.failed what errno), none, down)) ∨
    (∃ dec down', x.recvFrame c down = ({ x with dec }, none, down') ∧
      Owes { x with dec } down' owed) ∨
    ∃ o owed' dec, owed = o :: owed' ∧
      x.recvFrame c down = ({ x with dec }, some o.normal, down) ∧
      Owes { x with dec } down owed' := by
  unfold Client.recvFrame
  obtain hcut | ⟨o, owed', tag, body, rest, howed, hcut, hm, hrest⟩ :=
    cut_of_carries h.fits h.carries
  · have hnone : x.dec.next = none := by
      rw [Dec.next_eq, Option.map_eq_none_iff]
      have hturn := rxTurn_content x.dec.win
      rwa [hcut, Option.map_eq_none_iff] at hturn
    rw [hnone]
    dsimp only
    cases c.recv with
    | none => exact .inl ⟨_, _, rfl⟩
    | some r => cases r with
        | failed errno =>
            dsimp only
            by_cases hintr : errno = eintr
            · rw [if_pos hintr]
              exact .inr (.inl ⟨x.dec, down, rfl, h⟩)
            · rw [if_neg hintr]
              exact .inl ⟨_, _, rfl⟩
        | upTo n =>
            dsimp only
            generalize hchunk : down.take (min (n + 1) (min readChunk x.dec.space)) = chunk
            have hsplit : chunk ++ down.drop chunk.length = down := by
              rw [← hchunk, List.length_take, ← List.drop_eq_drop_min, List.take_append_drop]
            obtain ⟨hcontent, hordered⟩ := Dec.push_content h.ordered chunk
            refine .inr (.inl ⟨x.dec.push chunk, down.drop chunk.length, rfl, hordered, h.fits, ?_⟩)
            unfold Carries
            rw [hcontent, List.append_assoc, hsplit]
            exact h.carries
  · obtain ⟨dec, hnext, hcontent, -⟩ := decNext_of_cut hcut
    rw [hnext]
    dsimp only
    rw [hm]
    refine .inr (.inr ⟨o, owed', dec, howed, rfl, decNext_ordered h.ordered hnext,
      fun m hmem => h.fits m (howed ▸ List.mem_cons_of_mem _ hmem), ?_⟩)
    unfold Carries
    rw [hcontent]
    exact hrest

/-- The first frame owed: one of a get's data, or the last of the session with
what it says. -/
theorem Mine.first {o : Msg} {owed' : List Msg} (h : Mine v bytes s ms sent (o :: owed'))
    (hlive : s.client.Live) : v.kind.own o = true ∨
      ∃ c, s.ended = some (o, c) ∧ v.kind.ends o = true ∧ Result v bytes o c ∧
        Balanced v s.client [] [] c := by
  cases h with
  | before _ _ _ _ hflow => cases (hflow hlive).1
  | asked _ _ _ _ _ _ _ _ _ hflow => cases (hflow hlive).1
  | running _ _ _ _ _ _ _ hflow => exact .inl ((hflow hlive).1 o List.mem_cons_self).1
  | finished _ _ _ _ _ _ _ _ _ _ hflow => exact .inl ((hflow hlive).1 o List.mem_cons_self).1
  | after _ hended _ hends hresult hflow =>
      obtain ⟨os, howed, hown, hbal⟩ := hflow hlive
      cases os with
      | nil =>
          cases howed
          exact .inr ⟨_, hended, hends, hresult, hbal⟩
      | cons o' os =>
          cases howed
          exact .inl (hown o List.mem_cons_self).1

/-- Only a get has frames before its last, and they are its data. -/
theorem own_cases {o : Msg} (h : v.kind.own o = true) :
    v.kind = .get ∧ ∃ data, o = .getData data := by
  cases v <;> cases o <;> first | exact ⟨rfl, _, rfl⟩ | cases h

/-- A put waits for its reply. -/
theorem Exact.waiting {c : Calls} (h : Exact v bytes s ms sent owed) (env : Env) {total : UInt64}
    (hstage : s.client.stage = .waiting total) :
    ∃ owed', Exact v bytes (s.step env (.client c)) ms sent owed' := by
  have hlive : s.client.Live := fun r hr => by rw [hstage] at hr; cases hr
  have howes := h.owes hlive
  have hstands := h.stands
  unfold Stands at hstands
  rw [hstage] at hstands
  obtain ⟨⟨src, dst, mode, hv⟩, htotal⟩ := hstands
  have hverb := h.verb
  rw [hv] at hverb
  subst hverb
  unfold System.step Client.turn
  rw [hstage]
  dsimp only
  obtain ⟨what, errno, hfail⟩ | ⟨dec, down', hread, howes⟩ |
    ⟨o, owed', dec, howed, hfound, howes⟩ := recvFrame_cases c howes
  · rw [hfail]
    exact ⟨owed, h.fails _ _ _ rfl _⟩
  · rw [hread]
    have hlive' : ({ s.client with dec } : Client).Live := hlive
    have hnext := h.sends [] hlive hlive' rfl rfl howes
    rw [List.append_nil sent] at hnext
    exact ⟨owed, hnext h.frames nofun h.stands⟩
  · rw [hfound]
    dsimp only
    have hmine := h.mine
    rw [howed] at hmine
    obtain hown | ⟨c, hended, -, hresult, -⟩ := hmine.first hlive
    · cases (own_cases hown).1
    · obtain ⟨⟨text, rfl⟩, hfailed⟩ | ⟨hfailed, rfl, hfile⟩ := hresult
      · exact ⟨_, h.exits { s.client with dec } (.error (clipped text)) rfl s.down
          ⟨_, c, hended, hfailed, rfl⟩⟩
      · exact ⟨_, h.exits { s.client with dec } (.done total) rfl s.down
          ⟨_, c, hended, hfailed, hfile, htotal⟩⟩

/-- The local file opened, or found open. -/
theorem withDst_cases (c : Calls) (f : List UInt8 → Client) (x : Client) :
    x.withDst c f = f x.got ∨ ∃ what errno, x.withDst c f = x.exit (.failed what errno) := by
  unfold Client.withDst Client.got
  cases x.dst with
  | some bytes => exact .inl rfl
  | none =>
      dsimp only
      cases c.opened with
      | none => exact .inl rfl
      | some errno => cases x.verb <;> exact .inr ⟨_, _, rfl⟩

theorem getReply_data (c : Calls) (data : List UInt8) (x : Client) :
    x.getReply c (.getData data) = { x with dst := some (x.got ++ data) } ∨
      ∃ (y : Client) (what : String) (errno : Option Nat), y.verb = x.verb ∧
        x.getReply c (.getData data) = y.exit (.failed what errno) := by
  unfold Client.getReply
  dsimp only
  obtain hdst | ⟨what, errno, hdst⟩ := withDst_cases c _ x
  · rw [hdst]
    cases c.write with
    | none => exact .inl rfl
    | some e => exact .inr ⟨{ x with dst := some x.got }, _, _, rfl, rfl⟩
  · exact .inr ⟨x, what, errno, rfl, hdst⟩

theorem getReply_end (c : Calls) (size : UInt64) (x : Client) :
    x.getReply c (.getEnd size) = ({ x with dst := some x.got } : Client).exit (.done size) ∨
      ∃ what errno, x.getReply c (.getEnd size) = x.exit (.failed what errno) :=
  withDst_cases c _ x

/-- A get acts on its replies. -/
theorem Exact.receiving {c : Calls} (h : Exact v bytes s ms sent owed) (env : Env)
    (hstage : s.client.stage = .receiving) :
    ∃ owed', Exact v bytes (s.step env (.client c)) ms sent owed' := by
  have hlive : s.client.Live := fun r hr => by rw [hstage] at hr; cases hr
  have howes := h.owes hlive
  have hstands := h.stands
  unfold Stands at hstands
  rw [hstage] at hstands
  obtain ⟨src, dst, hv⟩ := hstands
  have hverb := h.verb
  rw [hv] at hverb
  subst hverb
  unfold System.step Client.turn
  rw [hstage]
  dsimp only
  obtain ⟨what, errno, hfail⟩ | ⟨dec, down', hread, howes⟩ |
    ⟨o, owed', dec, howed, hfound, hleft⟩ := recvFrame_cases c howes
  · rw [hfail]
    exact ⟨owed, h.fails _ _ _ rfl _⟩
  · rw [hread]
    have hlive' : ({ s.client with dec } : Client).Live := hlive
    have hnext := h.sends [] hlive hlive' rfl rfl howes
    rw [List.append_nil sent] at hnext
    exact ⟨owed, hnext h.frames nofun h.stands⟩
  · rw [hfound]
    dsimp only
    subst howed
    obtain hown | ⟨c', hended, -, hresult, hbal⟩ := h.mine.first hlive
    · obtain ⟨-, data, rfl⟩ := own_cases hown
      unfold Msg.normal
      dsimp only
      obtain hwrite | ⟨y, what, errno, hy, hfail⟩ := getReply_data c data { s.client with dec }
      · rw [hwrite]
        have hlive' : ({ s.client with
          dec, dst := some (s.client.got ++ data) } : Client).Live := hlive
        refine ⟨owed', h.writes hlive hlive' rfl hown ?_ (hleft.same rfl) ?_⟩
        · show s.client.got ++ data = s.client.got ++ dataOf [.getData data]
          simp [dataOf]
        · unfold Stands
          dsimp only
          rw [hstage]
          exact ⟨src, dst, hv⟩
      · rw [hfail]
        exact ⟨_, h.fails y _ _ hy _⟩
    · obtain ⟨⟨text, rfl⟩, hfailed⟩ | ⟨hfailed, hend⟩ := hresult
      · exact ⟨_, h.exits { s.client with dec } (.error (clipped text)) rfl s.down
          ⟨_, c', hended, hfailed, rfl⟩⟩
      · dsimp only at hend
        subst hend
        unfold Msg.normal
        dsimp only
        obtain hdone | ⟨what, errno, hfail⟩ := getReply_end c
          (UInt64.ofNat c'.fetched.length) { s.client with dec }
        · rw [hdone]
          refine ⟨_, h.exits { s.client with dec, dst := some s.client.got }
            (.done (UInt64.ofNat c'.fetched.length)) rfl s.down ⟨_, c', hended, hfailed, ?_, rfl⟩⟩
          have hall := hbal rfl
          simp only [dataOf, List.append_nil] at hall
          show some s.client.got = some c'.fetched
          rw [hall]
        · rw [hfail]
          exact ⟨_, h.fails { s.client with dec } _ _ rfl _⟩

/-- **A turn of the client.** -/
theorem Exact.client {c : Calls} (h : Exact v bytes s ms sent owed) (env : Env) :
    ∃ sent' owed', Exact v bytes (s.step env (.client c)) ms sent' owed' := by
  cases hstage : s.client.stage with
  | opening =>
      obtain ⟨sent', h'⟩ := h.opening (c := c) env hstage
      exact ⟨sent', owed, h'⟩
  | sending total =>
      obtain ⟨sent', h'⟩ := h.sending (c := c) env hstage
      exact ⟨sent', owed, h'⟩
  | waiting total =>
      obtain ⟨owed', h'⟩ := h.waiting (c := c) env hstage
      exact ⟨sent, owed', h'⟩
  | receiving =>
      obtain ⟨owed', h'⟩ := h.receiving (c := c) env hstage
      exact ⟨sent, owed', h'⟩
  | exited r =>
      have hstay : s.step env (.client c) = s := by
        unfold System.step Client.turn System.went
        rw [hstage]
        dsimp only
        rw [List.append_nil]
      rw [hstay]
      exact ⟨sent, owed, h⟩

end client

end Phi.Xfer
