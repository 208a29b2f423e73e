import Phi.Top.Message

/-!
# Phi.Top.Kept

Whether a poll that fails leaves the model alone (`slot_poll`).

`poll_right_iff` gives the condition on the slot and the two answers; no message
of such a poll reaches the history (`failure_inside`).
-/

namespace Phi.Top

open Rpc Serve Utf8

/-! ## validated replies -/

/-- A reply is a frame that `validate` passed. -/
theorem found_reply {d : Dec} {tag : UInt8} {body : List UInt8}
    (h : found d = some (.reply tag body)) : validate tag body = 0 := by
  obtain ⟨⟨o, d'⟩, hnext, ho⟩ := Option.map_eq_some_iff.mp h
  cases o with
  | frame t b =>
      cases ho
      unfold Dec.next at hnext
      split at hnext
      · exact nomatch hnext
      · dsimp only at hnext
        split at hnext
        · cases hnext
        · split at hnext
          · exact nomatch hnext
          · have hof := congrArg Prod.fst (Option.some.inj hnext)
            obtain ⟨hv, rfl, rfl⟩ := outcome_of_frame hof
            exact hv
  | length n => cases ho
  | tag t => cases ho
  | malformed => cases ho

theorem replied_reply {d : Dec} {reads : List (Except Errno (List UInt8))} {tag : UInt8}
    {body : List UInt8} (h : replied d reads = .reply tag body) : validate tag body = 0 := by
  induction reads generalizing d with
  | nil =>
      unfold replied at h
      cases hf : found d with
      | none => rw [hf] at h; cases h
      | some e =>
          rw [hf] at h
          exact found_reply (hf.trans (congrArg some h))
  | cons r reads ih =>
      cases hf : found d with
      | some e =>
          have he : e = .reply tag body := by
            cases r <;> (unfold replied at h; rw [hf] at h; exact h)
          exact found_reply (hf.trans (congrArg some he))
      | none =>
          cases r with
          | error errno =>
              unfold replied at h
              rw [hf] at h
              cases h
          | ok bs =>
              unfold replied at h
              rw [hf, Option.getD_none] at h
              split at h
              · cases h
              · exact ih h

theorem ends_reply {a : Answers} {tag : UInt8} {body : List UInt8}
    (h : a.ends = .reply tag body) : validate tag body = 0 ∧ a.socket = none := by
  unfold Answers.ends at h
  split at h
  · cases h
  · cases h
  · next hs hc =>
      refine ⟨?_, hs⟩
      split at h
      · exact replied_reply h
      · cases h

/-- The record and the model are the same. -/
structure SlotMem.Alike (s t : SlotMem) : Prop where
  mem : ∀ i < slSeen, t.mem i = s.mem i
  seen : t.seen = s.seen
  prev : t.prev = s.prev

theorem SlotMem.Alike.spares_iff {s t : SlotMem} (h : s.Alike t) (bs : List UInt8) :
    t.Spares bs ↔ s.Spares bs :=
  forall₂_congr fun i hi => by rw [h.mem (slDerived + i) (by unfold slSeen; omega)]

theorem SlotMem.Alike.derived {s t : SlotMem} (h : s.Alike t) : t.derived = s.derived :=
  Circular.read_congr fun i hi => h.mem (slDerived + i) (by unfold slSeen; omega)

theorem SlotMem.alike_sent (s : SlotMem) (path : List UInt8) (a : Answers) :
    s.Alike (s.sent path a) :=
  ⟨fun _ hi => s.sent_mem path a (Nat.lt_add_right _ hi), (s.sent_same path a).1,
    (s.sent_same path a).2.1⟩

theorem SlotMem.Alike.trans {s t u : SlotMem} (h : s.Alike t) (h' : t.Alike u) : s.Alike u :=
  ⟨fun i hi => (h'.mem i hi).trans (h.mem i hi), h'.seen.trans h.seen, h'.prev.trans h.prev⟩

/-- A message put where the text stands. -/
theorem right_errorPut_iff {s t : SlotMem} (h : s.Alike t) (bs : List UInt8) :
    Polled.Right s (some bs) (some (.kept (t.errorPut bs))) ↔ s.Spares bs := by
  rw [← h.spares_iff, ← SlotMem.derived_errorPut_iff]
  constructor
  · rintro ⟨⟨hderived, -, -⟩, -⟩
    exact hderived.trans h.derived.symm
  · intro hderived
    exact ⟨⟨hderived.trans h.derived, (t.errorPut_prev bs).trans h.prev,
      (t.errorPut_seen bs).trans h.seen⟩, bs, rfl, t.errorText_errorPut bs⟩

/-- A request that fails. -/
theorem right_request_iff {s t : SlotMem} {path m : List UInt8} (h : s.Alike t)
    (hpath : t.Named path) {a : Answers} (hm : a.ends.message path = some m) :
    Polled.Right s (some m) ((t.request a).map .kept) ↔
      (∀ errno, a.ends = .connect errno → path.length < 512) ∧ s.Spares m := by
  by_cases hfits : ∀ errno, a.ends = .connect errno → path.length < 512
  · rw [SlotMem.request_eq hpath hfits, hm, Option.map_some]
    exact (right_errorPut_iff (h.trans (t.alike_sent path a)) m).trans
      ⟨fun hs => ⟨hfits, hs⟩, fun hs => hs.2⟩
  · refine ⟨fun hright => ?_, fun hs => absurd hs.1 hfits⟩
    push Not at hfits
    obtain ⟨errno, ha, hlong⟩ := hfits
    rw [SlotMem.request_none hpath ha hlong] at hright
    exact hright.elim

theorem update_mem {s t : SlotMem} {lay : Derived → Nat → UInt8} {x : Snapshot}
    (h : s.update lay x = .ok t) {i : Nat} (hi : i < slDerived) : t.mem i = s.mem i := by
  unfold SlotMem.update at h
  cases hm : modelUpdate ⟨s.seen, s.prev, none⟩ x with
  | error e => rw [hm] at h; cases h
  | ok u =>
      rw [hm] at h
      obtain rfl := Except.ok.inj h
      cases hd : u.derived with
      | none => rfl
      | some d => exact if_neg (by omega)

/-- The sample taken: no message. -/
theorem errorText_taken {s t : SlotMem} {lay : Derived → Nat → UInt8} {x : Snapshot}
    (h : s.clearError.update lay x = .ok t) : t.errorText = [] := by
  have hmem : Circular.read t.mem slErrorLen 8 = leBytes 8 0 := by
    have hsame : Circular.read t.mem slErrorLen 8
        = Circular.read s.clearError.mem slErrorLen 8 :=
      Circular.read_congr fun k hk => update_mem h (by unfold slErrorLen slDerived; omega)
    rw [hsame]
    unfold SlotMem.clearError
    rw [Circular.read_write_before _ (by unfold slErrorLen slError; omega)]
    exact Circular.read_write s.mem slErrorLen (leBytes 8 0)
  have hlen : t.errorLen = 0 := by
    unfold SlotMem.errorLen
    rw [hmem]
    decide
  unfold SlotMem.errorText
  rw [hlen, Circular.read_zero]

/-! ## the two halves -/

theorem traffic_of_validate {body : List UInt8}
    (h : validate (Tag.toByte .trafficReply) body = 0) : ∃ x, Read.traffic body = some x := by
  obtain ⟨y, hy⟩ := fields_of_validate h
  have hfields : Read.fields .trafficReply body
      = (Read.traffic body).bind fun x => some (.trafficReply x.1, x.2) := rfl
  rw [hfields] at hy
  obtain ⟨x, hx, -⟩ := Option.bind_eq_some_iff.mp hy
  exact ⟨x, hx⟩

section halves

variable {o : Around} {s t : SlotMem} {path : List UInt8} {a b : Answers} {stat : Stat}
  {vpu : Option VpuStats}

/-- A reply that is not the one asked for. -/
theorem right_unexpected_iff (h : s.Alike t) {tag : UInt8} {body : List UInt8}
    (hv : validate tag body = 0) :
    Polled.Right s (unexpectedMessage tag) ((t.unexpected tag).map .kept) ↔
      ∀ m, unexpectedMessage tag = some m → s.Spares m := by
  obtain ⟨u, hu⟩ := tag_of_validate hv
  have hmessage : unexpectedMessage tag
      = some (bytes "unexpected reply " ++ bytes (msgName u)) := by
    unfold unexpectedMessage
    rw [hu, Option.map_some]
  have hput : t.unexpected tag
      = some (t.errorPut (bytes "unexpected reply " ++ bytes (msgName u))) := by
    unfold SlotMem.unexpected SlotMem.errorPut
    rw [hu, Option.map_some, Pen.put_put]
  rw [hmessage, hput, Option.map_some]
  refine (right_errorPut_iff h _).trans ⟨fun hs m hm => ?_, fun hs => hs _ rfl⟩
  rw [← Option.some.inj hm]
  exact hs

theorem pollTraffic_fails (h : ∀ tag body, b.ends ≠ .reply tag body) :
    pollTraffic o s stat vpu b = (s.request b).map .kept := by
  unfold pollTraffic
  cases s.request b with
  | none => rfl
  | some u =>
      cases hb : b.ends with
      | reply tag body => exact absurd hb (h tag body)
      | _ => rfl

theorem slotPoll_fails (h : ∀ tag body, a.ends ≠ .reply tag body) :
    slotPoll o s a b = (s.request a).map .kept := by
  unfold slotPoll
  cases s.request a with
  | none => rfl
  | some u =>
      cases ha : a.ends with
      | reply tag body => exact absurd ha (h tag body)
      | _ => rfl

theorem message_of_fails (path : List UInt8) {e : Ends} (h : ∀ tag body, e ≠ .reply tag body) :
    ∃ m, e.message path = some m := by
  cases e with
  | reply tag body => exact absurd rfl (h tag body)
  | _ => exact ⟨_, rfl⟩

theorem request_reply (hpath : t.Named path) {tag : UInt8} {body : List UInt8}
    (ha : a.ends = .reply tag body) : t.request a = some (t.sent path a) := by
  rw [SlotMem.request_eq hpath (fun errno h => by rw [ha] at h; cases h), ha]
  rfl

/-- The second half. -/
theorem right_traffic_iff (h : s.Alike t) (hpath : t.Named path) :
    Polled.Right s (failureTraffic path b.ends) (pollTraffic o t stat vpu b) ↔
      (∀ errno, b.ends = .connect errno → path.length < 512) ∧
        ∀ m, failureTraffic path b.ends = some m → s.Spares m := by
  by_cases hreply : ∃ tag body, b.ends = .reply tag body
  · obtain ⟨tag, body, hb⟩ := hreply
    have hv := (ends_reply hb).1
    unfold pollTraffic
    rw [request_reply hpath hb, hb, Option.bind_eq_bind, Option.bind_some]
    unfold failureTraffic
    dsimp only
    by_cases htag : tag = Tag.toByte .trafficReply
    · rw [if_pos htag, if_pos htag]
      subst htag
      obtain ⟨x, hx⟩ := traffic_of_validate hv
      rw [hx]
      exact ⟨fun _ => ⟨nofun, nofun⟩, fun _ => ⟨rfl, fun u hu => errorText_taken hu⟩⟩
    · rw [if_neg htag, if_neg htag]
      exact (right_unexpected_iff (h.trans (t.alike_sent path b)) hv).trans
        ⟨fun hs => ⟨nofun, hs⟩, fun hs => hs.2⟩
  · have hne : ∀ tag body, b.ends ≠ .reply tag body := fun tag body hb => hreply ⟨tag, body, hb⟩
    obtain ⟨m, hm⟩ := message_of_fails path hne
    have hfail : failureTraffic path b.ends = some m := by
      rw [← hm]
      cases hb : b.ends with
      | reply tag body => exact absurd hb (hne tag body)
      | _ => rfl
    rw [pollTraffic_fails hne, hfail, right_request_iff h hpath hm]
    refine and_congr_right fun _ => ⟨fun hs n hn => ?_, fun hs => hs m rfl⟩
    rw [← Option.some.inj hn]
    exact hs

end halves

/-! ## the poll -/

/-- The slot's window is not mapped, or its stats line is there. -/
def SlotMem.Readable (s : SlotMem) (stats : UInt64 → Option VpuStats) : Prop :=
  s.vpuMap = 0 ∨ (stats s.vpuMap).isSome

/-- What a poll can bear: a path that ends in its field where a message quotes
it, one that leaves the slot's window where a sample is read, and a message that
ends in front of the derived record or repeats it. -/
structure Fits (path : List UInt8) (o : Around) (s : SlotMem) (a b : Answers) : Prop where
  connects : ∀ errno, (a.ends = .connect errno ∨
    (∃ body, a.ends = .reply (Tag.toByte .statReply) body) ∧ b.ends = .connect errno) →
      path.length < 512
  stats : (∃ body, a.ends = .reply (Tag.toByte .statReply) body) →
    (s.sent path a).Readable o.stats
  message : ∀ m, failure path a.ends b.ends = some m → s.Spares m

theorem vpuSample_readable {s : SlotMem} {stats : UInt64 → Option VpuStats}
    (h : s.Readable stats) : ∃ v, s.vpuSample stats = some v := by
  unfold SlotMem.vpuSample
  by_cases h0 : s.vpuMap = 0
  · exact ⟨none, if_pos h0⟩
  · obtain ⟨v, hv⟩ := Option.isSome_iff_exists.mp (h.resolve_left h0)
    exact ⟨some v, by rw [if_neg h0, hv]; rfl⟩

theorem vpuSample_faults {s : SlotMem} {stats : UInt64 → Option VpuStats}
    (h : ¬ s.Readable stats) : s.vpuSample stats = none := by
  unfold SlotMem.vpuSample
  rw [if_neg fun h0 => h (.inl h0), Option.map_eq_none_iff]
  exact Option.not_isSome_iff_eq_none.mp fun hs => h (.inr hs)

section poll

variable {o : Around} {s : SlotMem} {path : List UInt8} {a b : Answers}

theorem slotPoll_reply (hpath : s.Named path) {tag : UInt8} {body : List UInt8}
    (ha : a.ends = .reply tag body) :
    slotPoll o s a b = (if tag = Tag.toByte .statReply then (do
        let (stat, _) ← Read.stat body
        let vpu ← (s.sent path a).vpuSample o.stats
        pollTraffic o (s.sent path a) stat vpu b)
      else if tag = Tag.toByte .error then some (.kept ((s.sent path a).cardError body))
      else ((s.sent path a).unexpected tag).map .kept) := by
  unfold slotPoll
  rw [request_reply hpath ha, ha]
  rfl

/-- The sample came: what is left of the poll is its second half. -/
theorem right_stat_iff (hpath : s.Named path) {body : List UInt8}
    (ha : a.ends = .reply (Tag.toByte .statReply) body) :
    Polled.Right s (failure path a.ends b.ends) (slotPoll o s a b) ↔ Fits path o s a b := by
  have hfailure : failure path a.ends b.ends = failureTraffic path b.ends := by
    rw [ha]
    rfl
  obtain ⟨stat, left, hread, -⟩ := read_of_validate (ends_reply ha).1
  rw [slotPoll_reply hpath ha, if_pos rfl, hread, hfailure]
  by_cases hreadable : (s.sent path a).Readable o.stats
  · obtain ⟨v, hvpu⟩ := vpuSample_readable hreadable
    rw [hvpu]
    refine (right_traffic_iff (s.alike_sent path a) (hpath.sent a)).trans ⟨fun h => ?_, fun h => ?_⟩
    · refine ⟨fun errno hc => ?_, fun _ => hreadable, fun m hm => h.2 m (by rwa [hfailure] at hm)⟩
      obtain hc | ⟨-, hc⟩ := hc
      · rw [ha] at hc
        cases hc
      · exact h.1 errno hc
    · exact ⟨fun errno hc => h.connects errno (.inr ⟨⟨body, ha⟩, hc⟩), fun m hm =>
        h.message m (by rwa [hfailure])⟩
  · rw [vpuSample_faults hreadable]
    exact ⟨fun h => h.elim, fun h => absurd (h.stats ⟨body, ha⟩) hreadable⟩

/-- Without the sample nothing of the window is read, and the second request is not made. -/
theorem fits_of_no_stat (hstat : ¬ ∃ body, a.ends = .reply (Tag.toByte .statReply) body) :
    Fits path o s a b ↔ (∀ errno, a.ends = .connect errno → path.length < 512) ∧
      ∀ m, failure path a.ends b.ends = some m → s.Spares m := by
  constructor
  · exact fun h => ⟨fun errno hc => h.connects errno (.inl hc), h.message⟩
  · rintro ⟨hconnect, hmessage⟩
    refine ⟨fun errno hc => ?_, fun h => absurd h hstat, hmessage⟩
    obtain hc | ⟨h, -⟩ := hc
    · exact hconnect errno hc
    · exact absurd h hstat

/-- Another reply: the daemon's error, or one that was not asked for. -/
theorem right_other_iff (hpath : s.Named path) {tag : UInt8} {body : List UInt8}
    (ha : a.ends = .reply tag body) (htag : tag ≠ Tag.toByte .statReply) :
    Polled.Right s (failure path a.ends b.ends) (slotPoll o s a b) ↔ Fits path o s a b := by
  have halike := s.alike_sent path a
  have hfailure : failure path a.ends b.ends =
      if tag = Tag.toByte .error then some (cardMessage body) else unexpectedMessage tag := by
    rw [ha]
    exact if_neg htag
  have hstat : ¬ ∃ body, a.ends = .reply (Tag.toByte .statReply) body := by
    rintro ⟨c, hc⟩
    rw [ha] at hc
    exact htag (Ends.reply.inj hc).1
  have hconnect : ∀ errno, a.ends = .connect errno → path.length < 512 := fun errno hc => by
    rw [ha] at hc
    cases hc
  rw [fits_of_no_stat hstat, and_iff_right hconnect, slotPoll_reply hpath ha, hfailure,
    if_neg htag]
  by_cases herror : tag = Tag.toByte .error
  · rw [if_pos herror, if_pos herror]
    have hput : (s.sent path a).cardError body = (s.sent path a).errorPut (cardMessage body) := by
      unfold SlotMem.cardError SlotMem.errorPut cardMessage
      rw [Pen.put_put]
    rw [hput]
    refine (right_errorPut_iff halike _).trans ⟨fun h m hm => ?_, fun h => h _ rfl⟩
    rw [← Option.some.inj hm]
    exact h
  · rw [if_neg herror, if_neg herror]
    exact right_unexpected_iff halike (ends_reply ha).1

/-- No reply at all. -/
theorem right_unanswered_iff (hpath : s.Named path) (hne : ∀ tag body, a.ends ≠ .reply tag body) :
    Polled.Right s (failure path a.ends b.ends) (slotPoll o s a b) ↔ Fits path o s a b := by
  obtain ⟨m, hm⟩ := message_of_fails path hne
  have hfail : failure path a.ends b.ends = some m := by
    rw [← hm]
    cases ha : a.ends with
    | reply tag body => exact absurd ha (hne tag body)
    | _ => rfl
  rw [fits_of_no_stat fun ⟨c, hc⟩ => hne _ c hc, slotPoll_fails hne, hfail,
    right_request_iff ⟨fun _ _ => rfl, rfl, rfl⟩ hpath hm]
  refine and_congr_right fun _ => ⟨fun h n hn => ?_, fun h => h m rfl⟩
  rw [← Option.some.inj hn]
  exact h

end poll

/-- **A poll that fails leaves the model alone where its message has room.** -/
theorem poll_right_iff (o : Around) (s : SlotMem) {path : List UInt8} (hpath : s.Named path)
    (a b : Answers) :
    Polled.Right s (failure path a.ends b.ends) (slotPoll o s a b) ↔ Fits path o s a b := by
  by_cases hreply : ∃ tag body, a.ends = .reply tag body
  · obtain ⟨tag, body, ha⟩ := hreply
    by_cases htag : tag = Tag.toByte .statReply
    · exact right_stat_iff hpath (htag ▸ ha)
    · exact right_other_iff hpath ha htag
  · exact right_unanswered_iff hpath fun tag body ha => hreply ⟨tag, body, ha⟩

/-! ## how far a message reaches -/

theorem length_bytes_le (t : String) : (bytes t).length ≤ 4 * t.length := by
  have hall : ∀ cs : List Char, (encode cs).length ≤ 4 * cs.length := fun cs => by
    induction cs with
    | nil => simp
    | cons c cs ih =>
        have hc := Char.utf8Size_le_four c
        rw [encode_cons, List.length_append, String.length_utf8EncodeChar, List.length_cons]
        omega
  exact hall t.toList

theorem length_oserr_le (errno : Errno) : (oserr errno).length ≤ 256 := by
  have hrepr : (toString errno.val).length ≤ 4 :=
    (Nat.length_repr_le_iff (by decide)).mpr (Nat.lt_trans errno.isLt (by decide))
  have hnumber := length_bytes_le (toString errno.val)
  have htext : (bytes (errnoText errno)).length ≤ 128 := by
    unfold errnoText
    cases hlookup : errnoTable.lookup errno.val with
    | none => decide
    | some t =>
        have hmem : ∀ x ∈ errnoTable, (bytes x.2).length ≤ 128 := by decide
        obtain ⟨l, r, h, -⟩ := List.lookup_eq_some_iff.mp hlookup
        exact hmem (errno.val, t) (by rw [h]; simp)
  have hopen : (bytes " (os error ").length = 11 := by decide
  have hclose : (bytes ")").length = 1 := by decide
  unfold oserr
  simp only [List.length_append]
  omega

theorem Ends.message_length {path m : List UInt8} {e : Ends} (h : e.message path = some m) :
    m.length ≤ 512 ∨ (∃ errno, e = .connect errno) ∧ m.length ≤ path.length + 512 := by
  have hcolon : (bytes ": ").length = 2 := by decide
  cases e with
  | connect errno =>
      have hos := length_oserr_le errno
      have hto : (bytes "connecting to ").length = 14 := by decide
      have hask : (bytes " (is phictl boot --serve running?): ").length = 36 := by decide
      refine .inr ⟨⟨errno, rfl⟩, ?_⟩
      rw [← Option.some.inj h]
      simp only [List.length_append]
      omega
  | socket errno =>
      have hos := length_oserr_le errno
      have hwhat : (bytes "socket").length = 6 := by decide
      left
      rw [← Option.some.inj h]
      simp only [List.length_append]
      omega
  | read errno =>
      have hos := length_oserr_le errno
      have hwhat : (bytes "waiting for the daemon's reply").length = 30 := by decide
      left
      rw [← Option.some.inj h]
      simp only [List.length_append]
      omega
  | write => exact .inl (by rw [← Option.some.inj h]; decide)
  | timeout => exact .inl (by rw [← Option.some.inj h]; decide)
  | badframe => exact .inl (by rw [← Option.some.inj h]; decide)
  | closed => exact .inl (by rw [← Option.some.inj h]; decide)
  | reply tag body => exact nomatch h

theorem unexpectedMessage_length {tag : UInt8} {m : List UInt8}
    (h : unexpectedMessage tag = some m) : m.length ≤ 512 := by
  obtain ⟨t, -, rfl⟩ := Option.map_eq_some_iff.mp h
  cases t <;> decide

theorem cardMessage_length (body : List UInt8) : (cardMessage body).length ≤ 6 + 65535 := by
  have hcard : (bytes "card: ").length = 6 := by decide
  have hcount : ofLe (body.take 2) < 256 ^ 2 := Nat.lt_of_lt_of_le (ofLe_lt _)
    (Nat.pow_le_pow_right (by decide) (List.length_take_le 2 body))
  unfold cardMessage
  rw [List.length_append, List.length_take]
  omega

/-- **No message reaches the history.** -/
theorem failure_inside {path m : List UInt8} {o : Around} {s : SlotMem} {a b : Answers}
    (h : Fits path o s a b) (hm : failure path a.ends b.ends = some m) :
    slError + m.length ≤ slSeen := by
  have hroom : slError + (6 + 65535) ≤ slSeen := by decide
  have hshort : ∀ e : Ends, e.message path = some m →
      ((∃ errno, e = .connect errno) → path.length < 512) → slError + m.length ≤ slSeen := by
    intro e he hconnect
    obtain hlen | ⟨hc, hlen⟩ := Ends.message_length he
    · omega
    · have := hconnect hc
      omega
  cases ha : a.ends with
  | reply tag body =>
      rw [ha] at hm
      unfold failure at hm
      dsimp only at hm
      split at hm
      · next htag =>
          have hstat : ∃ body, a.ends = .reply (Tag.toByte .statReply) body :=
            ⟨body, by rw [ha, htag]⟩
          cases hb : b.ends with
          | reply tag' body' =>
              rw [hb] at hm
              unfold failureTraffic at hm
              dsimp only at hm
              split at hm
              · exact nomatch hm
              · have := unexpectedMessage_length hm
                omega
          | _ =>
              rw [hb] at hm
              exact hshort b.ends (by rw [hb]; exact hm) fun ⟨errno, hc⟩ =>
                h.connects errno (.inr ⟨hstat, hc⟩)
      · split at hm
        · have := cardMessage_length body
          rw [← Option.some.inj hm]
          omega
        · have := unexpectedMessage_length hm
          omega
  | _ =>
      rw [ha] at hm
      exact hshort a.ends (by rw [ha]; exact hm) fun ⟨errno, hc⟩ => h.connects errno (.inl hc)

/-! ## short paths -/

/-- A path as long as a socket's name can be leaves the windows alone, and a
message of 432 bytes the derived record. -/
theorem fits_of_short {path : List UInt8} {o : Around} {s : SlotMem} {a b : Answers}
    (hpath : path.length < 118) (hwindow : s.Readable o.stats)
    (hmessage : ∀ m, failure path a.ends b.ends = some m → m.length ≤ 432) :
    Fits path o s a b where
  connects _ _ := by omega
  stats _ := by
    have hmap : (s.sent path a).vpuMap = s.vpuMap := by
      have hnumber := (s.sent_same path a).2.2.2
      unfold SlotMem.vpuMap SlotMem.sockaddr
      rw [hnumber]
      refine congrArg (fun bs => UInt64.ofNat (ofLe bs)) (Circular.read_congr fun k _ => ?_)
      unfold SlotMem.sent
      split
      · refine Circular.write_of_not_mem _ (.inr ?_)
        rw [List.length_append, List.length_singleton]
        unfold SlotMem.sockaddr
        omega
      · rfl
    unfold SlotMem.Readable
    rw [hmap]
    exact hwindow
  message m hm i _ hlen := by
    have := hmessage m hm
    omega

/-- The first slot with a path, and nothing read so far. -/
def firstSlot (path : List UInt8) : SlotMem where
  number := 0
  mem := Circular.write (fun _ => 0) slSocket path
  mapped := maxSlots * slSize + Rpc.maxFrame
  seen := seenEmpty
  prev := none
  inTable := by decide
  room := by decide

theorem firstSlot_named {path : List UInt8} (h : 0 ∉ path) (hshort : path.length < 131072) :
    (firstSlot path).Named path where
  cstr :=
    { bytes := fun k hk => by
        show Circular.write (fun _ => 0) slSocket path (slSocket + k) = path[k]
        exact Circular.write_of_mem _ hk
      nonzero := h
      nul := by
        show Circular.write (fun _ => 0) slSocket path (slSocket + path.length) = 0
        exact Circular.write_of_not_mem _ (.inr (Nat.le_refl _)) }
  short := hshort

/-- A connection that is refused. -/
def refused : Answers := ⟨none, some 111, false, fun _ => 0, []⟩

def noWindow : Around := ⟨0, fun _ => none, fun _ _ => 0⟩

theorem refused_message (path : List UInt8) : failure path refused.ends refused.ends =
    some (bytes "connecting to " ++ path ++ bytes " (is phictl boot --serve running?): " ++
      oserr 111) := rfl

theorem firstSlot_readable {path : List UInt8} (hshort : path.length < 131072)
    (stats : UInt64 → Option VpuStats) : (firstSlot path).Readable stats := by
  have hreach := (firstSlot path).reach
  have hcells : Circular.read (firstSlot path).mem ((firstSlot path).sockaddr + 120 +
      8 * (firstSlot path).number) 8 = List.replicate 8 0 := by
    refine List.eq_replicate_iff.mpr ⟨Circular.length_read _ _ _, fun b hb => ?_⟩
    obtain ⟨k, -, rfl⟩ := List.mem_map.mp hb
    refine Circular.write_of_not_mem (fun _ => 0) (.inr ?_)
    unfold slSeen slDerived at hreach
    unfold slSocket
    omega
  left
  unfold SlotMem.vpuMap
  rw [hcells]
  decide

/-- The path of the daemon's socket. -/
def listening : List UInt8 := bytes "/run/phi/phictl.sock"

/-- Nobody listens there. -/
theorem poll_right_iff_refused :
    Polled.Right (firstSlot listening) (failure listening refused.ends refused.ends)
      (slotPoll noWindow (firstSlot listening) refused refused) := by
  have hlen : listening.length = 20 := by decide
  have hnamed : (firstSlot listening).Named listening := firstSlot_named (by decide) (by omega)
  have hwindow : (firstSlot listening).Readable noWindow.stats := firstSlot_readable (by omega) _
  refine (poll_right_iff noWindow (firstSlot listening) hnamed refused refused).mpr
    (fits_of_short (by omega) hwindow fun m hm => ?_)
  rw [refused_message] at hm
  rw [← Option.some.inj hm]
  decide +kernel

/-- A path of 400 bytes. -/
def longPath : List UInt8 := List.replicate 400 97

theorem refused_iff (o : Around) {s : SlotMem} {path : List UInt8} (hpath : s.Named path) :
    Polled.Right s (failure path refused.ends refused.ends) (slotPoll o s refused refused) ↔
      path.length < 512 ∧ s.Spares (bytes "connecting to " ++ path ++
        bytes " (is phictl boot --serve running?): " ++ oserr 111) := by
  have hne : ∀ tag body, refused.ends ≠ .reply tag body := nofun
  rw [slotPoll_fails hne, refused_message, right_request_iff (a := refused)
    ⟨fun _ _ => rfl, rfl, rfl⟩ hpath (refused_message path)]
  exact and_congr_left fun _ => ⟨fun h => h 111 rfl, fun h _ _ => h⟩

/-- With nothing behind it, the message covers the start of the derived record. -/
theorem poll_spoils_derived : (firstSlot longPath).Named longPath ∧
    ¬ Polled.Right (firstSlot longPath) (failure longPath refused.ends refused.ends)
      (slotPoll noWindow (firstSlot longPath) refused refused) := by
  have hlen : longPath.length = 400 := List.length_replicate
  have hnamed : (firstSlot longPath).Named longPath := by
    refine firstSlot_named (fun h => ?_) (by omega)
    exact absurd (List.eq_of_mem_replicate h) (by decide)
  have hfirst : (bytes "connecting to " ++ longPath ++
      bytes " (is phictl boot --serve running?): " ++ oserr 111)[432]? = some 45 := by
    decide +kernel
  obtain ⟨hin, hat⟩ := List.getElem?_eq_some_iff.mp hfirst
  have hzero : (firstSlot longPath).mem (slDerived + 0) = 0 := by
    show Circular.write (fun _ => 0) slSocket longPath (slDerived + 0) = 0
    refine Circular.write_of_not_mem _ (.inr ?_)
    rw [hlen]
    decide
  refine ⟨hnamed, mt (refused_iff noWindow hnamed).mp fun ⟨_, hspares⟩ => ?_⟩
  have hsame := hspares 0 (by decide) hin
  rw [hzero, hat] at hsame
  exact absurd hsame (by decide)

end Phi.Top
