import Phi.Rpc.Stream

/-!
# Phi.Rpc.Resync

The decoder stays in step with the frames.

A call waits, or takes exactly one frame off whatever is wrong inside it, or
gives up everything buffered for a length it cannot believe; as long as the
last does not happen, what comes out depends on the bytes alone.
-/

namespace Phi.Rpc

/-! ## one call -/

/-- The length field. -/
def frameLength (buf : List UInt8) : Nat := ofLe (buf.take 4)

/-- No frame is whole yet. -/
def Incomplete (buf : List UInt8) : Prop :=
  buf.length < 4 ∨
    (0 < frameLength buf ∧ frameLength buf ≤ maxFrame ∧ buf.length < 4 + frameLength buf)

/-- Nothing is taken, one frame is, or everything is lost. -/
def OneFrame (buf : List UInt8) : Prop :=
  (Incomplete buf ∧ nextFrame buf = (.ok none, buf)) ∨
    (∃ len, frameLength buf = len ∧ 0 < len ∧ len ≤ maxFrame ∧ 4 + len ≤ buf.length ∧
      nextFrame buf = ((decodeBody (buf.getD 4 0) ((buf.take (4 + len)).drop 5)).map some,
        buf.drop (4 + len))) ∨
    (4 ≤ buf.length ∧ (frameLength buf = 0 ∨ maxFrame < frameLength buf) ∧
      nextFrame buf = (.error (.length (frameLength buf)), []))

theorem oneFrame (buf : List UInt8) : OneFrame buf := by
  unfold OneFrame Incomplete frameLength nextFrame
  by_cases h4 : buf.length < 4
  · exact .inl ⟨.inl h4, if_pos h4⟩
  · rw [if_neg h4]
    dsimp only
    by_cases hlen : ofLe (buf.take 4) = 0 ∨ maxFrame < ofLe (buf.take 4)
    · exact .inr (.inr ⟨by omega, hlen, if_pos hlen⟩)
    · rw [if_neg hlen]
      by_cases hshort : buf.length < 4 + ofLe (buf.take 4)
      · exact .inl ⟨.inr ⟨by omega, by omega, hshort⟩, if_pos hshort⟩
      · exact .inr (.inl ⟨_, rfl, by omega, by omega, by omega, if_neg hshort⟩)

/-! ## a run of calls -/

/-- Anything but a bad length. -/
def InSync (e : Except DecodeError Msg) : Prop := ∀ n, e ≠ .error (.length n)

theorem decodeBody_inSync (tag : UInt8) (body : List UInt8) : InSync (decodeBody tag body) := by
  intro n
  unfold decodeBody
  split
  · exact fun h => by cases h
  · split
    · exact fun h => by cases h
    · exact fun h => by cases h

/-- More input changes no frame, and no bad length. -/
theorem decoder_stable : Stable decoderNext InSync := by
  have htake : ∀ {b : List UInt8} (c : List UInt8), 4 ≤ b.length →
      ofLe ((b ++ c).take 4) = ofLe (b.take 4) := fun c h4 => by
    rw [List.take_append_of_le_length h4]
  -- what a call that takes something off found
  have hcases : ∀ {b e t}, decoderNext b = some (e, t) → 4 ≤ b.length ∧
      ((ofLe (b.take 4) = 0 ∨ maxFrame < ofLe (b.take 4)) ∧
          e = .error (.length (ofLe (b.take 4))) ∨
        (ofLe (b.take 4) ≠ 0 ∧ ofLe (b.take 4) ≤ maxFrame ∧ 4 + ofLe (b.take 4) ≤ b.length ∧
          e = decodeBody (b.getD 4 0) ((b.take (4 + ofLe (b.take 4))).drop 5) ∧
          t = b.drop (4 + ofLe (b.take 4)))) := by
    intro b e t h
    by_cases h4 : b.length < 4
    · rw [decoderNext_short h4] at h
      cases h
    · refine ⟨by omega, ?_⟩
      by_cases hlen : ofLe (b.take 4) = 0 ∨ maxFrame < ofLe (b.take 4)
      · rw [decoderNext_badLength (by omega) hlen] at h
        cases h
        exact .inl ⟨hlen, rfl⟩
      · rw [decoderNext_eq rfl (by omega) (by omega) (by omega)] at h
        split at h
        · cases h
        · cases h
          exact .inr ⟨by omega, by omega, by omega, rfl, rfl⟩
  constructor
  case shrinks => exact decoder_shrinks
  case good =>
    intro b e t c h hgood
    obtain ⟨h4, ⟨-, rfl⟩ | ⟨hpos, hmax, hwhole, rfl, rfl⟩⟩ := hcases h
    · exact absurd rfl (hgood _)
    · have htag : (b ++ c).getD 4 0 = b.getD 4 0 := by
        rw [List.getD_eq_getElem?_getD, List.getD_eq_getElem?_getD,
          List.getElem?_append_left (by omega)]
      rw [decoderNext_eq (htake c h4) (by rw [List.length_append]; omega) hpos hmax,
        if_neg (by rw [List.length_append]; omega), htag, List.take_append_of_le_length hwhole,
        List.drop_append_of_le_length hwhole]
  case bad =>
    intro b e t c h hbad
    obtain ⟨h4, ⟨hlen, rfl⟩ | ⟨-, -, -, rfl, -⟩⟩ := hcases h
    · refine ⟨[], ?_⟩
      rw [decoderNext_badLength (by rw [List.length_append]; omega)
        (by rw [htake c h4]; exact hlen), htake c h4]
    · exact absurd (decodeBody_inSync _ _) hbad

/-- A run of calls takes no more frames than there are bytes. -/
theorem length_drainN (n : Nat) (buf : List UInt8) : (decoder.drainN n buf).1.length ≤ n := by
  induction n generalizing buf with
  | zero => exact Nat.le_refl 0
  | succ n ih =>
      rw [Intake.drainN]
      split
      · exact Nat.zero_le _
      · exact Nat.succ_le_succ (ih _)

/-- **The decoder resynchronises**: each call takes one frame, waits or gives
everything up, a run of calls ends with one that waits, and until a bad length
the results are the same however the bytes are cut. -/
theorem decoder_in_step (buf : List UInt8) :
    OneFrame buf ∧
      (decoderNext (decoder.drain buf).2 = none ∧ (decoder.drain buf).1.length ≤ buf.length) ∧
      ∀ cs ds : List (List UInt8), decoderNext buf = none → cs.flatten = ds.flatten →
        (∀ e ∈ (decoder.feed buf cs).1, InSync e) → decoder.feed buf ds = decoder.feed buf cs :=
  ⟨oneFrame buf, ⟨Intake.next_drain decoder_shrinks buf, length_drainN _ buf⟩,
    fun _ _ hidle hcut hsync => decoder_stable.feed_congr hidle hcut hsync⟩

/-- A frame with an unknown tag between two pings, whole and byte by byte. -/
theorem decoder_in_step_unknown :
    decoder.feed [] ([1, 0, 0, 0, 14, 2, 0, 0, 0, 200, 7, 1, 0, 0, 0, 14].map fun b => [b]) =
      decoder.feed [] [[1, 0, 0, 0, 14, 2, 0, 0, 0, 200, 7, 1, 0, 0, 0, 14]] := by
  refine (decoder_in_step []).2.2 _ _ rfl rfl ?_
  intro e he n
  have hall : (decoder.feed [] [[1, 0, 0, 0, 14, 2, 0, 0, 0, 200, 7, 1, 0, 0, 0, 14]]).1 =
      [.ok .ping, .error (.tag 200), .ok .ping] := by decide
  rw [hall] at he
  simp only [List.mem_cons, List.not_mem_nil, or_false] at he
  rcases he with rfl | rfl | rfl <;> exact fun h => by cases h

end Phi.Rpc
