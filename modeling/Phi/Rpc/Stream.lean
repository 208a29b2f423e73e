import Phi.Lib.Feed
import Phi.Rpc.RoundTrip

/-!
# Phi.Rpc.Stream

Messages through the incremental decoder, and how large their frames are.

What `Decoder` yields depends on the bytes alone, not on how they were cut, as
long as every frame is within the limit.  The encoder clips each string and
each list, but nothing bounds their sum: `Msg.size` is what the fields take,
and a frame is accepted exactly when it is below the limit.
-/

namespace Phi.Rpc

open Phi.Serve Utf8

/-! ## the decoder -/

/-- One turn of the loop around `next_frame`. -/
def decoderNext (buf : List UInt8) : Option (Except DecodeError Msg × List UInt8) :=
  match nextFrame buf with
  | (.ok none, _) => none
  | (.ok (some m), rest) => some (.ok m, rest)
  | (.error e, rest) => some (.error e, rest)

/-- `Decoder`: bytes pushed, frames taken until none is whole. -/
def decoder : Intake (List UInt8) (Except DecodeError Msg) UInt8 := listIntake decoderNext

/-- The body of the frame, tag plus fields. -/
def Msg.body (m : Msg) : List UInt8 := m.tag.toByte :: m.fields

theorem Msg.length_encode (m : Msg) : m.encode.length = 4 + m.body.length := by
  unfold encode body putU32
  rw [List.length_append, length_leBytes]

/-- A whole frame is taken or reported, and its bytes are gone. -/
theorem decoderNext_eq {buf : List UInt8} {len : Nat} (hlen : ofLe (buf.take 4) = len)
    (h4 : 4 ≤ buf.length) (hpos : len ≠ 0) (hmax : len ≤ maxFrame) :
    decoderNext buf = if buf.length < 4 + len then none else
      some (decodeBody (buf.getD 4 0) ((buf.take (4 + len)).drop 5), buf.drop (4 + len)) := by
  unfold decoderNext nextFrame
  dsimp only
  rw [if_neg (by omega), hlen, if_neg (by omega)]
  by_cases hshort : buf.length < 4 + len
  · rw [if_pos hshort, if_pos hshort]
  · rw [if_neg hshort, if_neg hshort]
    cases decodeBody (buf.getD 4 0) ((buf.take (4 + len)).drop 5) with
    | ok m => rfl
    | error e => rfl

theorem decoderNext_short {buf : List UInt8} (h : buf.length < 4) : decoderNext buf = none := by
  unfold decoderNext nextFrame
  rw [if_pos h]

/-- A length out of range loses everything buffered. -/
theorem decoderNext_badLength {buf : List UInt8} (h4 : 4 ≤ buf.length)
    (hlen : ofLe (buf.take 4) = 0 ∨ maxFrame < ofLe (buf.take 4)) :
    decoderNext buf = some (.error (.length (ofLe (buf.take 4))), []) := by
  unfold decoderNext nextFrame
  dsimp only
  rw [if_neg (by omega), if_pos hlen]

/-- Each turn takes bytes off. -/
theorem decoder_shrinks : decoder.Shrinks := by
  intro buf e rest h
  have hnext : decoderNext buf = some (e, rest) := h
  show rest.length < buf.length
  by_cases h4 : buf.length < 4
  · rw [decoderNext_short h4] at hnext
    cases hnext
  · by_cases hlen : ofLe (buf.take 4) = 0 ∨ maxFrame < ofLe (buf.take 4)
    · rw [decoderNext_badLength (by omega) hlen] at hnext
      cases hnext
      rw [List.length_nil]
      omega
    · rw [decoderNext_eq rfl (by omega) (by omega) (by omega)] at hnext
      split at hnext
      · cases hnext
      · cases hnext
        rw [List.length_drop]
        omega

/-! ## messages in, messages out -/

section

variable {m : Msg}

/-- The length field of a frame within the limit. -/
theorem ofLe_encode (hfit : m.body.length ≤ maxFrame) {p more : List UInt8}
    (hp : m.encode = p ++ more) (h4 : 4 ≤ p.length) : ofLe (p.take 4) = m.body.length := by
  have hsmall : 1 + m.fields.length < 256 ^ 4 := by
    unfold Msg.body at hfit
    rw [List.length_cons] at hfit
    unfold maxFrame at hfit
    omega
  have htake : p.take 4 = m.encode.take 4 := by
    rw [hp, List.take_append_of_le_length h4]
  have hfield : m.encode.take 4 = leBytes 4 (1 + m.fields.length) := by
    unfold Msg.encode putU32
    rw [UInt32.toNat_ofNat_of_lt' (by unfold UInt32.size; omega)]
    exact List.take_left' (length_leBytes _ _)
  rw [htake, hfield, ofLe_leBytes hsmall]
  unfold Msg.body
  rw [List.length_cons, Nat.add_comm]

/-- A frame is taken whole, whatever follows. -/
theorem decoderNext_encode (hfit : m.body.length ≤ maxFrame) (more : List UInt8) :
    decoderNext (m.encode ++ more) = some (.ok m.normal, more) := by
  have htotal := m.length_encode
  have hbody : m.body.length = 1 + m.fields.length := by
    unfold Msg.body
    rw [List.length_cons, Nat.add_comm]
  have hlen : ofLe ((m.encode ++ more).take 4) = m.body.length := by
    rw [List.take_append_of_le_length (by omega)]
    exact ofLe_encode hfit (List.append_nil _).symm (by omega)
  have h4 : 4 ≤ (m.encode ++ more).length := by
    rw [List.length_append]
    omega
  have hwhole : ¬ (m.encode ++ more).length < 4 + m.body.length := by
    rw [List.length_append]
    omega
  have hhead : m.encode ++ more = putU32 (UInt32.ofNat (1 + m.fields.length)) ++
      (m.tag.toByte :: (m.fields ++ more)) := by
    unfold Msg.encode
    rw [List.append_assoc, List.cons_append]
  have hput : (putU32 (UInt32.ofNat (1 + m.fields.length))).length = 4 := length_leBytes _ _
  have htag : (m.encode ++ more).getD 4 0 = m.tag.toByte := by
    rw [hhead, List.getD_eq_getElem?_getD, List.getElem?_append_right (by omega), hput]
    rfl
  have hfields : ((m.encode ++ more).take (4 + m.body.length)).drop 5 = m.fields := by
    rw [← htotal, List.take_left]
    unfold Msg.encode
    rw [List.drop_append, List.drop_eq_nil_of_le (by omega), hput]
    rfl
  rw [decoderNext_eq hlen h4 (by omega) hfit, if_neg hwhole, htag, hfields, decodeBody_fields,
    ← htotal, List.drop_left]

/-- A frame that has not arrived whole is waited for. -/
theorem decoderNext_part (hfit : m.body.length ≤ maxFrame) {p more : List UInt8}
    (hp : m.encode = p ++ more) (hmore : more ≠ []) : decoderNext p = none := by
  have htotal := m.length_encode
  have hsplit := congrArg List.length hp
  rw [List.length_append] at hsplit
  have hpos := List.length_pos_iff.mpr hmore
  by_cases h4 : p.length < 4
  · exact decoderNext_short h4
  · have hbody : m.body.length ≠ 0 := by
      unfold Msg.body
      rw [List.length_cons]
      omega
    rw [decoderNext_eq (ofLe_encode hfit hp (by omega)) (by omega) hbody hfit, if_pos (by omega)]

end

/-- **Messages come out as they went in**, normalised, for every cutting of
their frames, and nothing is left pending. -/
theorem messages_arrive (ms : List Msg) (hfit : ∀ m ∈ ms, m.body.length ≤ maxFrame)
    (chunks : List (List UInt8)) (hcut : chunks.flatten = ms.flatMap Msg.encode) :
    decoder.feed [] chunks = (ms.map fun m => .ok m.normal, []) := by
  have hrec : Recognises decoderNext Msg.encode (fun m => .ok m.normal) ms := {
    shrinks := decoder_shrinks
    nil := rfl
    whole := fun m hm more => decoderNext_encode (hfit m hm) more
    part := fun m hm p more hp hmore => decoderNext_part (hfit m hm) hp hmore }
  exact hrec.feed hcut rfl

/-- A ping and an exit status, cut inside the second length. -/
theorem messages_arrive_cut :
    decoder.feed [] [[1, 0, 0], [0, 14, 5, 0], [0, 0, 6, 3, 0, 0, 0]] =
      ([Msg.ping, Msg.exit 3].map fun m => .ok m.normal, []) :=
  messages_arrive [.ping, .exit 3] (by decide) _ (by decide)

end Phi.Rpc
