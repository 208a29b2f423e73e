import Phi.Lib.Bytes
import Phi.Ring.Link

/-!
# Phi.Net.Record

Records of the network channel: the length of a frame, the frame, and padding to
a multiple of 4 bytes.

What the padding holds is not fixed: the host writes zeros, the card leaves what
was there.  A stream of whole records can be cut at its lengths wherever it
breaks off.
-/

namespace Phi.Net

/-- The longest frame. -/
def maxEthFrame : Nat := 1518

/-- The length before a frame. -/
def recHdr : Nat := 2

/-- The size of a record: `ALIGN(PHI_NET_HDR + len, PHI_NET_ALIGN)`. -/
def recordSize (len : Nat) : Nat := (recHdr + len + 3) / 4 * 4

/-- The length of a frame, as it is written. -/
def header (frame : List UInt8) : List UInt8 := leBytes recHdr frame.length

/-- A frame of the network: not empty, and no longer than Ethernet allows. -/
structure Frame where
  bytes : List UInt8
  nonempty : 0 < bytes.length
  fits : bytes.length ≤ maxEthFrame

/-- A record: its frame, and its padding. -/
structure Record where
  frame : Frame
  pad : List UInt8
  aligned : recHdr + frame.bytes.length + pad.length = recordSize frame.bytes.length

namespace Record

/-- The bytes of a record. -/
def bytes (r : Record) : List UInt8 := header r.frame.bytes ++ (r.frame.bytes ++ r.pad)

theorem length_bytes (r : Record) : r.bytes.length = recordSize r.frame.bytes.length := by
  have hlen : r.bytes.length = recHdr + r.frame.bytes.length + r.pad.length := by
    simp only [bytes, header, List.length_append, length_leBytes]
    omega
  rw [hlen, r.aligned]

theorem length_pos (r : Record) : recHdr ≤ r.bytes.length := by
  rw [r.length_bytes]
  unfold recordSize recHdr
  omega

theorem length_le (r : Record) : r.bytes.length ≤ recordSize maxEthFrame := by
  have hfits := r.frame.fits
  rw [r.length_bytes]
  unfold recordSize recHdr
  omega

theorem ofLe_header (f : Frame) : ofLe (header f.bytes) = f.bytes.length := by
  have hfits := f.fits
  have hlt : f.bytes.length < 256 ^ recHdr := Nat.lt_of_le_of_lt hfits (by decide)
  exact ofLe_leBytes hlt

theorem length_header (frame : List UInt8) : (header frame).length = recHdr := length_leBytes _ _

/-- The first bytes give the length. -/
theorem take_hdr (r : Record) (rest : List UInt8) :
    ofLe ((r.bytes ++ rest).take recHdr) = r.frame.bytes.length := by
  rw [bytes, List.append_assoc, List.take_left' (length_header _), ofLe_header]

/-- The frame follows it. -/
theorem take_frame (r : Record) (rest : List UInt8) :
    ((r.bytes ++ rest).drop recHdr).take r.frame.bytes.length = r.frame.bytes := by
  rw [bytes, List.append_assoc, List.drop_left' (length_header _), List.append_assoc,
    List.take_left' rfl]

theorem drop_record (r : Record) (rest : List UInt8) :
    (r.bytes ++ rest).drop (recordSize r.frame.bytes.length) = rest :=
  List.drop_left' r.length_bytes

end Record

/-! ## cutting -/

/-- The bytes of records one after the other. -/
def stream (rs : List Record) : List UInt8 := rs.flatMap Record.bytes

@[simp] theorem stream_nil : stream [] = [] := rfl

@[simp] theorem stream_cons (r : Record) (rs : List Record) :
    stream (r :: rs) = r.bytes ++ stream rs := rfl

@[simp] theorem stream_append (rs qs : List Record) : stream (rs ++ qs) = stream rs ++ stream qs :=
  List.flatMap_append ..

/-- What is at the start of the bytes that came. -/
inductive Cut where
  | short
  | bad
  | record (frame rest : List UInt8)
deriving DecidableEq

/-- The loop of `net_recv` and of `net_step` over the bytes that came. -/
def cut (inbound : List UInt8) : Cut :=
  if inbound.length < recHdr then .short
  else
    let len := ofLe (inbound.take recHdr)
    if len = 0 ∨ maxEthFrame < len then .bad
    else if inbound.length < recordSize len then .short
    else .record ((inbound.drop recHdr).take len) (inbound.drop (recordSize len))

/-- **A stream of records, cut wherever it breaks off**, gives its first record,
or it breaks off before the end of that. -/
theorem cut_of_stream {rs : List Record} {inbound coming : List UInt8}
    (h : stream rs = inbound ++ coming) :
    (cut inbound = .short ∧ inbound.length < recordSize maxEthFrame ∧
      (rs ≠ [] → coming ≠ [])) ∨
    ∃ r rs' left, rs = r :: rs' ∧ cut inbound = .record r.frame.bytes left ∧
      inbound = r.bytes ++ left ∧ stream rs' = left ++ coming := by
  cases rs with
  | nil =>
      obtain ⟨rfl, rfl⟩ := List.append_eq_nil_iff.mp h.symm
      exact .inl ⟨rfl, by decide, fun hne => absurd rfl hne⟩
  | cons r rs =>
      rw [stream_cons] at h
      have hfits := r.length_le
      have hlen := congrArg List.length h
      rw [List.length_append, List.length_append] at hlen
      by_cases hwhole : r.bytes.length ≤ inbound.length
      · -- the record came whole
        obtain ⟨left, rfl⟩ : r.bytes <+: inbound :=
          List.prefix_of_prefix_length_le ⟨stream rs, rfl⟩ ⟨coming, h.symm⟩ hwhole
        rw [List.append_assoc] at h
        refine .inr ⟨r, rs, left, rfl, ?_, rfl, List.append_cancel_left h⟩
        have hhdr : ¬ (r.bytes ++ left).length < recHdr := by
          have := r.length_pos
          rw [List.length_append]
          omega
        have hgood : ¬ (r.frame.bytes.length = 0 ∨ maxEthFrame < r.frame.bytes.length) := by
          have hnonempty := r.frame.nonempty
          have hframe := r.frame.fits
          omega
        have hroom : ¬ (r.bytes ++ left).length < recordSize r.frame.bytes.length := by
          rw [List.length_append, r.length_bytes]
          omega
        unfold cut
        rw [if_neg hhdr]
        dsimp only
        rw [r.take_hdr, if_neg hgood, if_neg hroom, r.take_frame, r.drop_record]
      · -- it did not
        have hlt : inbound.length < r.bytes.length := Nat.lt_of_not_le hwhole
        refine .inl ⟨?_, by omega, fun _ hnil => ?_⟩
        · unfold cut
          by_cases hhdr : inbound.length < recHdr
          · rw [if_pos hhdr]
          · rw [if_neg hhdr]
            have htake : ofLe (inbound.take recHdr) = r.frame.bytes.length := by
              rw [← r.take_hdr (stream rs), h,
                List.take_append_of_le_length (Nat.le_of_not_lt hhdr)]
            have hgood : ¬ (r.frame.bytes.length = 0 ∨ maxEthFrame < r.frame.bytes.length) := by
              have hnonempty := r.frame.nonempty
              have hframe := r.frame.fits
              omega
            rw [r.length_bytes] at hlt
            dsimp only
            rw [htake, if_neg hgood, if_pos hlt]
        · rw [hnil, List.append_nil] at h
          rw [← h, List.length_append] at hlt
          omega

end Phi.Net
