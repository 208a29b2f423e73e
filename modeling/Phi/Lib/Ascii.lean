import Mathlib.Data.List.DropRight
import Phi.Lib.Utf8

/-!
# Phi.Lib.Ascii

UTF-8 text cut at ASCII bytes.

A byte below 0x80 is a character of its own, so what stands on either side of
one in a text is a text too: whole characters, whatever they are.  So are the
fields that a scanner finds which only looks for such bytes.
-/

namespace Phi.Utf8

/-- Bytes that are whole characters. -/
def IsText (bs : List UInt8) : Prop := ∃ cs, bs = encode cs

/-- A character that is one byte. -/
def IsAscii (b : UInt8) : Prop := b.toNat < 0x80

instance (b : UInt8) : Decidable (IsAscii b) := inferInstanceAs (Decidable (_ < _))

@[simp] theorem isText_nil : IsText [] := ⟨[], rfl⟩

theorem isText_bytes (s : String) : IsText (bytes s) := ⟨s.toList, rfl⟩

theorem isSome_decode_iff_isText {bs : List UInt8} : (decode bs).isSome = true ↔ IsText bs :=
  isSome_decode_iff

theorem IsText.append {bs cs : List UInt8} (hb : IsText bs) (hc : IsText cs) :
    IsText (bs ++ cs) := by
  obtain ⟨ds, rfl⟩ := hb
  obtain ⟨es, rfl⟩ := hc
  exact ⟨ds ++ es, (encode_append ds es).symm⟩

/-- The text that the bytes are, empty where they are none. -/
def asText (bs : List UInt8) : String := (decode bs).getD ""

theorem bytes_asText {bs : List UInt8} (h : IsText bs) : bytes (asText bs) = bs := by
  obtain ⟨s, hs⟩ := Option.isSome_iff_exists.1 (isSome_decode_iff_isText.2 h)
  rw [asText, hs, Option.getD_some]
  exact bytes_of_decode hs

/-! ## cut at a byte -/

section cut

variable {b : UInt8} {bs cs : List UInt8}

/-- The first byte of a character decides how long it is. -/
theorem IsAscii.isText_cons (hb : IsAscii b) : IsText (b :: cs) ↔ IsText cs := by
  unfold IsText
  rw [exists_encode_cons_iff]
  constructor
  · rintro ⟨tl, rest, rfl, henc, cs', rfl⟩
    have hnil : tl = [] := by
      unfold IsAscii at hb
      cases henc with
      | one _ => rfl
      | two _ _ _ => omega
      | three _ _ _ _ _ _ => omega
      | four _ _ _ _ _ _ _ => omega
    exact ⟨cs', by rw [hnil, List.nil_append]⟩
  · rintro ⟨cs', rfl⟩
    exact ⟨[], encode cs', rfl, .one hb, cs', rfl⟩

theorem IsAscii.not_isTail (hb : IsAscii b) : isTail b = false := by
  rw [Bool.eq_false_iff, ne_eq, isTail_iff]
  unfold IsAscii at hb
  omega

/-- **A text splits at an ASCII byte** into two texts. -/
theorem IsAscii.isText_append_cons (hb : IsAscii b) :
    IsText (bs ++ b :: cs) ↔ IsText bs ∧ IsText cs := by
  constructor
  · rintro ⟨ds, hds⟩
    induction ds generalizing bs with
    | nil => simp at hds
    | cons d ds ih =>
        obtain ⟨a, tl, hd, -, htl⟩ := (encoded_utf8EncodeChar d).tails
        rw [encode_cons] at hds
        rcases List.append_eq_append_iff.1 hds with ⟨ms, hms, hcs⟩ | ⟨ms, hms, hcs⟩
        · -- the byte stands in the character, so it is the character's first
          cases bs with
          | nil =>
              have htext : IsText (b :: cs) :=
                ⟨d :: ds, by rw [encode_cons, ← hds, List.nil_append]⟩
              exact ⟨isText_nil, hb.isText_cons.1 htext⟩
          | cons x xs =>
              cases ms with
              | nil =>
                  rw [List.append_nil] at hms
                  rw [List.nil_append] at hcs
                  have hwhole : IsText (b :: cs) := ⟨ds, hcs⟩
                  refine ⟨⟨[d], ?_⟩, hb.isText_cons.1 hwhole⟩
                  rw [encode_cons, encode_nil, List.append_nil, hms]
              | cons m ms =>
                  have hm : m = b := (List.cons.inj hcs).1.symm
                  rw [hd, List.cons_append] at hms
                  have hmem : m ∈ tl := by
                    rw [(List.cons.inj hms).2]
                    simp
                  have hnot := hb.not_isTail
                  rw [← hm, htl m hmem] at hnot
                  cases hnot
        · obtain ⟨hleft, hright⟩ := ih hcs.symm
          obtain ⟨es, rfl⟩ := hleft
          exact ⟨⟨d :: es, by rw [hms, encode_cons]⟩, hright⟩
  · rintro ⟨hbs, hcs⟩
    exact hbs.append (hb.isText_cons.2 hcs)

theorem IsAscii.isText_append (hb : IsAscii b) : IsText (bs ++ [b]) ↔ IsText bs := by
  rw [hb.isText_append_cons, and_iff_left isText_nil]

/-- On either side of an ASCII byte at a given place. -/
theorem IsText.sides {i : Nat} (h : IsText bs) (hi : bs[i]? = some b) (hb : IsAscii b) :
    IsText (bs.take i) ∧ IsText (bs.drop (i + 1)) := by
  obtain ⟨hlt, hget⟩ := List.getElem?_eq_some_iff.1 hi
  rw [← List.take_append_drop i bs, List.drop_eq_getElem_cons hlt, hget] at h
  exact hb.isText_append_cons.1 h

end cut

/-! ## cut by a scanner -/

section scan

variable {p : UInt8 → Bool} {bs : List UInt8}

theorem dropWhile_eq_cons {b : UInt8} {rest : List UInt8} (h : bs.dropWhile p = b :: rest) :
    p b = false := by
  have hhead := List.head?_dropWhile_not p bs
  rw [h] at hhead
  exact hhead

/-- A scanner that stops at ASCII bytes only cuts a text in two. -/
theorem IsText.span (hp : ∀ b, p b = false → IsAscii b) (h : IsText bs) :
    IsText (bs.takeWhile p) ∧ IsText (bs.dropWhile p) := by
  rw [← List.takeWhile_append_dropWhile (p := p) (l := bs)] at h
  cases hrest : bs.dropWhile p with
  | nil =>
      rw [hrest, List.append_nil] at h
      exact ⟨h, isText_nil⟩
  | cons b rest =>
      have hb := hp b (dropWhile_eq_cons hrest)
      rw [hrest] at h
      obtain ⟨hleft, hright⟩ := hb.isText_append_cons.1 h
      exact ⟨hleft, hb.isText_cons.2 hright⟩

/-- So does one that passes over ASCII bytes only. -/
theorem IsText.dropWhile (hp : ∀ b, p b = true → IsAscii b) (h : IsText bs) :
    IsText (bs.dropWhile p) := by
  induction bs with
  | nil => exact h
  | cons b bs ih =>
      rw [List.dropWhile_cons]
      split
      · next hb => exact ih ((hp b hb).isText_cons.1 h)
      · exact h

/-- At the other end as well. -/
theorem IsText.rdropWhile (hp : ∀ b, p b = true → IsAscii b) (h : IsText bs) :
    IsText (bs.rdropWhile p) := by
  induction bs using List.reverseRecOn with
  | nil => exact h
  | append_singleton bs b ih =>
      rw [List.rdropWhile_concat]
      split
      · next hb => exact ih ((hp b hb).isText_append.1 h)
      · exact h

end scan

end Phi.Utf8
