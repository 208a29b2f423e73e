import Mathlib.Data.List.Basic

/-!
# Phi.Lib.Utf8

UTF-8 as byte lists, beside Lean's own strings.

`bytes` and `decode` are the encoding of a string and its reading back.
`Encoded` lists the byte sequences of single characters by their ranges, as a
program checks them, and `encoded_iff` says that they are the encodings.
`fitting` is the longest prefix of a text within a number of bytes, the one a
program finds by stepping back from the limit over continuation bytes.
-/

namespace Phi.Utf8

/-! ## strings and bytes -/

/-- The UTF-8 bytes of a text. -/
def encode (cs : List Char) : List UInt8 := cs.flatMap String.utf8EncodeChar

/-- The UTF-8 bytes of a string. -/
def bytes (s : String) : List UInt8 := encode s.toList

/-- The string with these bytes, if they are UTF-8. -/
def decode (bs : List UInt8) : Option String := String.fromUTF8? bs.toByteArray

@[simp] theorem encode_nil : encode [] = [] := rfl

@[simp] theorem encode_cons (c : Char) (cs : List Char) :
    encode (c :: cs) = String.utf8EncodeChar c ++ encode cs := rfl

@[simp] theorem encode_append (cs ds : List Char) : encode (cs ++ ds) = encode cs ++ encode ds :=
  List.flatMap_append

theorem encode_isPrefix {cs ds : List Char} (h : cs <+: ds) : encode cs <+: encode ds := by
  obtain ⟨more, rfl⟩ := h
  rw [encode_append]
  exact List.prefix_append _ _

theorem toByteArray_inj {bs cs : List UInt8} (h : bs.toByteArray = cs.toByteArray) : bs = cs := by
  have hdata := congrArg ByteArray.data h
  rw [List.data_toByteArray, List.data_toByteArray] at hdata
  simpa using congrArg Array.toList hdata

theorem toByteArray_bytes (s : String) : (bytes s).toByteArray = s.toByteArray :=
  String.utf8Encode_toList

/-- What is read back is what was written. -/
@[simp] theorem decode_bytes (s : String) : decode (bytes s) = some s := by
  have hvalid : (bytes s).toByteArray.IsValidUTF8 := by
    rw [toByteArray_bytes]
    exact s.isValidUTF8
  unfold decode String.fromUTF8?
  rw [dif_pos hvalid]
  congr 1
  rw [← String.toByteArray_inj]
  exact toByteArray_bytes s

/-- What decodes is the string's bytes. -/
theorem bytes_of_decode {bs : List UInt8} {s : String} (h : decode bs = some s) : bytes s = bs := by
  refine toByteArray_inj ?_
  rw [toByteArray_bytes]
  unfold decode String.fromUTF8? at h
  split at h
  · cases h
    rfl
  · exact nomatch h

/-- Only encodings of texts are read. -/
theorem isSome_decode_iff {bs : List UInt8} :
    (decode bs).isSome = true ↔ ∃ cs, bs = encode cs := by
  unfold decode String.fromUTF8?
  constructor
  · intro h
    split at h
    · next hvalid =>
        obtain ⟨cs, hcs⟩ := hvalid
        exact ⟨cs, toByteArray_inj hcs⟩
    · cases h
  · rintro ⟨cs, rfl⟩
    have hvalid : (encode cs).toByteArray.IsValidUTF8 := ⟨cs, rfl⟩
    rw [dif_pos hvalid]
    rfl

/-! ## the bytes of one character -/

/-- A continuation byte. -/
def isTail (b : UInt8) : Bool := 0x80 ≤ b ∧ b ≤ 0xbf

theorem isTail_iff {b : UInt8} : isTail b = true ↔ 128 ≤ b.toNat ∧ b.toNat ≤ 191 := by
  simp only [isTail, UInt8.le_iff_toNat_le, decide_eq_true_eq]
  rfl

/-- The byte sequences of single characters: no overlong form, no surrogate,
nothing past the last code point. -/
inductive Encoded : List UInt8 → Prop where
  | one {a : UInt8} : a.toNat < 0x80 → Encoded [a]
  | two {a b : UInt8} : 0xc2 ≤ a.toNat → a.toNat ≤ 0xdf → isTail b = true → Encoded [a, b]
  | three {a b c : UInt8} : 0xe0 ≤ a.toNat → a.toNat ≤ 0xef → isTail b = true →
      (a.toNat = 0xe0 → 0xa0 ≤ b.toNat) → (a.toNat = 0xed → b.toNat ≤ 0x9f) →
      isTail c = true → Encoded [a, b, c]
  | four {a b c d : UInt8} : 0xf0 ≤ a.toNat → a.toNat ≤ 0xf4 → isTail b = true →
      (a.toNat = 0xf0 → 0x90 ≤ b.toNat) → (a.toNat = 0xf4 → b.toNat ≤ 0x8f) →
      isTail c = true → isTail d = true → Encoded [a, b, c, d]

/-- The code point of a character. -/
theorem val_range (c : Char) :
    c.val.toNat < 0xd800 ∨ 0xdfff < c.val.toNat ∧ c.val.toNat < 0x110000 := c.valid

theorem toNat_val_ofNat {n : Nat} (h : n < 0xd800 ∨ 0xdfff < n ∧ n < 0x110000) :
    (Char.ofNat n).val.toNat = n := by
  have hv : n.isValidChar := h
  unfold Char.ofNat
  rw [dif_pos hv]
  rfl

theorem encoded_utf8EncodeChar (c : Char) : Encoded (String.utf8EncodeChar c) := by
  have hrange := val_range c
  unfold String.utf8EncodeChar
  dsimp only
  generalize c.val.toNat = v at hrange
  have hbyte : ∀ n, n < 256 → (UInt8.ofNat n).toNat = n := by
    intro n hn
    rw [UInt8.toNat_ofNat']
    omega
  split
  · exact .one (by rw [hbyte _ (by omega)]; omega)
  · split
    · refine .two ?_ ?_ (isTail_iff.mpr ?_)
      all_goals
        simp only [hbyte (v / 64 % 32 + 192) (by omega), hbyte (v % 64 + 128) (by omega)]
        omega
    · split
      · refine .three ?_ ?_ (isTail_iff.mpr ?_) ?_ ?_ (isTail_iff.mpr ?_)
        all_goals
          simp only [hbyte (v / 4096 % 16 + 224) (by omega),
            hbyte (v / 64 % 64 + 128) (by omega), hbyte (v % 64 + 128) (by omega)]
          omega
      · refine .four ?_ ?_ (isTail_iff.mpr ?_) ?_ ?_ (isTail_iff.mpr ?_) (isTail_iff.mpr ?_)
        all_goals
          simp only [hbyte (v / 262144 % 8 + 240) (by omega),
            hbyte (v / 4096 % 64 + 128) (by omega), hbyte (v / 64 % 64 + 128) (by omega),
            hbyte (v % 64 + 128) (by omega)]
          omega

/-- A byte is the number it holds. -/
theorem eq_ofNat {b : UInt8} {n : Nat} (h : n = b.toNat) : UInt8.ofNat n = b := by
  rw [h, UInt8.ofNat_toNat]

theorem Encoded.exists_char {bs : List UInt8} (h : Encoded bs) :
    ∃ c : Char, String.utf8EncodeChar c = bs := by
  cases h with
  | @one a ha =>
      refine ⟨Char.ofNat a.toNat, ?_⟩
      unfold String.utf8EncodeChar
      dsimp only
      rw [toNat_val_ofNat (by omega), if_pos (by omega), UInt8.ofNat_toNat]
  | @two a b ha ha' hb =>
      rw [isTail_iff] at hb
      have hval := toNat_val_ofNat (n := (a.toNat - 192) * 64 + (b.toNat - 128)) (by omega)
      refine ⟨Char.ofNat ((a.toNat - 192) * 64 + (b.toNat - 128)), ?_⟩
      unfold String.utf8EncodeChar
      dsimp only
      rw [hval, if_neg (by omega), if_pos (by omega), eq_ofNat (b := a) (by omega),
        eq_ofNat (b := b) (by omega)]
  | @three a b c ha ha' hb hlo hhi hc =>
      rw [isTail_iff] at hb hc
      have hval := toNat_val_ofNat
        (n := (a.toNat - 224) * 4096 + (b.toNat - 128) * 64 + (c.toNat - 128)) (by omega)
      refine ⟨Char.ofNat ((a.toNat - 224) * 4096 + (b.toNat - 128) * 64 + (c.toNat - 128)), ?_⟩
      unfold String.utf8EncodeChar
      dsimp only
      rw [hval, if_neg (by omega), if_neg (by omega), if_pos (by omega),
        eq_ofNat (b := a) (by omega), eq_ofNat (b := b) (by omega), eq_ofNat (b := c) (by omega)]
  | @four a b c d ha ha' hb hlo hhi hc hd =>
      rw [isTail_iff] at hb hc hd
      have hval := toNat_val_ofNat
        (n := (a.toNat - 240) * 262144 + (b.toNat - 128) * 4096 + (c.toNat - 128) * 64 +
          (d.toNat - 128)) (by omega)
      refine ⟨Char.ofNat ((a.toNat - 240) * 262144 + (b.toNat - 128) * 4096 +
        (c.toNat - 128) * 64 + (d.toNat - 128)), ?_⟩
      unfold String.utf8EncodeChar
      dsimp only
      rw [hval, if_neg (by omega), if_neg (by omega), if_neg (by omega),
        eq_ofNat (b := a) (by omega), eq_ofNat (b := b) (by omega), eq_ofNat (b := c) (by omega),
        eq_ofNat (b := d) (by omega)]

theorem encoded_iff {bs : List UInt8} : Encoded bs ↔ ∃ c, String.utf8EncodeChar c = bs :=
  ⟨Encoded.exists_char, fun ⟨c, hc⟩ => hc ▸ encoded_utf8EncodeChar c⟩

/-- One character after the other. -/
theorem exists_encode_cons_iff {a : UInt8} {bs : List UInt8} :
    (∃ cs, a :: bs = encode cs) ↔
      ∃ tl rest, bs = tl ++ rest ∧ Encoded (a :: tl) ∧ ∃ cs, rest = encode cs := by
  constructor
  · rintro ⟨cs, hcs⟩
    cases cs with
    | nil => cases hcs
    | cons c cs =>
        have henc := encoded_iff.mpr ⟨c, rfl⟩
        rw [encode_cons] at hcs
        cases hbytes : String.utf8EncodeChar c with
        | nil =>
            rw [hbytes] at henc
            cases henc
        | cons x tl =>
            rw [hbytes, List.cons_append] at hcs
            obtain ⟨rfl, htl⟩ := List.cons.inj hcs
            exact ⟨tl, encode cs, htl, hbytes ▸ henc, cs, rfl⟩
  · rintro ⟨tl, rest, rfl, henc, cs, rfl⟩
    obtain ⟨c, hc⟩ := henc.exists_char
    exact ⟨c :: cs, by rw [encode_cons, hc, List.cons_append]⟩

/-- Only the first byte of a character is no continuation byte. -/
theorem Encoded.tails {bs : List UInt8} (h : Encoded bs) :
    ∃ a tl, bs = a :: tl ∧ isTail a = false ∧ ∀ b ∈ tl, isTail b = true := by
  have hlead : ∀ a : UInt8, a.toNat < 0x80 ∨ 0xc2 ≤ a.toNat → isTail a = false := by
    intro a ha
    rw [Bool.eq_false_iff, ne_eq, isTail_iff]
    omega
  cases h with
  | @one a ha => exact ⟨a, [], rfl, hlead a (.inl ha), by simp⟩
  | @two a b ha ha' hb => exact ⟨a, [b], rfl, hlead a (.inr ha), by simp [hb]⟩
  | @three a b c ha ha' hb hlo hhi hc =>
      exact ⟨a, [b, c], rfl, hlead a (.inr (by omega)), by simp [hb, hc]⟩
  | @four a b c d ha ha' hb hlo hhi hc hd =>
      exact ⟨a, [b, c, d], rfl, hlead a (.inr (by omega)), by simp [hb, hc, hd]⟩

/-- A text starts with no continuation byte. -/
theorem head_bytes {s : String} {b : UInt8} (h : (bytes s).head? = some b) : isTail b = false := by
  cases hs : s.toList with
  | nil =>
      rw [bytes, hs] at h
      cases h
  | cons c cs =>
      obtain ⟨a, tl, hc, ha, -⟩ := (encoded_utf8EncodeChar c).tails
      rw [bytes, hs, encode_cons, hc] at h
      cases h
      exact ha

/-! ## the longest prefix that fits -/

/-- The characters from the front that together take at most `max` bytes. -/
def fitting : Nat → List Char → List Char
  | _, [] => []
  | max, c :: cs =>
      if c.utf8Size ≤ max then c :: fitting (max - c.utf8Size) cs else []

theorem fitting_isPrefix (max : Nat) (cs : List Char) : fitting max cs <+: cs := by
  induction cs generalizing max with
  | nil => exact List.nil_prefix
  | cons c cs ih =>
      rw [fitting]
      split
      · exact (List.cons_prefix_cons).2 ⟨rfl, ih _⟩
      · exact List.nil_prefix

/-- No longer prefix fits. -/
theorem prefix_fitting {max : Nat} {cs ds : List Char} (h : ds <+: cs)
    (hfits : (encode ds).length ≤ max) : ds <+: fitting max cs := by
  induction cs generalizing max ds with
  | nil => exact h
  | cons c cs ih =>
      cases ds with
      | nil => exact List.nil_prefix
      | cons d ds =>
          obtain ⟨rfl, htail⟩ := List.cons_prefix_cons.1 h
          rw [encode_cons, List.length_append, String.length_utf8EncodeChar] at hfits
          rw [fitting, if_pos (by omega)]
          exact List.cons_prefix_cons.2 ⟨rfl, ih htail (by omega)⟩

/-- A text within the limit is kept. -/
theorem fitting_eq_self {max : Nat} {cs : List Char} (h : (encode cs).length ≤ max) :
    fitting max cs = cs := by
  induction cs generalizing max with
  | nil => rfl
  | cons c cs ih =>
      rw [encode_cons, List.length_append, String.length_utf8EncodeChar] at h
      rw [fitting, if_pos (by omega), ih (by omega)]

/-- A longer text is cut where the next character would pass the limit. -/
theorem fitting_cut (max : Nat) (cs : List Char) (h : max < (encode cs).length) :
    ∃ c rest, cs = fitting max cs ++ c :: rest ∧ (encode (fitting max cs)).length ≤ max ∧
      max < (encode (fitting max cs)).length + c.utf8Size := by
  induction cs generalizing max with
  | nil =>
      rw [encode_nil, List.length_nil] at h
      omega
  | cons c cs ih =>
      rw [encode_cons, List.length_append, String.length_utf8EncodeChar] at h
      by_cases hfit : c.utf8Size ≤ max
      · obtain ⟨d, rest, hsplit, hle, hlt⟩ := ih (max - c.utf8Size) (by omega)
        rw [fitting, if_pos hfit]
        refine ⟨d, rest, ?_, ?_, ?_⟩
        · rw [List.cons_append, ← hsplit]
        · rw [encode_cons, List.length_append, String.length_utf8EncodeChar]
          omega
        · rw [encode_cons, List.length_append, String.length_utf8EncodeChar]
          omega
      · rw [fitting, if_neg hfit]
        refine ⟨c, cs, rfl, Nat.zero_le _, ?_⟩
        rw [encode_nil, List.length_nil]
        omega

theorem length_encode_fitting_le (max : Nat) (cs : List Char) :
    (encode (fitting max cs)).length ≤ max := by
  by_cases h : (encode cs).length ≤ max
  · rwa [fitting_eq_self h]
  · obtain ⟨c, rest, -, hle, -⟩ := fitting_cut max cs (by omega)
    exact hle

end Phi.Utf8
