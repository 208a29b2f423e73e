import Phi.Ctl.Numbers

/-!
# Phi.Top.Interval

The interval of the command line (`parse_seconds_ms` of `phitop/main.S`).

The fraction is brought to milliseconds by a loop that counts in `rcx`, from
the fraction's length up.  For an empty fraction the loop is entered past the
code that loads it, with the whole part's last digit in `rcx` and its
milliseconds in `rax`.
-/

namespace Phi.Top

open Ctl Decimal

/-! ## the code -/

/-- Label 2 of `parse_seconds_ms`: `rax` times ten until `rcx` is three. -/
def scale : Nat → UInt64 → UInt64 → UInt64
  | 0, _, rax => rax
  | n + 1, rcx, rax => if 3 ≤ rcx then rax else scale n (rcx + 1) (rax * 10)

/-- `parse_seconds_ms`; `rcx` is what `find_byte` leaves there. -/
def parseSecondsMs (text : List UInt8) : Option UInt64 :=
  match text.findIdx? (· = 46) with
  | none => match parseU64Rcx 46 text with
      | none => none
      | some (rax, _) => some (rax * 1000)
  | some i => match parseU64Rcx 46 (text.take i) with
      | none => none
      | some (rax, rcx) =>
          let ms := rax * 1000
          let fraction := text.drop (i + 1)
          if fraction = [] then some (scale 3 rcx ms + ms)
          else
            let n := min fraction.length 3
            match parseU64Rcx rcx (fraction.take n) with
            | none => none
            | some (rax, _) => some (scale 3 (UInt64.ofNat n) rax + ms)

/-! ## what a text stands for -/

/-- The text is the decimal number `n / 10 ^ k`. -/
inductive SecondsText : List UInt8 → Nat → Nat → Prop where
  | whole {num : List UInt8} {w : Nat} : natOf num = some w → SecondsText num w 0
  | point {num fraction : List UInt8} {w : Nat} : natOf num = some w →
      (∀ b ∈ fraction, IsDigit b) →
      SecondsText (num ++ 46 :: fraction) (w * 10 ^ fraction.length + value 0 fraction)
        fraction.length

/-- What is accepted is the milliseconds of the number, rounded down. -/
def IntervalExact (text : List UInt8) : Prop :=
  ∀ r, parseSecondsMs text = some r → ∃ n k, SecondsText text n k ∧ r.toNat = n * 1000 / 10 ^ k

/-- The milliseconds fit; no fraction is empty, except behind a zero; and a
fraction whose first three bytes are read is all digits. -/
structure PlainInterval (text : List UInt8) : Prop where
  whole : ∀ w, natOf text = some w → w < 2 ^ 64 → w * 1000 < 2 ^ 64
  empty : ∀ num w, text = num ++ [46] → natOf num = some w → w < 2 ^ 64 → w = 0
  fraction : ∀ num fraction w, text = num ++ 46 :: fraction → fraction ≠ [] →
    natOf num = some w → w < 2 ^ 64 → (natOf (fraction.take 3)).isSome = true →
      (∀ b ∈ fraction, IsDigit b) ∧
        (w * 10 ^ fraction.length + value 0 fraction) * 1000 / 10 ^ fraction.length < 2 ^ 64

/-! ## the point -/

/-- No byte of a number is the point. -/
theorem ne_point_of_natOf {num : List UInt8} {w : Nat} (h : natOf num = some w) :
    ∀ b ∈ num, b ≠ 46 := by
  obtain ⟨⟨-, hall⟩, -⟩ := natOf_eq_some_iff.1 h
  intro b hb
  cases num with
  | nil => cases hb
  | cons c cs =>
      rw [unsigned_cons] at hall
      split at hall
      · next hc =>
          rcases List.mem_cons.1 hb with rfl | hb
          · rw [hc]
            decide
          · rintro rfl
            exact absurd (hall 46 hb).1 (by decide)
      · rintro rfl
        exact absurd (hall 46 hb).1 (by decide)

theorem findIdx_point {num : List UInt8} (h : ∀ b ∈ num, b ≠ 46) (fraction : List UInt8) :
    (num ++ 46 :: fraction).findIdx? (· = 46) = some num.length := by
  induction num with
  | nil => simp [List.findIdx?_cons]
  | cons b bs ih =>
      have hb : b ≠ 46 := h b List.mem_cons_self
      simp [List.findIdx?_cons, hb, ih fun x hx => h x (List.mem_cons_of_mem b hx)]

theorem findIdx_none {num : List UInt8} (h : ∀ b ∈ num, b ≠ 46) :
    num.findIdx? (· = 46) = none := by
  rw [List.findIdx?_eq_none_iff]
  simpa using h

/-- A text with a point is cut at the first. -/
theorem split_of_findIdx {text : List UInt8} {i : Nat} (h : text.findIdx? (· = 46) = some i) :
    text = text.take i ++ 46 :: text.drop (i + 1) := by
  obtain ⟨hlt, hpoint, -⟩ := List.findIdx?_eq_some_iff_getElem.1 h
  have hget : text[i] = 46 := by simpa using hpoint
  conv => lhs; rw [← List.take_append_drop i text, List.drop_eq_getElem_cons hlt, hget]

/-! ## the parts -/

/-- The factor that the loop brings in, by the count it starts at. -/
theorem scale_eq (rcx rax : UInt64) : scale 3 rcx rax = rax * 10 ^ (3 - rcx.toNat) := by
  have hmul : ∀ x : UInt64, x * 10 * 10 = x * 100 ∧ x * 100 * 10 = x * 1000 := by
    intro x
    constructor
    · rw [UInt64.mul_assoc]
      rfl
    · rw [UInt64.mul_assoc]
      rfl
  have hle : ∀ x : UInt64, 3 ≤ x ↔ 3 ≤ x.toNat := fun x => UInt64.le_iff_toNat_le
  by_cases h3 : 3 ≤ rcx.toNat
  · rw [scale, if_pos ((hle rcx).2 h3), Nat.sub_eq_zero_of_le h3, UInt64.pow_zero, UInt64.mul_one]
  · have hcases : rcx = 0 ∨ rcx = 1 ∨ rcx = 2 := by
      simp only [← UInt64.toNat_inj]
      show rcx.toNat = 0 ∨ rcx.toNat = 1 ∨ rcx.toNat = 2
      omega
    rcases hcases with rfl | rfl | rfl
    · show rax * 10 * 10 * 10 = rax * 1000
      rw [(hmul rax).1, (hmul rax).2]
    · show rax * 10 * 10 = rax * 100
      exact (hmul rax).1
    · rfl

/-- The first three decimals of a fraction are its whole milliseconds. -/
theorem fraction_ms {fraction : List UInt8} (h : ∀ b ∈ fraction, IsDigit b) (w : Nat) :
    (w * 10 ^ fraction.length + value 0 fraction) * 1000 / 10 ^ fraction.length =
      w * 1000 + value 0 (fraction.take 3) * 10 ^ (3 - min fraction.length 3) := by
  by_cases hlen : fraction.length ≤ 3
  · rw [List.take_of_length_le hlen, Nat.min_eq_left hlen]
    have hpow : 1000 = 10 ^ (3 - fraction.length) * 10 ^ fraction.length := by
      rw [← Nat.pow_add, Nat.sub_add_cancel hlen]
    have hpos : 0 < 10 ^ fraction.length := Nat.pow_pos (by decide)
    have hsum : (w * 10 ^ fraction.length + value 0 fraction) * 1000 =
        10 ^ fraction.length * (w * 1000 + value 0 fraction * 10 ^ (3 - fraction.length)) := by
      rw [Nat.add_mul, Nat.mul_add]
      congr 1
      · ring
      · rw [hpow]
        ring
    rw [hsum, Nat.mul_div_cancel_left _ hpos]
  · -- the rest is worth less than a millisecond
    have hrest : (fraction.drop 3).length = fraction.length - 3 := List.length_drop
    have hlt : value 0 (fraction.drop 3) < 10 ^ (fraction.drop 3).length :=
      value_lt fun b hb => h b (List.mem_of_mem_drop hb)
    have hvalue : value 0 fraction = value 0 (fraction.take 3) * 10 ^ (fraction.length - 3) +
        value 0 (fraction.drop 3) := by
      conv => lhs; rw [← List.take_append_drop 3 fraction, value_append, value_eq_add, hrest]
    have hpow : 10 ^ fraction.length = 10 ^ (fraction.length - 3) * 1000 := by
      rw [show (1000 : Nat) = 10 ^ 3 by rfl, ← Nat.pow_add, Nat.sub_add_cancel (by omega)]
    rw [hrest] at hlt
    rw [hvalue, hpow, Nat.min_eq_right (by omega), Nat.mul_div_mul_right _ _ (by decide)]
    generalize 10 ^ (fraction.length - 3) = m at hlt ⊢
    have hsum : w * (m * 1000) + (value 0 (fraction.take 3) * m + value 0 (fraction.drop 3)) =
        m * (w * 1000 + value 0 (fraction.take 3)) + value 0 (fraction.drop 3) := by ring
    rw [hsum, Nat.mul_add_div (by omega), Nat.div_eq_of_lt hlt]
    simp

/-! ## what is accepted -/

/-- A text with a point is split there, whatever it is read as. -/
theorem point_inj {num num' fraction fraction' : List UInt8} {w w' : Nat}
    (hn : natOf num = some w) (hn' : natOf num' = some w')
    (h : num ++ 46 :: fraction = num' ++ 46 :: fraction') :
    num = num' ∧ fraction = fraction' ∧ w = w' := by
  have hidx := findIdx_point (ne_point_of_natOf hn) fraction
  have hidx' := findIdx_point (ne_point_of_natOf hn') fraction'
  rw [h, hidx'] at hidx
  obtain ⟨rfl, hrest⟩ := List.append_inj h (Option.some.inj hidx).symm
  rw [hn] at hn'
  exact ⟨rfl, (List.cons.inj hrest).2, Option.some.inj hn'⟩

/-- A number has no point. -/
theorem natOf_point (num fraction : List UInt8) : natOf (num ++ 46 :: fraction) = none := by
  rw [Option.eq_none_iff_forall_ne_some]
  intro w h
  exact ne_point_of_natOf h 46 (by simp) rfl

theorem secondsText_point {num fraction : List UInt8} {w n k : Nat} (hn : natOf num = some w)
    (h : SecondsText (num ++ 46 :: fraction) n k) : (∀ b ∈ fraction, IsDigit b) ∧
      n = w * 10 ^ fraction.length + value 0 fraction ∧ k = fraction.length := by
  generalize htext : num ++ 46 :: fraction = text at h
  cases h with
  | whole h =>
      rw [← htext, natOf_point] at h
      cases h
  | point h hall =>
      obtain ⟨-, rfl, rfl⟩ := point_inj hn h htext
      exact ⟨hall, rfl, rfl⟩

/-- A fraction that is read is short. -/
theorem natOf_take_lt {fraction : List UInt8} {v : Nat} (h : natOf (fraction.take 3) = some v) :
    v < 1000 := by
  obtain ⟨⟨-, hall⟩, rfl⟩ := natOf_eq_some_iff.1 h
  have hle : (unsigned (fraction.take 3)).length ≤ 3 := by
    have htake : (fraction.take 3).length ≤ 3 := by simp
    unfold unsigned
    split
    · exact Nat.zero_le 3
    · next b bs heq =>
        rw [heq, List.length_cons] at htake
        split
        · omega
        · simpa using htake
  exact Nat.lt_of_lt_of_le (value_lt hall) (Nat.pow_le_pow_right (by decide) hle)

/-- The digits of an unsigned number are all of it. -/
theorem natOf_of_digits {ds : List UInt8} (hne : ds ≠ []) (h : ∀ b ∈ ds, IsDigit b) :
    natOf ds = some (value 0 ds) := by
  have hself : unsigned ds = ds := by
    cases ds with
    | nil => rfl
    | cons b bs =>
        refine if_neg ?_
        rintro rfl
        exact absurd (h 43 List.mem_cons_self).1 (by decide)
  rw [natOf, hself, if_pos ⟨hne, h⟩]

theorem parse_whole {text : List UInt8} {w : Nat} (h : natOf text = some w) (hw : w < 2 ^ 64) :
    parseSecondsMs text = some (UInt64.ofNat w * 1000) := by
  rw [parseSecondsMs, findIdx_none (ne_point_of_natOf h)]
  simp only [parseU64Rcx_of_natOf h hw]

theorem parse_empty {num : List UInt8} {w : Nat} (h : natOf num = some w) (hw : w < 2 ^ 64) :
    parseSecondsMs (num ++ [46]) = some (UInt64.ofNat w * 1000 *
      10 ^ (3 - (lastDigit 46 num).toNat) + UInt64.ofNat w * 1000) := by
  rw [parseSecondsMs, findIdx_point (ne_point_of_natOf h) []]
  simp [parseU64Rcx_of_natOf h hw, scale_eq]

theorem parse_fraction {num fraction : List UInt8} {w v : Nat} (h : natOf num = some w)
    (hw : w < 2 ^ 64) (hne : fraction ≠ []) (hv : natOf (fraction.take 3) = some v) :
    parseSecondsMs (num ++ 46 :: fraction) = some (UInt64.ofNat v *
      10 ^ (3 - min fraction.length 3) + UInt64.ofNat w * 1000) := by
  have hlt := natOf_take_lt hv
  have htake : fraction.take (min fraction.length 3) = fraction.take 3 := by
    rw [Nat.min_comm, ← List.take_take, List.take_length]
  have hcount : (UInt64.ofNat (min fraction.length 3)).toNat = min fraction.length 3 :=
    UInt64.toNat_ofNat_of_lt' (by unfold UInt64.size; omega)
  rw [parseSecondsMs, findIdx_point (ne_point_of_natOf h) fraction]
  simp [parseU64Rcx_of_natOf h hw, hne, htake, parseU64Rcx_of_natOf hv (by omega), scale_eq, hcount]

/-- What is accepted has one of the three forms. -/
theorem accepted_cases {text : List UInt8} {r : UInt64} (h : parseSecondsMs text = some r) :
    (∃ w, natOf text = some w ∧ w < 2 ^ 64) ∨
    (∃ num w, text = num ++ [46] ∧ natOf num = some w ∧ w < 2 ^ 64) ∨
    ∃ num fraction w v, text = num ++ 46 :: fraction ∧ fraction ≠ [] ∧ natOf num = some w ∧
      w < 2 ^ 64 ∧ natOf (fraction.take 3) = some v := by
  unfold parseSecondsMs at h
  split at h
  · split at h
    · cases h
    · next rax rcx hread =>
        exact .inl ⟨_, (parseU64Rcx_iff.1 hread).1, rax.toNat_lt⟩
  · next i hidx =>
      have htext := split_of_findIdx hidx
      split at h
      · cases h
      · next rax rcx hread =>
          have hnum := (parseU64Rcx_iff.1 hread).1
          dsimp only at h
          split at h
          · next hempty =>
              rw [hempty] at htext
              exact .inr (.inl ⟨_, _, htext, hnum, rax.toNat_lt⟩)
          · next hne =>
              split at h
              · cases h
              · next rax' rcx' hread' =>
                  have hfraction := (parseU64Rcx_iff.1 hread').1
                  rw [Nat.min_comm, ← List.take_take, List.take_length] at hfraction
                  exact .inr (.inr ⟨_, _, _, _, htext, hne, hnum, rax.toNat_lt, hfraction⟩)

/-! ## when it is exact -/

/-- The product of the whole part, where it fits. -/
theorem toNat_thousand {w : Nat} (hw : w < 2 ^ 64) :
    (UInt64.ofNat w * 1000).toNat = w * 1000 % 2 ^ 64 := by
  rw [UInt64.toNat_mul, UInt64.toNat_ofNat_of_lt' hw]
  rfl

theorem toNat_ten_pow {k : Nat} (h : k ≤ 3) : ((10 : UInt64) ^ k).toNat = 10 ^ k := by
  have hall : ∀ k ≤ 3, ((10 : UInt64) ^ k).toNat = 10 ^ k := by decide
  exact hall k h

/-- No power of ten makes a product that fits a multiple of `2 ^ 64`. -/
theorem eq_zero_of_scaled {w k : Nat} (hk : k ≤ 3) (hfits : w * 1000 < 2 ^ 64)
    (h : w * 1000 * 10 ^ k % 2 ^ 64 = 0) : w = 0 := by
  -- two divides ten once: most of the factor is left for `w`
  have hdvd : 2 ^ (61 - k) * 2 ^ (3 + k) ∣ w * 5 ^ (3 + k) * 2 ^ (3 + k) := by
    rw [← Nat.pow_add, Nat.mul_assoc w, ← Nat.mul_pow, show 61 - k + (3 + k) = 64 by omega,
      Nat.pow_add, ← Nat.mul_assoc]
    exact Nat.dvd_of_mod_eq_zero h
  have hodd : Nat.Coprime (2 ^ (61 - k)) (5 ^ (3 + k)) := Nat.Coprime.pow _ _ (by decide)
  have hw := hodd.dvd_of_dvd_mul_right (Nat.dvd_of_mul_dvd_mul_right (Nat.two_pow_pos _) hdvd)
  have hle : 2 ^ 58 ≤ 2 ^ (61 - k) := Nat.pow_le_pow_right (by decide) (by omega)
  exact Nat.eq_zero_of_dvd_of_lt hw (by omega)

/-- A whole part scaled on top of itself comes out right for zero only. -/
theorem scaled_eq_iff {w : Nat} (hw : w < 2 ^ 64) (e : Nat) :
    (UInt64.ofNat w * 1000 * 10 ^ (3 - e) + UInt64.ofNat w * 1000).toNat = w * 1000 ↔ w = 0 := by
  constructor
  · intro h
    have hle : 3 - e ≤ 3 := Nat.sub_le 3 e
    have hfits : w * 1000 < 2 ^ 64 := h ▸ UInt64.toNat_lt _
    rw [UInt64.toNat_add, UInt64.toNat_mul, toNat_thousand hw, toNat_ten_pow hle,
      Nat.mod_eq_of_lt hfits] at h
    refine eq_zero_of_scaled hle hfits ?_
    generalize w * 1000 * 10 ^ (3 - e) = m at h ⊢
    omega
  · rintro rfl
    simp

theorem toNat_fraction {w v n : Nat} (hw : w < 2 ^ 64) (hv : v < 1000) :
    (UInt64.ofNat v * 10 ^ (3 - min n 3) + UInt64.ofNat w * 1000).toNat =
      (w * 1000 + v * 10 ^ (3 - min n 3)) % 2 ^ 64 := by
  rw [UInt64.toNat_add, UInt64.toNat_mul, toNat_thousand hw, toNat_ten_pow (Nat.sub_le 3 _),
    UInt64.toNat_ofNat_of_lt' (by unfold UInt64.size; omega)]
  omega

/-- **An interval is read as it stands exactly where it is plain.** -/
theorem interval_exact_iff (text : List UInt8) : IntervalExact text ↔ PlainInterval text := by
  constructor
  · intro h
    refine ⟨fun w hn hw => ?_, fun num w htext hn hw => ?_,
      fun num fraction w htext hne hn hw hsome => ?_⟩
    · obtain ⟨n, k, hsec, heq⟩ := h _ (parse_whole hn hw)
      cases hsec with
      | whole hn' =>
          rw [hn] at hn'
          cases hn'
          rw [Nat.pow_zero, Nat.div_one] at heq
          rw [← heq]
          exact UInt64.toNat_lt _
      | point =>
          rw [natOf_point] at hn
          cases hn
    · subst htext
      obtain ⟨n, k, hsec, heq⟩ := h _ (parse_empty hn hw)
      obtain ⟨-, rfl, rfl⟩ := secondsText_point hn hsec
      simp only [List.length_nil, Nat.pow_zero, Nat.mul_one, value_nil, Nat.add_zero,
        Nat.div_one] at heq
      exact (scaled_eq_iff hw _).1 heq
    · subst htext
      obtain ⟨v, hv⟩ := Option.isSome_iff_exists.1 hsome
      obtain ⟨n, k, hsec, heq⟩ := h _ (parse_fraction hn hw hne hv)
      obtain ⟨hall, rfl, rfl⟩ := secondsText_point hn hsec
      refine ⟨hall, ?_⟩
      rw [← heq]
      exact UInt64.toNat_lt _
  · intro h r hr
    rcases accepted_cases hr with ⟨w, hn, hw⟩ | ⟨num, w, rfl, hn, hw⟩ |
      ⟨num, fraction, w, v, rfl, hne, hn, hw, hv⟩
    · refine ⟨w, 0, .whole hn, ?_⟩
      rw [parse_whole hn hw] at hr
      cases hr
      rw [toNat_thousand hw, Nat.mod_eq_of_lt (h.whole w hn hw), Nat.pow_zero, Nat.div_one]
    · obtain rfl := h.empty num w rfl hn hw
      refine ⟨_, _, .point hn nofun, ?_⟩
      rw [parse_empty hn hw] at hr
      cases hr
      simp
    · obtain ⟨hall, hfits⟩ := h.fraction num fraction w rfl hne hn hw (by simp [hv])
      refine ⟨_, _, .point hn hall, ?_⟩
      have htaken : fraction.take 3 ≠ [] := by simpa using hne
      have hdigits := natOf_of_digits htaken fun b hb => hall b (List.mem_of_mem_take hb)
      rw [hv] at hdigits
      obtain rfl := Option.some.inj hdigits
      rw [parse_fraction hn hw hne hv] at hr
      cases hr
      rw [fraction_ms hall] at hfits ⊢
      rw [toNat_fraction hw (natOf_take_lt hv), Nat.mod_eq_of_lt hfits]

/-- `5.` is ten seconds. -/
theorem empty_fraction_doubles : ¬ IntervalExact [53, 46] := by
  intro h
  obtain ⟨n, k, hsec, heq⟩ := h 10000 (by decide)
  obtain ⟨-, rfl, rfl⟩ := secondsText_point (show natOf [53] = some 5 from rfl) hsec
  exact absurd heq (by decide)

end Phi.Top
