import Mathlib.Data.List.Basic
import Phi.Ctl.Numbers

/-!
# Phi.Ctl.Sizes

Sizes and modes of the command line (`parse_size` and `parse_octal` of
`phictl/text.S`).

The number before a size's suffix is read by `parse_u64`, which lets nothing
wrap; the shift by the suffix drops what leaves the top, and the octal loop
shifts three bits out for every digit.
-/

namespace Phi.Ctl

open Decimal

/-! ## the code -/

/-- The loop of `parse_octal`. -/
def octal (rax : UInt64) : List UInt8 → Option UInt64
  | [] => some rax
  | b :: bs => if 7 < b - 48 then none else octal (rax <<< 3 + (b - 48).toUInt64) bs

/-- `parse_octal`. -/
def parseOctal (text : List UInt8) : Option UInt64 := if text = [] then none else octal 0 text

/-- The suffix of a size: the shift, and the number before it. -/
def sizeShift (text : List UInt8) : UInt64 × List UInt8 :=
  match text.getLast?.map fun b : UInt8 => b ||| 0x20 with
  | some 107 => (10, text.dropLast)
  | some 109 => (20, text.dropLast)
  | some 103 => (30, text.dropLast)
  | _ => (0, text)

/-- A size is a multiple of 2 MiB: the bits below. -/
def sizeMask : UInt64 := ((1 : UInt64) <<< (21 : UInt64)) - 1

/-- `parse_size`. -/
def parseSize (text : List UInt8) : Option UInt64 :=
  if text = [] then none
  else
    let (r10, num) := sizeShift text
    match parseU64 num with
    | none => none
    | some rax =>
        if rax = 0 then none
        else if (rax <<< r10) &&& sizeMask ≠ 0 then none
        else some (rax <<< r10)

/-! ## what a text stands for -/

/-- A suffix, and the power of two it stands for. -/
inductive Suffix : List UInt8 → Nat → Prop where
  | none : Suffix [] 0
  | kilo {b : UInt8} : b = 75 ∨ b = 107 → Suffix [b] 10
  | mega {b : UInt8} : b = 77 ∨ b = 109 → Suffix [b] 20
  | giga {b : UInt8} : b = 71 ∨ b = 103 → Suffix [b] 30

/-- The text is the size `n * 2 ^ k`. -/
def SizeText (text : List UInt8) (n k : Nat) : Prop :=
  ∃ num suffix, text = num ++ suffix ∧ Suffix suffix k ∧ natOf num = some n

def octalValue (init : Nat) (bs : List UInt8) : Nat :=
  bs.foldl (fun v b => v * 8 + (b - 48).toNat) init

def IsOctal (b : UInt8) : Prop := 48 ≤ b ∧ b ≤ 55

/-- The text is the octal number `v`. -/
def OctalText (text : List UInt8) (v : Nat) : Prop :=
  text ≠ [] ∧ (∀ b ∈ text, IsOctal b) ∧ octalValue 0 text = v

/-- What the two parsers accept is what the text stands for. -/
structure SizesExact (text : List UInt8) : Prop where
  size : ∀ r, parseSize text = some r → ∃ n k, SizeText text n k ∧ r.toNat = n * 2 ^ k ∧
    0 < r.toNat ∧ 2 ^ 21 ∣ r.toNat
  octal : ∀ r, parseOctal text = some r → OctalText text r.toNat

/-- A size whose number fits and which is a multiple of 2 MiB fits with its
suffix, and an octal number fits. -/
structure NoWrap (text : List UInt8) : Prop where
  size : ∀ n k, SizeText text n k → n < 2 ^ 64 → 2 ^ 21 ∣ n * 2 ^ k → n * 2 ^ k < 2 ^ 64
  octal : ∀ v, OctalText text v → v < 2 ^ 64

/-! ## the suffix -/

/-- A byte of a suffix, in either case. -/
theorem or_case {b : UInt8} :
    (b ||| 0x20 = 107 ↔ b = 75 ∨ b = 107) ∧ (b ||| 0x20 = 109 ↔ b = 77 ∨ b = 109) ∧
      (b ||| 0x20 = 103 ↔ b = 71 ∨ b = 103) := by
  have hall : ∀ n < 256, (UInt8.ofNat n ||| 0x20 = 107 ↔ UInt8.ofNat n = 75 ∨ UInt8.ofNat n = 107) ∧
      (UInt8.ofNat n ||| 0x20 = 109 ↔ UInt8.ofNat n = 77 ∨ UInt8.ofNat n = 109) ∧
      (UInt8.ofNat n ||| 0x20 = 103 ↔ UInt8.ofNat n = 71 ∨ UInt8.ofNat n = 103) := by
    decide +kernel
  simpa using hall b.toNat b.toNat_lt

/-- The last byte of a number is a digit. -/
theorem getLast_of_natOf {num : List UInt8} {n : Nat} (h : natOf num = some n) :
    ∃ b, num.getLast? = some b ∧ IsDigit b := by
  obtain ⟨⟨hne, hall⟩, -⟩ := natOf_eq_some_iff.1 h
  have hlast : num.getLast? = (unsigned num).getLast? := by
    cases num with
    | nil => rfl
    | cons b bs =>
        rw [unsigned_cons] at hne ⊢
        split at hne
        · next hb =>
            rw [if_pos hb]
            exact List.getLast?_cons_of_ne_nil hne
        · next hb => rw [if_neg hb]
  rw [hlast, List.getLast?_eq_some_getLast hne]
  exact ⟨_, rfl, hall _ (List.getLast_mem hne)⟩

theorem sizeShift_append {num suffix : List UInt8} {n k : Nat} (hs : Suffix suffix k)
    (hn : natOf num = some n) : sizeShift (num ++ suffix) = (UInt64.ofNat k, num) := by
  cases hs with
  | none =>
      obtain ⟨b, hb, hdigit⟩ := getLast_of_natOf hn
      obtain ⟨hk, hm, hg⟩ := or_case (b := b)
      have hne : b ||| 0x20 ≠ 107 ∧ b ||| 0x20 ≠ 109 ∧ b ||| 0x20 ≠ 103 := by
        rw [ne_eq, ne_eq, ne_eq, hk, hm, hg]
        have h57 : b ≤ 57 := hdigit.2
        refine ⟨?_, ?_, ?_⟩
        all_goals
          rintro (rfl | rfl)
          all_goals exact absurd h57 (by decide)
      simp [sizeShift, hb, hne]
  | kilo hb =>
      have hcase := or_case.1.2 hb
      simp [sizeShift, hcase]
  | mega hb =>
      have hcase := or_case.2.1.2 hb
      simp [sizeShift, hcase]
  | giga hb =>
      have hcase := or_case.2.2.2 hb
      simp [sizeShift, hcase]

/-- The suffix cut off is one. -/
theorem suffix_of_sizeShift (text : List UInt8) : ∃ suffix,
    text = (sizeShift text).2 ++ suffix ∧ Suffix suffix (sizeShift text).1.toNat := by
  have hsplit : ∀ {b : UInt8}, text.getLast?.map (fun b : UInt8 => b ||| 0x20) = some b →
      ∃ c, text = text.dropLast ++ [c] ∧ c ||| 0x20 = b := by
    intro b h
    obtain ⟨c, hc, rfl⟩ := Option.map_eq_some_iff.1 h
    exact ⟨c, (List.dropLast_append_getLast? c hc).symm, rfl⟩
  unfold sizeShift
  split
  · next h =>
      obtain ⟨c, htext, hc⟩ := hsplit h
      exact ⟨[c], htext, .kilo (or_case.1.1 hc)⟩
  · next h =>
      obtain ⟨c, htext, hc⟩ := hsplit h
      exact ⟨[c], htext, .mega (or_case.2.1.1 hc)⟩
  · next h =>
      obtain ⟨c, htext, hc⟩ := hsplit h
      exact ⟨[c], htext, .giga (or_case.2.2.1 hc)⟩
  · exact ⟨[], (List.append_nil _).symm, .none⟩

theorem suffix_lt {suffix : List UInt8} {k : Nat} (h : Suffix suffix k) : k < 64 := by
  cases h <;> decide

/-- A text is one size at most, and the code splits it so. -/
theorem sizeText_iff {text : List UInt8} {n k : Nat} : SizeText text n k ↔
    natOf (sizeShift text).2 = some n ∧ (sizeShift text).1.toNat = k := by
  constructor
  · rintro ⟨num, suffix, rfl, hs, hn⟩
    have hk := suffix_lt hs
    rw [sizeShift_append hs hn]
    exact ⟨hn, UInt64.toNat_ofNat_of_lt' (by unfold UInt64.size; omega)⟩
  · rintro ⟨hn, rfl⟩
    obtain ⟨suffix, htext, hs⟩ := suffix_of_sizeShift text
    exact ⟨_, suffix, htext, hs, hn⟩

/-! ## what is accepted -/

theorem and_mask_eq_zero {x : UInt64} : x &&& sizeMask = 0 ↔ 2 ^ 21 ∣ x.toNat := by
  rw [← UInt64.toNat_inj, UInt64.toNat_and]
  have hmask : sizeMask.toNat = 2 ^ 21 - 1 := by decide
  rw [hmask, Nat.and_two_pow_sub_one_eq_mod]
  exact (Nat.dvd_iff_mod_eq_zero ..).symm

theorem toNat_shift {x k : UInt64} (hk : k.toNat < 64) :
    (x <<< k).toNat = x.toNat * 2 ^ k.toNat % 2 ^ 64 := by
  rw [UInt64.toNat_shiftLeft, Nat.mod_eq_of_lt hk, Nat.shiftLeft_eq]

/-- A size is accepted by what is left of it. -/
theorem parseSize_iff {text : List UInt8} {r : UInt64} : parseSize text = some r ↔
    ∃ n k, SizeText text n k ∧ n < 2 ^ 64 ∧ 0 < n ∧ 2 ^ 21 ∣ n * 2 ^ k ∧
      r.toNat = n * 2 ^ k % 2 ^ 64 := by
  obtain ⟨suffix, htext, hs⟩ := suffix_of_sizeShift text
  have hk := suffix_lt hs
  have hdvd : ∀ m, 2 ^ 21 ∣ m % 2 ^ 64 ↔ 2 ^ 21 ∣ m := fun m =>
    Nat.dvd_mod_iff (by decide)
  have hempty : text = [] → parseU64 (sizeShift text).2 = none := by
    rintro rfl
    rfl
  have hdef : parseSize text = match parseU64 (sizeShift text).2 with
      | none => none
      | some rax =>
          if rax = 0 then none
          else if (rax <<< (sizeShift text).1) &&& sizeMask ≠ 0 then none
          else some (rax <<< (sizeShift text).1) := by
    unfold parseSize
    split
    · next h => rw [hempty h]
    · rfl
  rw [hdef]
  simp only [sizeText_iff]
  cases hnum : parseU64 (sizeShift text).2 with
  | none =>
      simp only [reduceCtorEq, false_iff]
      rintro ⟨n, k, ⟨hn, -⟩, hlt, -⟩
      have hsome : parseU64 (sizeShift text).2 = some (UInt64.ofNat n) := by
        rwa [parseU64_iff, UInt64.toNat_ofNat_of_lt' hlt]
      rw [hnum] at hsome
      cases hsome
  | some rax =>
      have hn := parseU64_iff.1 hnum
      have hrax := rax.toNat_lt
      have hzero : rax = 0 ↔ rax.toNat = 0 := by
        rw [← UInt64.toNat_inj]
        rfl
      simp only [hn, Option.some.injEq, ne_eq, and_mask_eq_zero, toNat_shift hk, hdvd, hzero]
      constructor
      · intro h
        split at h
        · cases h
        · next hpos =>
            split at h
            · cases h
            · next hm =>
                cases h
                exact ⟨_, _, ⟨rfl, rfl⟩, hrax, Nat.pos_of_ne_zero hpos, not_not.1 hm,
                  toNat_shift hk⟩
      · rintro ⟨n, k, ⟨rfl, rfl⟩, -, hpos, hm, hr⟩
        have hval : rax <<< (sizeShift text).1 = r := by
          rw [← UInt64.toNat_inj, toNat_shift hk, hr]
        rw [if_neg (by omega), if_neg (not_not.2 hm), hval]

theorem isOctal_iff {b : UInt8} : IsOctal b ↔ ¬ 7 < b - 48 := by
  simp only [IsOctal, UInt8.le_iff_toNat_le, UInt8.lt_iff_toNat_lt, UInt8.toNat_sub]
  have hb := b.toNat_lt
  simp only [UInt8.reduceToNat]
  omega

/-- The octal loop keeps the low bits. -/
theorem octal_iff {rax r : UInt64} {bs : List UInt8} : octal rax bs = some r ↔
    (∀ b ∈ bs, IsOctal b) ∧ octalValue rax.toNat bs % 2 ^ 64 = r.toNat := by
  induction bs generalizing rax with
  | nil =>
      rw [octal, octalValue, List.foldl_nil, Nat.mod_eq_of_lt rax.toNat_lt, UInt64.toNat_inj]
      simp
  | cons b bs ih =>
      have hmod : ∀ (cs : List UInt8) (m : Nat),
          octalValue (m % 2 ^ 64) cs % 2 ^ 64 = octalValue m cs % 2 ^ 64 := by
        intro cs
        induction cs with
        | nil => intro m; exact Nat.mod_mod _ _
        | cons c cs ih =>
            intro m
            rw [octalValue, octalValue, List.foldl_cons, List.foldl_cons]
            have hstep := ih (m % 2 ^ 64 * 8 + (c - 48).toNat)
            have hstep' := ih (m * 8 + (c - 48).toNat)
            rw [← octalValue, ← octalValue, ← hstep, ← hstep']
            congr 2
            omega
      have hacc : (rax <<< 3 + (b - 48).toUInt64).toNat =
          (rax.toNat * 8 + (b - 48).toNat) % 2 ^ 64 := by
        rw [UInt64.toNat_add, toNat_shift (by decide), UInt8.toNat_toUInt64]
        show (rax.toNat * 8 % 2 ^ 64 + _) % 2 ^ 64 = _
        omega
      rw [octal, List.forall_mem_cons, isOctal_iff]
      split
      · next h => simp [h]
      · next h =>
          rw [ih, hacc, hmod, octalValue, octalValue, List.foldl_cons]
          simp [h]

theorem parseOctal_iff {text : List UInt8} {r : UInt64} : parseOctal text = some r ↔
    ∃ v, OctalText text v ∧ v % 2 ^ 64 = r.toNat := by
  unfold parseOctal OctalText
  split
  · next h => simp [h]
  · next h =>
      rw [octal_iff]
      simp [h]

/-! ## when they are exact -/

/-- **Sizes and modes are read as they stand exactly where nothing wraps.** -/
theorem sizes_exact_iff (text : List UInt8) : SizesExact text ↔ NoWrap text := by
  constructor
  · intro h
    constructor
    · intro n k hsize hn hdvd
      rcases Nat.eq_zero_or_pos n with rfl | hpos
      · simp
      · have haccept : parseSize text = some (UInt64.ofNat (n * 2 ^ k % 2 ^ 64)) := parseSize_iff.2
          ⟨n, k, hsize, hn, hpos, hdvd, UInt64.toNat_ofNat_of_lt' (Nat.mod_lt _ (by decide))⟩
        obtain ⟨n', k', hsize', heq, -, -⟩ := h.size _ haccept
        obtain ⟨hnum, hk⟩ := sizeText_iff.1 hsize
        obtain ⟨hnum', hk'⟩ := sizeText_iff.1 hsize'
        rw [hnum] at hnum'
        cases hnum'
        rw [← hk', hk] at heq
        rw [← heq]
        exact UInt64.toNat_lt _
    · intro v hv
      have haccept : parseOctal text = some (UInt64.ofNat (v % 2 ^ 64)) := parseOctal_iff.2
        ⟨v, hv, (UInt64.toNat_ofNat_of_lt' (Nat.mod_lt _ (by decide))).symm⟩
      have heq := (h.octal _ haccept).2.2
      rw [hv.2.2] at heq
      rw [heq]
      exact UInt64.toNat_lt _
  · intro h
    constructor
    · intro r hr
      obtain ⟨n, k, hsize, hn, hpos, hdvd, heq⟩ := parseSize_iff.1 hr
      rw [Nat.mod_eq_of_lt (h.size n k hsize hn hdvd)] at heq
      refine ⟨n, k, hsize, heq, ?_, ?_⟩
      · rw [heq]
        exact Nat.mul_pos hpos (Nat.two_pow_pos k)
      · rwa [heq]
    · intro r hr
      obtain ⟨v, hv, heq⟩ := parseOctal_iff.1 hr
      rw [Nat.mod_eq_of_lt (h.octal v hv)] at heq
      rwa [← heq]

/-- `17179869186G`, two gibibytes past `2 ^ 64`. -/
theorem size_wraps : ¬ SizesExact [49, 55, 49, 55, 57, 56, 54, 57, 49, 56, 54, 71] := by
  intro h
  obtain ⟨n, k, hsize, heq, -, -⟩ := h.size 2147483648 (by decide +kernel)
  obtain ⟨hn, hk⟩ := sizeText_iff.1 hsize
  have hnum : natOf (sizeShift [49, 55, 49, 55, 57, 56, 54, 57, 49, 56, 54, 71]).2 =
      some 17179869186 := by decide +kernel
  rw [hnum] at hn
  cases hn
  rw [← hk] at heq
  exact absurd heq (by decide)

end Phi.Ctl
