import Mathlib.Data.List.TakeWhile
import Phi.Lib.Decimal

/-!
# Phi.Card.Scan

The agent's scanning of `/proc` and sysfs text (`text.S`): tokens, lines and
numbers.

A text is the list of bytes from the cursor to the end.
-/

namespace Phi.Card

open Decimal

/-- ASCII whitespace: the space, and the five controls from the tab on. -/
def isSpace (b : UInt8) : Bool := b = 32 || b - 9 ≤ 4

/-- A byte of a token. -/
def isWord (b : UInt8) : Bool := !isSpace b

/-- `next_token`: the token, and the text past it. -/
def nextToken (text : List UInt8) : Option (List UInt8 × List UInt8) :=
  match text.dropWhile isSpace with
  | [] => none
  | b :: bs => some (b :: bs.takeWhile isWord, bs.dropWhile isWord)

/-- The line without the carriage return of a `"\r\n"`. -/
def dropCr (line : List UInt8) : List UInt8 :=
  if line.getLast? = some 13 then line.dropLast else line

/-- `next_line`: the line, and the text past its newline. -/
def nextLine (text : List UInt8) : Option (List UInt8 × List UInt8) :=
  if text = [] then none
  else
    let line := text.takeWhile (· ≠ 10)
    match text.dropWhile (· ≠ 10) with
    | [] => some (line, [])
    | _ :: rest => some (dropCr line, rest)

/-- `digits`, with the number read so far. -/
def digits : UInt64 → List UInt8 → Option UInt64
  | acc, [] => some acc
  | acc, b :: bs =>
      if 9 < b - 48 then none
      else if 2 ^ 64 ≤ acc.toNat * 10 then none
      else if 2 ^ 64 ≤ acc.toNat * 10 + (b - 48).toNat then none
      else digits (acc * 10 + (b - 48).toUInt64) bs

/-- `parse_u64`: an optional `'+'`, then at least one digit. -/
def parseU64 : List UInt8 → Option UInt64
  | [] => none
  | b :: bs => if b = 43 then if bs = [] then none else digits 0 bs else digits 0 (b :: bs)

/-- `parse_u32`. -/
def parseU32 (text : List UInt8) : Option UInt32 :=
  match parseU64 text with
  | none => none
  | some v => if 0xffffffff < v then none else some v.toUInt32

/-! ## tokens -/

section tokens

variable {tok text rest : List UInt8} {b : UInt8}

/-- A token behind a separator, up to the next one. -/
theorem nextToken_append (hs : isSpace b = true) (hne : tok ≠ [])
    (hw : ∀ x ∈ tok, isWord x = true) (hrest : ∀ x ∈ rest.head?, isSpace x = true) :
    nextToken (b :: (tok ++ rest)) = some (tok, rest) := by
  obtain ⟨c, cs, rfl⟩ := List.exists_cons_of_ne_nil hne
  have hc : isSpace c = false := by simpa [isWord] using hw c List.mem_cons_self
  have hcs : ∀ x ∈ cs, isWord x = true := fun x hx => hw x (List.mem_cons_of_mem c hx)
  have hstop : rest.takeWhile isWord = [] ∧ rest.dropWhile isWord = rest := by
    cases rest with
    | nil => exact ⟨rfl, rfl⟩
    | cons r rs =>
        have hr : isSpace r = true := hrest r rfl
        simp [isWord, hr]
  unfold nextToken
  simp [hs, hc, List.takeWhile_append_of_pos hcs, List.dropWhile_append_of_pos hcs, hstop]

/-- Nothing but separators. -/
theorem nextToken_none (h : ∀ x ∈ text, isSpace x = true) : nextToken text = none := by
  have hnil : text.dropWhile isSpace = [] := List.dropWhile_eq_nil_iff.2 h
  rw [nextToken, hnil]

end tokens

/-! ## numbers -/

/-- What lies above the space is part of a token. -/
theorem isWord_of_lt {b : UInt8} (h : 32 < b) : isWord b = true := by
  have hb : 32 < b.toNat := h
  have h9 : (9 : UInt8) ≤ b := UInt8.le_iff_toNat_le.2 (show 9 ≤ b.toNat by omega)
  have hsub : (b - 9).toNat = b.toNat - 9 := UInt8.toNat_sub_of_le _ _ h9
  have hne : b ≠ 32 := (UInt8.ne_of_lt h).symm
  have hgt : ¬ b - 9 ≤ 4 := fun hle => by
    have hle' : (b - 9).toNat ≤ 4 := hle
    omega
  simp [isWord, isSpace, hne, hgt]

/-- The digits of a number that fits give it. -/
theorem digits_value {bs : List UInt8} {acc : UInt64} (hd : ∀ b ∈ bs, IsDigit b)
    (h : value acc.toNat bs < 2 ^ 64) :
    digits acc bs = some (UInt64.ofNat (value acc.toNat bs)) := by
  induction bs generalizing acc with
  | nil => simp [digits]
  | cons b bs ih =>
      obtain ⟨h48, h57⟩ := hd b List.mem_cons_self
      have hle := le_value (acc.toNat * 10 + (b - 48).toNat) bs
      rw [value_cons] at h
      have hdig : ¬ 9 < b - 48 := by
        rw [UInt8.lt_iff_toNat_lt, UInt8.toNat_sub_of_le _ _ h48]
        have := UInt8.le_iff_toNat_le.1 h57
        show ¬ 9 < b.toNat - 48
        have h57' : b.toNat ≤ 57 := this
        omega
      have hacc : (acc * 10 + (b - 48).toUInt64).toNat = acc.toNat * 10 + (b - 48).toNat := by
        rw [UInt64.toNat_add, UInt64.toNat_mul]
        show (acc.toNat * 10 % 2 ^ 64 + (b - 48).toNat) % 2 ^ 64 = _
        omega
      rw [digits, if_neg hdig, if_neg (by omega), if_neg (by omega), ih
        (fun x hx => hd x (List.mem_cons_of_mem b hx)) (by rw [hacc]; exact h), hacc, value_cons]

/-- A printed number that fits is read back. -/
theorem parseU64_decimal {n : Nat} (h : n < 2 ^ 64) :
    parseU64 (decimal n) = some (UInt64.ofNat n) := by
  obtain ⟨b, bs, hb⟩ := List.exists_cons_of_ne_nil (decimal_ne_nil n)
  have hd : ∀ x ∈ decimal n, IsDigit x := fun x hx => isDigit_decimal hx
  have hplus : b ≠ 43 := by
    rintro rfl
    exact absurd (hd 43 (hb ▸ List.mem_cons_self)).1 (by decide)
  have hval : value (0 : UInt64).toNat (decimal n) = n := value_decimal n
  rw [hb, parseU64, if_neg hplus, ← hb, digits_value hd (by rw [hval]; exact h), hval]

end Phi.Card
