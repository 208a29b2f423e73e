import Phi.Rpc.Validate

/-!
# Phi.Rpc.Scanning

`utf8_ok` with its pointers (`phictl/wire.S`, and the same lines in the agent's
`text.S`).

The loop moves `rsi` over the bytes up to `rdx`.  A byte is read through a
check here that the code does not have, so that a read past the end would show
as no answer.
-/

namespace Phi.Rpc

open Utf8

/-! ## the code -/

/-- Label 6: the `rcx` bytes from `r11` on are continuation bytes. -/
def utf8Tails (bs : List UInt8) : Nat → Nat → Option Bool
  | 0, _ => some true
  | rcx + 1, r11 => match bs[r11]? with
      | none => none
      | some al => if al &&& 0xc0 ≠ 0x80 then some false else utf8Tails bs rcx (r11 + 1)

/-- One turn from label 1 on: where `rsi` is next, or a byte that fits nowhere. -/
def utf8Turn (bs : List UInt8) (rsi : Nat) : Option (Option Nat) :=
  match bs[rsi]? with
  | none => none
  | some al =>
      if al.toNat < 0x80 then some (some (rsi + 1))
      else match utf8Lead al.toNat with
        | none => some none
        | some (rcx, r8, r9) =>
            let r10 := rsi + 1 + rcx
            if bs.length < r10 then some none
            else match bs[rsi + 1]? with
              | none => none
              | some al =>
                  if al.toNat < r8 ∨ r9 < al.toNat then some none
                  else match utf8Tails bs (rcx - 1) (rsi + 2) with
                    | none => none
                    | some false => some none
                    | some true => some (some r10)

/-- `utf8_ok` from `rsi` on, in so many turns at most. -/
def utf8Scan (bs : List UInt8) : Nat → Nat → Option Bool
  | 0, _ => none
  | n + 1, rsi =>
      if bs.length ≤ rsi then some true
      else match utf8Turn bs rsi with
        | none => none
        | some none => some false
        | some (some rsi) => utf8Scan bs n rsi

/-! ## what it is for -/

/-- One character after the other, each of them encoded as it must be. -/
def WellFormed (bs : List UInt8) : Prop :=
  ∃ chars : List (List UInt8), bs = chars.flatten ∧ ∀ c ∈ chars, Encoded c

/-- These are the encodings of texts. -/
theorem wellFormed_iff {bs : List UInt8} : WellFormed bs ↔ ∃ cs, bs = encode cs := by
  constructor
  · rintro ⟨chars, rfl, h⟩
    induction chars with
    | nil => exact ⟨[], rfl⟩
    | cons c chars ih =>
        obtain ⟨hc, hchars⟩ := List.forall_mem_cons.1 h
        obtain ⟨ch, rfl⟩ := hc.exists_char
        obtain ⟨cs, hcs⟩ := ih hchars
        exact ⟨ch :: cs, by rw [List.flatten_cons, hcs, encode_cons]⟩
  · rintro ⟨cs, rfl⟩
    refine ⟨cs.map String.utf8EncodeChar, rfl, fun c hc => ?_⟩
    obtain ⟨ch, -, rfl⟩ := List.mem_map.1 hc
    exact encoded_utf8EncodeChar ch

/-! ## one turn -/

theorem and_eq_iff_isTail {b : UInt8} : b &&& 0xc0 = 0x80 ↔ isTail b = true := by
  have hall : ∀ n < 256, (UInt8.ofNat n &&& 0xc0 = 0x80 ↔ isTail (UInt8.ofNat n) = true) := by
    decide +kernel
  simpa using hall b.toNat b.toNat_lt

theorem utf8Tails_eq {bs : List UInt8} {n i : Nat} (h : i + n ≤ bs.length) :
    utf8Tails bs n i = some (((bs.drop i).take n).all isTail) := by
  induction n generalizing i with
  | zero => simp [utf8Tails]
  | succ n ih =>
      have hi : i < bs.length := by omega
      rw [utf8Tails, List.getElem?_eq_getElem hi, List.drop_eq_getElem_cons hi, List.take_succ_cons,
        List.all_cons]
      simp only [ne_eq, and_eq_iff_isTail]
      cases isTail bs[i] with
      | true => simpa using ih (i := i + 1) (by omega)
      | false => rfl

/-- A turn reads inside the text, and goes where the walk over lists goes. -/
theorem utf8Turn_eq {bs : List UInt8} {i : Nat} (h : i < bs.length) : utf8Turn bs i =
    some ((utf8Next bs[i] (bs.drop (i + 1))).map fun rest => bs.length - rest.length) := by
  rw [utf8Turn, List.getElem?_eq_getElem h, utf8Next]
  dsimp only
  split
  · simp only [Option.map_some, List.length_drop, Option.some.injEq]
    omega
  · cases hlead : utf8Lead bs[i].toNat with
    | none => rfl
    | some lead =>
        obtain ⟨more, lo, hi⟩ := lead
        have hpos := utf8Lead_pos hlead
        simp only [List.length_drop]
        by_cases hshort : bs.length < i + 1 + more
        · rw [if_pos hshort, if_pos (by omega)]
          rfl
        · have hi1 : i + 1 < bs.length := by omega
          have hget : (bs.drop (i + 1)).getD 0 0 = bs[i + 1] := by
            rw [List.drop_eq_getElem_cons hi1, List.getD_cons_zero]
          have htails : ((bs.drop (i + 1)).take more).drop 1 =
              (bs.drop (i + 2)).take (more - 1) := by
            rw [List.drop_take, List.drop_drop]
          rw [if_neg hshort, if_neg (by omega), List.getElem?_eq_getElem hi1, hget,
            utf8Tails_eq (by omega), htails]
          dsimp only
          split
          · rfl
          · cases ((bs.drop (i + 2)).take (more - 1)).all isTail with
            | false => rfl
            | true =>
                simp only [if_true, Option.map_some, List.length_drop, Option.some.injEq]
                omega

/-! ## the whole scan -/

/-- What is left after a turn is the end of the text. -/
theorem utf8Next_rest {a : UInt8} {bs rest : List UInt8} (h : utf8Next a bs = some rest) :
    rest = bs.drop (bs.length - rest.length) := by
  obtain ⟨tl, rfl, -⟩ := utf8Next_eq_some_iff.1 h
  simp

theorem utf8Scan_eq {bs : List UInt8} {n i : Nat} (h : bs.length - i < n) :
    utf8Scan bs n i = some (utf8Loop n (bs.drop i)) := by
  induction n generalizing i with
  | zero => omega
  | succ n ih =>
      rw [utf8Scan]
      split
      · next hend =>
          rw [List.drop_eq_nil_of_le hend]
          rfl
      · next hmore =>
          have hi : i < bs.length := Nat.not_le.1 hmore
          rw [utf8Turn_eq hi, List.drop_eq_getElem_cons hi, utf8Loop]
          cases hnext : utf8Next bs[i] (bs.drop (i + 1)) with
          | none => rfl
          | some rest =>
              have hrest := utf8Next_rest hnext
              have hlen := congrArg List.length hrest
              simp only [List.length_drop] at hrest hlen
              have hdrop : bs.drop (bs.length - rest.length) = rest := by
                conv => rhs; rw [hrest, List.drop_drop]
                congr 1
                omega
              dsimp only [Option.map_some]
              rw [ih (by omega), hdrop]

/-- **`utf8_ok` accepts the well-formed texts**: it ends, it reads no byte past
the end, and it says yes where the bytes are one character after the other,
which is where they are a string's. -/
theorem utf8_ok_exact (bs : List UInt8) : ∃ ok, utf8Scan bs (bs.length + 1) 0 = some ok ∧
    (ok = true ↔ WellFormed bs) ∧ ok = (decode bs).isSome := by
  have hloop : utf8Loop (bs.length + 1) bs = true ↔ ∃ cs, bs = encode cs :=
    utf8Loop_iff (Nat.le_succ _)
  refine ⟨utf8Loop (bs.length + 1) bs, ?_, ?_, ?_⟩
  · have hleft : bs.length - 0 < bs.length + 1 := by omega
    rw [utf8Scan_eq hleft, List.drop_zero]
  · rw [hloop, wellFormed_iff]
  · rw [Bool.eq_iff_iff, hloop, isSome_decode_iff]

end Phi.Rpc
