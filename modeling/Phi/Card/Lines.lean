import Mathlib.Algebra.GroupWithZero.Nat
import Mathlib.Algebra.BigOperators.Group.List.Basic
import Phi.Card.Sampling
import Phi.Lib.Ascii

/-!
# Phi.Card.Lines

What the sampler's scanning finds in a text: pieces of it that are text
themselves, and that together are no longer than it is.
-/

namespace Phi.Card

open Rpc Utf8

/-! ## what separates is ASCII -/

theorem isAscii_of_isSpace {b : UInt8} (h : isSpace b = true) : IsAscii b := by
  by_contra hb
  have hb' : 128 ≤ b.toNat := by
    unfold IsAscii at hb
    omega
  have hword : isWord b = true := isWord_of_lt (UInt8.lt_iff_toNat_lt.2 (Nat.lt_of_lt_of_le
    (by decide) hb'))
  simp [isWord, h] at hword

theorem isAscii_of_not_isWord {b : UInt8} (h : isWord b = false) : IsAscii b := by
  have hs : isSpace b = true := by simpa [isWord] using h
  exact isAscii_of_isSpace hs

/-- A scan for one byte. -/
theorem isAscii_of_eq {b c : UInt8} (hc : IsAscii c) (h : (decide (b ≠ c)) = false) :
    IsAscii b := by
  have hb : b = c := by simpa using h
  rwa [hb]

theorem isText_trim {text : List UInt8} (h : IsText text) : IsText (trim text) :=
  (h.dropWhile fun _ => isAscii_of_isSpace).rdropWhile fun _ => isAscii_of_isSpace

theorem length_trim_le (text : List UInt8) : (trim text).length ≤ text.length :=
  Nat.le_trans (List.rdropWhile_prefix _ _).length_le (List.dropWhile_suffix _).length_le

/-! ## tokens -/

/-- A token: where it stands, and that a separator ends it. -/
theorem nextToken_eq_some {text tok rest : List UInt8} (h : nextToken text = some (tok, rest)) :
    ∃ pre b bs, text = pre ++ (tok ++ rest) ∧ tok = b :: bs ∧ isSpace b = false ∧
      ∀ x ∈ rest.head?, isSpace x = true := by
  unfold nextToken at h
  cases hdrop : text.dropWhile isSpace with
  | nil => simp [hdrop] at h
  | cons b bs =>
      simp only [hdrop, Option.some.injEq, Prod.mk.injEq] at h
      obtain ⟨rfl, rfl⟩ := h
      refine ⟨text.takeWhile isSpace, b, bs.takeWhile isWord, ?_, rfl, dropWhile_eq_cons hdrop, ?_⟩
      · rw [List.cons_append, List.takeWhile_append_dropWhile, ← hdrop,
          List.takeWhile_append_dropWhile]
      · intro x hx
        cases hrest : bs.dropWhile isWord with
        | nil => simp [hrest] at hx
        | cons y ys =>
            have hy := dropWhile_eq_cons hrest
            rw [hrest] at hx
            have hxy : y = x := by simpa using hx
            simpa [isWord, hxy] using hy

theorem isText_nextToken {text tok rest : List UInt8} (h : nextToken text = some (tok, rest))
    (ht : IsText text) : IsText tok ∧ IsText rest := by
  unfold nextToken at h
  have hdrop := ht.dropWhile fun _ => isAscii_of_isSpace
  cases hd : text.dropWhile isSpace with
  | nil => simp [hd] at h
  | cons b bs =>
      have hb : isWord b = true := by simp [isWord, dropWhile_eq_cons hd]
      have hspan := hdrop.span (p := isWord) fun _ => isAscii_of_not_isWord
      simp only [hd, Option.some.injEq, Prod.mk.injEq] at h
      rw [hd, List.takeWhile_cons_of_pos hb, List.dropWhile_cons_of_pos hb, h.1, h.2] at hspan
      exact hspan

theorem isText_tokens {k : Nat} {text : List UInt8} (ht : IsText text) :
    ∀ tok ∈ tokens k text, IsText tok := by
  induction k generalizing text with
  | zero => simp [tokens]
  | succ k ih =>
      unfold tokens
      cases h : nextToken text with
      | none => simp
      | some p =>
          obtain ⟨htok, hrest⟩ := isText_nextToken h ht
          simpa using ⟨htok, ih hrest⟩

/-- Tokens and what separates them. -/
def spent (toks : List (List UInt8)) : Nat := (toks.map fun t => t.length + 1).sum

@[simp] theorem spent_nil : spent [] = 0 := rfl

@[simp] theorem spent_cons (t : List UInt8) (ts : List (List UInt8)) :
    spent (t :: ts) = t.length + 1 + spent ts := rfl

/-- A text that starts with a separator, or is empty, has room for a separator in
front of each of its tokens. -/
theorem spent_tokens_of_head {k : Nat} {text : List UInt8}
    (hhead : ∀ b ∈ text.head?, isSpace b = true) : spent (tokens k text) ≤ text.length := by
  induction k generalizing text with
  | zero => exact Nat.zero_le _
  | succ k ih =>
      unfold tokens
      cases h : nextToken text with
      | none => exact Nat.zero_le _
      | some p =>
          obtain ⟨pre, b, bs, htext, htok, hb, hrest⟩ := nextToken_eq_some h
          have hlen := ih hrest
          have hpre : pre ≠ [] := by
            rintro rfl
            have hspace := hhead b (by simp [htext, htok])
            rw [hb] at hspace
            cases hspace
          have hpos := List.length_pos_of_ne_nil hpre
          rw [spent_cons, htext, List.length_append, List.length_append]
          omega

theorem spent_tokens_le (k : Nat) (text : List UInt8) :
    spent (tokens k text) ≤ text.length + 1 := by
  cases k with
  | zero => exact Nat.zero_le _
  | succ k =>
      unfold tokens
      cases h : nextToken text with
      | none => exact Nat.zero_le _
      | some p =>
          obtain ⟨pre, b, bs, htext, -, -, hrest⟩ := nextToken_eq_some h
          have hlen := spent_tokens_of_head (k := k) hrest
          rw [spent_cons, htext, List.length_append, List.length_append]
          omega

theorem length_pos_of_mem_tokens {k : Nat} {text tok : List UInt8} (h : tok ∈ tokens k text) :
    0 < tok.length := by
  induction k generalizing text with
  | zero => simp [tokens] at h
  | succ k ih =>
      unfold tokens at h
      cases hnext : nextToken text with
      | none => simp [hnext] at h
      | some p =>
          obtain ⟨pre, b, bs, -, htok, -, -⟩ := nextToken_eq_some hnext
          simp only [hnext, List.mem_cons] at h
          rcases h with rfl | h
          · simp [htok]
          · exact ih h

theorem two_mul_length_le_spent {toks : List (List UInt8)} (hpos : ∀ t ∈ toks, 0 < t.length) :
    2 * toks.length ≤ spent toks := by
  induction toks with
  | nil => exact Nat.zero_le _
  | cons t ts ih =>
      have ht := hpos t List.mem_cons_self
      have hts := ih fun x hx => hpos x (List.mem_cons_of_mem t hx)
      rw [spent_cons, List.length_cons]
      omega

/-- A token beside the others. -/
theorem length_add_le_spent {toks : List (List UInt8)} (hpos : ∀ t ∈ toks, 0 < t.length)
    {tok : List UInt8} (h : tok ∈ toks) : tok.length + 2 * toks.length ≤ spent toks + 1 := by
  induction toks with
  | nil => simp at h
  | cons t ts ih =>
      have hrest := fun x hx => hpos x (List.mem_cons_of_mem t hx)
      rw [spent_cons, List.length_cons]
      rcases List.mem_cons.1 h with rfl | h
      · have hts := two_mul_length_le_spent hrest
        omega
      · have hts := ih hrest h
        have ht := hpos t List.mem_cons_self
        omega

/-! ## lines -/

theorem nextLine_eq_some {text line rest : List UInt8} (h : nextLine text = some (line, rest)) :
    line.length + rest.length ≤ text.length ∧ (IsText text → IsText line ∧ IsText rest) := by
  have hsplit := List.takeWhile_append_dropWhile (p := (· ≠ 10)) (l := text)
  have hspan := fun ht : IsText text =>
    ht.span (p := (· ≠ 10)) fun _ hb => isAscii_of_eq (by decide) hb
  have hlen := congrArg List.length hsplit
  unfold nextLine at h
  by_cases hnil : text = []
  · simp [hnil] at h
  · rw [if_neg hnil] at h
    dsimp only at h
    cases hdrop : text.dropWhile (· ≠ 10) with
    | nil =>
        simp only [hdrop, Option.some.injEq, Prod.mk.injEq] at h
        obtain ⟨rfl, rfl⟩ := h
        rw [hdrop, List.length_append] at hlen
        exact ⟨by simpa using Nat.le_of_eq hlen, fun ht => ⟨(hspan ht).1, isText_nil⟩⟩
    | cons b bs =>
        simp only [hdrop, Option.some.injEq, Prod.mk.injEq] at h
        obtain ⟨rfl, rfl⟩ := h
        have hb : IsAscii b := isAscii_of_eq (by decide) (dropWhile_eq_cons hdrop)
        rw [hdrop, List.length_append, List.length_cons] at hlen
        have hcr : (dropCr (text.takeWhile (· ≠ 10))).length ≤
            (text.takeWhile (· ≠ 10)).length := by
          unfold dropCr
          split
          · simp
          · exact Nat.le_refl _
        refine ⟨by omega, fun ht => ?_⟩
        obtain ⟨hline, hrest⟩ := hspan ht
        rw [hdrop] at hrest
        refine ⟨?_, hb.isText_cons.1 hrest⟩
        unfold dropCr
        split
        · next hlast =>
            obtain ⟨ys, hys⟩ := List.getLast?_eq_some_iff.1 hlast
            rw [hys] at hline ⊢
            rw [List.dropLast_concat]
            exact (IsAscii.isText_append (by decide)).1 hline
        · exact hline

theorem isText_linesFrom {k : Nat} {text : List UInt8} (ht : IsText text) :
    ∀ line ∈ linesFrom k text, IsText line := by
  induction k generalizing text with
  | zero => simp [linesFrom]
  | succ k ih =>
      unfold linesFrom
      cases h : nextLine text with
      | none => simp
      | some p =>
          obtain ⟨hline, hrest⟩ := (nextLine_eq_some h).2 ht
          simpa using ⟨hline, ih hrest⟩

theorem sum_linesFrom_le (k : Nat) (text : List UInt8) :
    ((linesFrom k text).map List.length).sum ≤ text.length := by
  induction k generalizing text with
  | zero => exact Nat.zero_le _
  | succ k ih =>
      unfold linesFrom
      cases h : nextLine text with
      | none => exact Nat.zero_le _
      | some p =>
          have hlen := (nextLine_eq_some h).1
          have hrest := ih p.2
          simp only [List.map_cons, List.sum_cons]
          omega

/-! ## devices -/

/-- What a device takes in the frame at most. -/
def Device.size (d : Device) : Nat := 18 + d.name.length

/-- What a text says of a device takes at least as much there. -/
def Brief (f : List UInt8 → Option Device) : Prop :=
  ∀ line d, f line = some d → d.size ≤ line.length ∧ (IsText line → IsText d.name)

theorem brief_diskLine : Brief diskLine := by
  intro line d h
  simp only [diskLine, Option.bind_eq_bind, Option.bind_eq_some_iff, Option.pure_def,
    Option.some.injEq] at h
  obtain ⟨name, hname, -, -, read, -, written, ⟨tok, hlast, -⟩, rfl⟩ := h
  have hmem : name ∈ tokens 10 line := List.mem_of_getElem? hname
  have hmany : 9 < (tokens 10 line).length := (List.getElem?_eq_some_iff.1 hlast).1
  have htaken := spent_tokens_le 10 line
  have hroom := length_add_le_spent (fun t ht => length_pos_of_mem_tokens ht) hmem
  refine ⟨?_, fun ht => isText_tokens ht name hmem⟩
  unfold Device.size
  dsimp only
  omega

theorem brief_netLine : Brief netLine := by
  intro line d h
  have hsplit := congrArg List.length (List.takeWhile_append_dropWhile (p := (· ≠ 58)) (l := line))
  unfold netLine at h
  cases hdrop : line.dropWhile (· ≠ 58) with
  | nil => simp only [hdrop, reduceCtorEq] at h
  | cons b counters =>
      simp only [hdrop, Option.bind_eq_bind, Option.bind_eq_some_iff, Option.pure_def,
        Option.some.injEq] at h
      obtain ⟨-, -, received, -, sent, ⟨tok, hlast, -⟩, rfl⟩ := h
      have hmany : 8 < (tokens 9 counters).length := (List.getElem?_eq_some_iff.1 hlast).1
      have htaken := spent_tokens_le 9 counters
      have hroom := two_mul_length_le_spent fun t (ht : t ∈ tokens 9 counters) =>
        length_pos_of_mem_tokens ht
      have htrim := length_trim_le (line.takeWhile (· ≠ 58))
      rw [hdrop, List.length_append, List.length_cons] at hsplit
      refine ⟨?_, fun ht => ?_⟩
      · unfold Device.size
        dsimp only
        omega
      · exact isText_trim (ht.span fun _ hb => isAscii_of_eq (by decide) hb).1

theorem sum_filterMap_le {f : List UInt8 → Option Device} (hf : Brief f)
    (ls : List (List UInt8)) :
    ((ls.filterMap f).map Device.size).sum ≤ (ls.map List.length).sum := by
  induction ls with
  | nil => exact Nat.le_refl _
  | cons l ls ih =>
      cases h : f l with
      | none =>
          rw [List.filterMap_cons_none h, List.map_cons, List.sum_cons]
          omega
      | some d =>
          have hd := (hf l d h).1
          rw [List.filterMap_cons_some h, List.map_cons, List.map_cons, List.sum_cons,
            List.sum_cons]
          omega

/-- The devices of a text. -/
structure FromText (ds : List Device) (text : List UInt8) : Prop where
  size : (ds.map Device.size).sum ≤ text.length
  names : ∀ d ∈ ds, IsText d.name

theorem fromText_filterMap {f : List UInt8 → Option Device} (hf : Brief f) {text : List UInt8}
    (ht : IsText text) : FromText ((lines text).filterMap f) text where
  size := Nat.le_trans (sum_filterMap_le hf _) (sum_linesFrom_le _ _)
  names := by
    intro d hd
    obtain ⟨line, hline, hfd⟩ := List.mem_filterMap.1 hd
    exact (hf line d hfd).2 (isText_linesFrom ht line hline)

theorem FromText.length {ds : List Device} {text : List UInt8} (h : FromText ds text) :
    18 * ds.length ≤ text.length := by
  have hall : ∀ ds : List Device, 18 * ds.length ≤ (ds.map Device.size).sum := by
    intro ds
    induction ds with
    | nil => exact Nat.le_refl _
    | cons d ds ih =>
        rw [List.length_cons, List.map_cons, List.sum_cons, Device.size]
        omega
  exact Nat.le_trans (hall ds) h.size

/-! ## files -/

theorem isText_readText (fs : Files) (path : List UInt8) (cap : Nat) :
    IsText (readText fs path cap) := by
  unfold readText
  split
  · exact isText_nil
  · next bs _ =>
      split
      · next hok =>
          rw [utf8Ok_eq] at hok
          exact isSome_decode_iff_isText.1 hok
      · exact isText_nil

theorem length_readText_le (fs : Files) (path : List UInt8) (cap : Nat) :
    (readText fs path cap).length ≤ cap := by
  unfold readText
  split
  · exact Nat.zero_le _
  · split
    · exact List.length_take_le _ _
    · exact Nat.zero_le _

end Phi.Card
