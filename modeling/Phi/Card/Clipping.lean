import Phi.Ctl.Frame
import Phi.Rpc.RoundTrip

/-!
# Phi.Card.Clipping

Strings cut to what a length of two bytes can say: `w_str_begin` and
`w_str_end` of `phictl/text.S` and of the agent's `text.S`, and `put_str` of
phi-rpc.

The programs write a string in pieces and cut it where it ends, stepping back
in the buffer; phi-rpc looks for a boundary of the string before it writes.
All keep as many whole characters as fit (`clipped_alike`).
-/

namespace Phi.Card

open Rpc Utf8 Ctl

/-- A string in pieces, as the daemon writes one. -/
def daemonStr (t : Tx) (pieces : List (List UInt8)) : Tx :=
  (pieces.foldl Tx.wBytes { t with wp := t.wp + 2 }).wStrEnd (t.wp + 2)

/-- `w_str_end` of the agent: the daemon's lines. -/
def wStrEnd (t : Tx) (strAt : Nat) : Tx := t.wStrEnd strAt

/-- A string in pieces, as the agent writes one. -/
def agentStr (t : Tx) (pieces : List (List UInt8)) : Tx :=
  wStrEnd (pieces.foldl Tx.wBytes { t with wp := t.wp + 2 }) (t.wp + 2)

/-! ## whole characters -/

/-- The bytes of whole characters from the front of a string. -/
def Whole (s : String) (bs : List UInt8) : Prop := ∃ cs, cs <+: s.toList ∧ bs = encode cs

/-- As many of them as fit. -/
structure Longest (s : String) (bs : List UInt8) : Prop where
  whole : Whole s bs
  fits : bs.length ≤ maxString
  longest : ∀ cs, Whole s cs → cs.length ≤ maxString → cs <+: bs

theorem longest_clip (s : String) : Longest s (clip s maxString) where
  whole := ⟨fitting maxString s.toList, fitting_isPrefix _ _, clip_eq s maxString⟩
  fits := by
    rw [clip_eq]
    exact length_encode_fitting_le _ _
  longest := by
    rintro _ ⟨cs, hcs, rfl⟩ hfits
    rw [clip_eq]
    exact encode_isPrefix (prefix_fitting hcs hfits)

/-- There is only one such prefix. -/
theorem Longest.unique {s : String} {bs cs : List UInt8} (hb : Longest s bs)
    (hc : Longest s cs) : bs = cs :=
  (hc.longest bs hb.whole hb.fits).eq_of_length_le
    (hb.longest cs hc.whole hc.fits).length_le

/-! ## what is written -/

/-- A string that is UTF-8 is never all continuation bytes. -/
theorem not_runaway_bytes (s : String) : ¬ Runaway (bytes s) := by
  rintro ⟨hlong, hall⟩
  cases hs : bytes s with
  | nil => simp [hs] at hlong
  | cons b bs =>
      have hhead : (bytes s).head? = some b := by rw [hs]; rfl
      have hb := head_bytes hhead
      rw [hs, List.take_succ_cons, List.all_cons, hb] at hall
      cases hall

theorem putStr_eq (s : String) :
    putStr s = leBytes 2 (clip s maxString).length ++ clip s maxString := by
  have hfits : (clip s maxString).length < UInt16.size :=
    Nat.lt_succ_of_le (longest_clip s).fits
  show leBytes 2 (UInt16.ofNat _).toNat ++ _ = _
  rw [UInt16.toNat_ofNat_of_lt' hfits]

/-- The string's length and bytes are written from the cursor on, and the
cursor is behind them. -/
structure Wrote (t t' : Tx) (bs : List UInt8) : Prop where
  wp : t'.wp = t.wp + 2 + bs.length
  mem : Circular.read t'.mem t.wp (2 + bs.length) = leBytes 2 bs.length ++ bs
  before : ∀ i < t.wp, t'.mem i = t.mem i

/-- Pieces are written as one string. -/
theorem foldl_wBytes (pieces : List (List UInt8)) (t : Tx) :
    (pieces.foldl Tx.wBytes t).mem = Circular.write t.mem t.wp pieces.flatten ∧
      (pieces.foldl Tx.wBytes t).wp = t.wp + pieces.flatten.length := by
  induction pieces generalizing t with
  | nil => simp
  | cons bs pieces ih =>
      obtain ⟨hmem, hwp⟩ := ih (t.wBytes bs)
      rw [List.foldl_cons, hmem, hwp, List.flatten_cons, List.length_append]
      refine ⟨Circular.write_append t.mem t.wp bs _, ?_⟩
      rw [← Nat.add_assoc]
      rfl

theorem wrote_daemonStr (t : Tx) {s : String} {pieces : List (List UInt8)}
    (h : pieces.flatten = bytes s) : Wrote t (daemonStr t pieces) (clip s maxString) := by
  obtain ⟨hmem, hwp⟩ := foldl_wBytes pieces { t with wp := t.wp + 2 }
  rw [h] at hmem hwp
  have hread : Circular.read (pieces.foldl Tx.wBytes { t with wp := t.wp + 2 }).mem (t.wp + 2)
      (bytes s).length = bytes s := by
    rw [hmem]
    exact Circular.read_write _ _ _
  have hend := Tx.wStrEnd_eq hread hwp (not_runaway_bytes s)
  have hcut : cutStr (bytes s) = clip s maxString := rfl
  rw [hcut] at hend
  have hpre : clip s maxString <+: bytes s := by
    rw [clip_eq]
    exact encode_isPrefix (fitting_isPrefix _ _)
  have hlen : (leBytes 2 (clip s maxString).length).length = 2 := length_leBytes 2 _
  rw [daemonStr, hend]
  constructor
  · rfl
  · show Circular.read (Circular.write _ t.wp (leBytes 2 (clip s maxString).length)) t.wp _ = _
    rw [Circular.read_append]
    congr 1
    · conv => lhs; rw [← hlen]
      exact Circular.read_write _ _ _
    · rw [Circular.read_write_of_disjoint _ (.inr (by omega)),
        ← Circular.take_read _ hpre.length_le, hread]
      exact (List.prefix_iff_eq_take.1 hpre).symm
  · intro i hi
    show Circular.write _ t.wp _ i = t.mem i
    rw [Circular.write_of_not_mem _ (.inl hi), hmem]
    exact Circular.write_of_not_mem _ (.inl (by show i < t.wp + 2; omega))

/-- **Strings are clipped alike**: in whatever pieces the programs write a
string, they and phi-rpc keep the most whole characters that fit. -/
theorem clipped_alike (s : String) (daemon agent : List (List UInt8)) (t u : Tx)
    (hd : daemon.flatten = bytes s) (ha : agent.flatten = bytes s) :
    ∃ kept, Longest s kept ∧ (∀ bs, Longest s bs → bs = kept) ∧
      putStr s = leBytes 2 kept.length ++ kept ∧
      Wrote t (daemonStr t daemon) kept ∧ Wrote u (agentStr u agent) kept :=
  ⟨clip s maxString, longest_clip s, fun _ h => h.unique (longest_clip s), putStr_eq s,
    wrote_daemonStr t hd, wrote_daemonStr u ha⟩

/-- A character written in two pieces. -/
theorem clipped_alike_split :
    ∃ kept, Longest "é" kept ∧ (∀ bs, Longest "é" bs → bs = kept) ∧
      putStr "é" = leBytes 2 kept.length ++ kept ∧
      Wrote ⟨fun _ => 0, 5, 5⟩ (daemonStr ⟨fun _ => 0, 5, 5⟩ [[0xc3], [0xa9]]) kept ∧
      Wrote ⟨fun _ => 0, 5, 5⟩ (agentStr ⟨fun _ => 0, 5, 5⟩ [[0xc3, 0xa9]]) kept :=
  clipped_alike "é" [[0xc3], [0xa9]] [[0xc3, 0xa9]] _ _ (by decide +kernel) (by decide +kernel)

end Phi.Card
