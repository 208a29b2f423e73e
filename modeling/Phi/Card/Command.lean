import Mathlib.Algebra.Order.BigOperators.Group.List
import Mathlib.Algebra.Order.Group.Nat
import Phi.Card.Decoding
import Phi.Card.Env
import Phi.Lib.Window
import Phi.Rpc.Decoders

/-!
# Phi.Card.Command

A command taken off the frame buffer, decoded (`run_exec` of `exec.S`, up to
the pipes).

`ex_decode_right`: the arena holds what `phi-rpc` reads from the frame, and it
is large enough, even for the strings that `ex_env` writes behind it.
-/

namespace Phi.Card

open Rpc Walk Utf8 Reader Serve

namespace Ex

/-! ## what is there at the end -/

/-- A pointer to a string from `lo` to `hi`, which ends with a NUL. -/
def Points (t : Ex) (q lo hi : Nat) (bs : List UInt8) : Prop :=
  lo ≤ t.word q ∧ t.word q + bs.length + 1 ≤ hi ∧ t.Str (t.word q) bs

/-- What was placed below the next free byte is where it was. -/
theorem PtrTo.points {s t : Ex} {q hp lo hi : Nat} {bs : List UInt8} (h : s.PtrTo q hp bs)
    (hg : Grows lo hi s t) (hq : q + 8 ≤ s.ab) (hlo : s.ab ≤ lo) (hab : t.ab ≤ 2 ^ 64) :
    t.Points q hp s.ab bs := by
  obtain ⟨p, hptr, hle, hend, hstr⟩ := h
  have hword : t.word q = p := by
    have hsmall := hg.ab
    unfold word
    rw [hg.load hq (.inl (by omega)), hptr, ofLe_leBytes (by omega)]
  unfold Points
  rw [hword]
  exact ⟨hle, hend, (hg.load (by omega) (.inl (by omega))).trans hstr⟩

/-- What `ex_env` reads of a record: its key, its value, and its mark. -/
def recKey (t : Ex) (r : Nat) : List UInt8 := t.load (t.word r) (t.dword (r + 16))
def recValue (t : Ex) (r : Nat) : List UInt8 := t.load (t.word (r + 8)) (t.dword (r + 20))
def recNul (t : Ex) (r : Nat) : Bool := t.dword (r + 24) ≠ 0

/-- A record of an entry, its strings from `lo` to `hi`. -/
structure IsRecord (t : Ex) (r lo hi : Nat) (e : String × String) : Prop where
  key : t.Points r lo hi (bytes e.1)
  value : t.Points (r + 8) lo hi (bytes e.2)
  recKey : t.recKey r = bytes e.1
  recValue : t.recValue r = bytes e.2
  recNul : t.recNul r = ((bytes e.1).contains 0 || (bytes e.2).contains 0)

theorem load_of_str {t : Ex} {p : Nat} {bs : List UInt8} (h : t.Str p bs) :
    t.load p bs.length = bs := by
  have hcut : (t.load p (bs.length + 1)).take bs.length = t.load p bs.length :=
    Circular.take_read t.mem (Nat.le_succ bs.length)
  rw [← hcut, h, List.take_left]

theorem EntryAt.isRecord {s t : Ex} {r hp lo hi : Nat} {e : String × String}
    (h : s.EntryAt r hp e) (hg : Grows lo hi s t) (hr : r + 32 ≤ s.ab) (hlo : s.ab ≤ lo)
    (hab : t.ab ≤ 2 ^ 64) (hkey : Short e.1) (hvalue : Short e.2) : t.IsRecord r hp s.ab e := by
  have hk := h.key.points hg (by omega) hlo hab
  have hv := h.value.points hg (by omega) hlo hab
  have hklen : t.dword (r + 16) = (bytes e.1).length := by
    unfold dword
    rw [hg.load (by omega) (.inl (by omega)), h.keyLen,
      ofLe_leBytes (Nat.lt_trans hkey (by decide))]
  have hvlen : t.dword (r + 20) = (bytes e.2).length := by
    unfold dword
    rw [hg.load (by omega) (.inl (by omega)), h.valueLen,
      ofLe_leBytes (Nat.lt_trans hvalue (by decide))]
  refine ⟨hk, hv, ?_, ?_, ?_⟩
  · unfold Ex.recKey
    rw [hklen, load_of_str hk.2.2]
  · unfold Ex.recValue
    rw [hvlen, load_of_str hv.2.2]
  · unfold Ex.recNul dword
    rw [hg.load (by omega) (.inl (by omega)), h.nul]
    cases (bytes e.1).contains 0 || (bytes e.2).contains 0 <;> decide

/-- Tables, scratch and strings of the arena, in order and apart. -/
structure Areas (t : Ex) (arena : Nat) : Prop where
  argv : t.argv = arena
  envrec : t.argv + 8 * (t.argc + 1) ≤ t.envrec
  idxA : t.envrec + 32 * t.envc ≤ t.idxA
  idxB : t.idxA + 4 * t.envc ≤ t.idxB
  envp : t.idxB + 4 * t.envc ≤ t.envp
  ab : t.envp + 8 * (t.envc + 1) ≤ t.ab

/-- The command decoded: argv with the NULL behind it, a record for each entry of the
environment, the directory (NULL for none), and whether argv or the directory has a
NUL byte. -/
structure Holds (t : Ex) (argv : List String) (env : List (String × String))
    (cwd : Option String) : Prop where
  argc : t.argc = argv.length
  args : ∀ i a, argv[i]? = some a →
    t.Points (t.argv + 8 * i) (t.argv + 8 * (t.argc + 1)) t.envrec (bytes a)
  last : t.word (t.argv + 8 * t.argc) = 0
  prog : ∀ a, argv[0]? = some a → t.progLen = (bytes a).length
  envc : t.envc = env.length
  entries : ∀ i e, env[i]? = some e →
    t.IsRecord (t.envrec + 32 * i) (t.envp + 8 * (t.envc + 1)) t.ab e
  dir : match cwd with
    | none => t.cwd = 0
    | some d => t.cwd ≠ 0 ∧ t.envp + 8 * (t.envc + 1) ≤ t.cwd ∧
        t.cwd + (bytes d).length + 1 ≤ t.ab ∧ t.Str t.cwd (bytes d)
  nul : t.nul = (argv ++ cwd.toList).any fun a => (bytes a).contains 0

section placed

variable (s : Ex) (arena : Nat) (argv : List String) (env : List (String × String)) (cwd : String)

/-- The notes at the end. -/
theorem noted :
    (s.placed arena argv env cwd).argc = argv.length ∧
      (s.placed arena argv env cwd).argv = arena ∧
      (s.placed arena argv env cwd).envc = env.length ∧
      (s.placed arena argv env cwd).envrec =
        ((s.withArgs arena argv).layOut env.length).envrec ∧
      (s.placed arena argv env cwd).idxA =
        ((s.withArgs arena argv).layOut env.length).idxA ∧
      (s.placed arena argv env cwd).idxB =
        ((s.withArgs arena argv).layOut env.length).idxB ∧
      (s.placed arena argv env cwd).envp =
        ((s.withArgs arena argv).layOut env.length).envp := by
  obtain ⟨-, -, hargs⟩ := withArgs_spec s arena argv
  obtain ⟨-, -, henv⟩ := withEnv_spec (s.withArgs arena argv) env
  simp only [notes, List.cons.injEq] at hargs henv
  obtain ⟨hargc, hargv, -⟩ := hargs
  obtain ⟨hargc', hargv', henvc, henvrec, hidxA, hidxB, henvp, -⟩ := henv
  exact ⟨hargc'.trans hargc, hargv'.trans hargv, henvc, henvrec, hidxA, hidxB, henvp⟩

theorem ab_withArgs : (s.withArgs arena argv).ab =
    arena + 8 + 8 * argv.length + (argv.map strNeed).sum := ab_placeArgs _ argv

theorem ab_withEnv : (s.withEnv env).ab =
    (s.layOut env.length).ab + (env.map pairNeed).sum := ab_placeEntries _ env

/-- How much of the arena is used. -/
theorem ab_placed :
    (s.placed arena argv env cwd).ab ≤ arena + 8 + 8 * argv.length + (argv.map strNeed).sum +
      (48 * env.length + 22) + (env.map pairNeed).sum + strNeed cwd := by
  have hargs := s.ab_withArgs arena argv
  have henv := (s.withArgs arena argv).ab_withEnv env
  have hcwd : (s.placed arena argv env cwd).ab =
      ((s.withArgs arena argv).withEnv env).ab + strNeed cwd := rfl
  have hlay := layOut_spec (s.withArgs arena argv) env.length
  omega

theorem areas_placed : (s.placed arena argv env cwd).Areas arena := by
  obtain ⟨hargc, hargv, henvc, henvrec, hidxA, hidxB, henvp⟩ := s.noted arena argv env cwd
  have hargs := s.ab_withArgs arena argv
  have henv := (s.withArgs arena argv).ab_withEnv env
  have hcwd : (s.placed arena argv env cwd).ab =
      ((s.withArgs arena argv).withEnv env).ab + strNeed cwd := rfl
  have hlay := layOut_spec (s.withArgs arena argv) env.length
  constructor <;> omega

theorem grows_rest : Grows ((s.withArgs arena argv).layOut env.length).envrec
    ((s.withArgs arena argv).layOut env.length).ab (s.withArgs arena argv)
    (s.placed arena argv env cwd) := by
  obtain ⟨henv, -, -⟩ := withEnv_spec (s.withArgs arena argv) env
  have hlay := layOut_spec (s.withArgs arena argv) env.length
  have hab := (s.withArgs arena argv).ab_withEnv env
  exact (henv.mono (Nat.le_refl _) (by omega)).trans (grows_withCwd _ cwd _ _ (by omega))

/-- Nothing below the arena is written, and nothing behind its next free byte. -/
theorem stored_placed : ∃ more, (s.placed arena argv env cwd).stored = s.stored ++ more ∧
    ∀ w ∈ more, arena ≤ w.1 ∧ w.1 + w.2 ≤ (s.placed arena argv env cwd).ab := by
  obtain ⟨hargs, -, -⟩ := withArgs_spec s arena argv
  have hlay := layOut_spec (s.withArgs arena argv) env.length
  have hab := s.ab_withArgs arena argv
  exact ((hargs.mono (Nat.le_refl _) (by omega)).trans
    ((s.grows_rest arena argv env cwd).mono (by omega) (Nat.le_refl _))).stored

theorem args_placed (hab : (s.placed arena argv env cwd).ab ≤ 2 ^ 64) :
    (∀ i a, argv[i]? = some a → (s.placed arena argv env cwd).Points (arena + 8 * i)
      (arena + 8 + 8 * argv.length) (s.withArgs arena argv).ab (bytes a)) ∧
      (s.placed arena argv env cwd).word (arena + 8 * argv.length) = 0 := by
  obtain ⟨-, ⟨hargs, hlast⟩, -⟩ := withArgs_spec s arena argv
  have hrest := s.grows_rest arena argv env cwd
  have hlay := layOut_spec (s.withArgs arena argv) env.length
  have hroom := s.ab_withArgs arena argv
  constructor
  · intro i a ha
    obtain ⟨hi, -⟩ := List.getElem?_eq_some_iff.mp ha
    exact (hargs i a ha).points hrest (by omega) hlay.1 hab
  · unfold word
    rw [hrest.load (by omega) (.inl (by omega)), hlast, ofLe_leBytes (by decide)]

theorem entries_placed (hab : (s.placed arena argv env cwd).ab ≤ 2 ^ 64)
    (hshort : ∀ e ∈ env, Short e.1 ∧ Short e.2) (i : Nat) (e : String × String)
    (he : env[i]? = some e) :
    (s.placed arena argv env cwd).IsRecord ((s.placed arena argv env cwd).envrec + 32 * i)
      ((s.placed arena argv env cwd).envp + 8 + 8 * env.length)
      ((s.withArgs arena argv).withEnv env).ab e := by
  obtain ⟨-, -, -, henvrec, -, -, -⟩ := s.noted arena argv env cwd
  obtain ⟨-, henvAt, -⟩ := withEnv_spec (s.withArgs arena argv) env
  have hlay := layOut_spec (s.withArgs arena argv) env.length
  have henv := (s.withArgs arena argv).ab_withEnv env
  have hcwd := grows_withCwd ((s.withArgs arena argv).withEnv env) cwd
    ((s.withArgs arena argv).withEnv env).ab 0 (Nat.le_refl _)
  obtain ⟨hi, -⟩ := List.getElem?_eq_some_iff.mp he
  obtain ⟨hkey, hvalue⟩ := hshort e (List.mem_of_getElem? he)
  have hsame : (s.placed arena argv env cwd).envrec =
      ((s.withArgs arena argv).withEnv env).envrec := rfl
  exact (henvAt i e he).isRecord hcwd (by omega) (Nat.le_refl _) hab hkey hvalue

theorem prog_placed (a : String) (ha : argv[0]? = some a) :
    (s.placed arena argv env cwd).progLen = (bytes a).length := by
  cases argv with
  | nil => simp at ha
  | cons b rest =>
      obtain rfl : b = a := by simpa using ha
      exact (rest_placeEntries _ env).2.trans (progLen_placeArgs _ b rest)

theorem nul_placed : (s.placed arena argv env cwd).nul =
    ((argv.any fun a => (bytes a).contains 0) || (bytes cwd).contains 0) := by
  have hend : (s.placed arena argv env cwd).nul =
      (((s.withArgs arena argv).withEnv env).nul || (bytes cwd).contains 0) := rfl
  have hargs : (s.withArgs arena argv).nul =
      (false || argv.any fun a => (bytes a).contains 0) := nul_placeArgs _ argv
  have henv : ((s.withArgs arena argv).withEnv env).nul = (s.withArgs arena argv).nul :=
    (rest_placeEntries _ env).1
  rw [hend, henv, hargs, Bool.false_or]

theorem cwd_placed : (s.placed arena argv env cwd).cwd =
    if cwd = "" then 0 else ((s.withArgs arena argv).withEnv env).ab := by
  by_cases hc : cwd = ""
  · subst hc
    rfl
  · have hlen : (bytes cwd).length ≠ 0 := fun h0 => hc <| by
      have hempty := decode_bytes cwd
      rw [List.eq_nil_of_length_eq_zero h0] at hempty
      exact (Option.some.inj hempty).symm
    rw [if_neg hc]
    exact if_neg hlen

/-- All of the command is there. -/
theorem holds_placed (hab : (s.placed arena argv env cwd).ab ≤ 2 ^ 64)
    (hshort : ∀ e ∈ env, Short e.1 ∧ Short e.2) :
    (s.placed arena argv env cwd).Holds argv env (if cwd = "" then none else some cwd) := by
  obtain ⟨hargc, hargv, henvc, henvrec, -, -, henvp⟩ := s.noted arena argv env cwd
  obtain ⟨hargs, hlast⟩ := s.args_placed arena argv env cwd hab
  have hlay := layOut_spec (s.withArgs arena argv) env.length
  have hroom := s.ab_withArgs arena argv
  have henv := (s.withArgs arena argv).ab_withEnv env
  have hend : (s.placed arena argv env cwd).ab =
      ((s.withArgs arena argv).withEnv env).ab + (bytes cwd).length + 1 := rfl
  constructor
  case argc => exact hargc
  case args =>
    intro i a ha
    obtain ⟨hlo, hhi, hstr⟩ := hargs i a ha
    rw [hargv, hargc]
    exact ⟨by omega, by omega, hstr⟩
  case last => rw [hargv, hargc, hlast]
  case prog => exact s.prog_placed arena argv env cwd
  case envc => exact henvc
  case entries =>
    intro i e he
    obtain ⟨⟨hklo, hkhi, hk⟩, ⟨hvlo, hvhi, hv⟩, hkey, hvalue, hnul⟩ :=
      s.entries_placed arena argv env cwd hab hshort i e he
    rw [henvc]
    exact ⟨⟨by omega, by omega, hk⟩, ⟨by omega, by omega, hv⟩, hkey, hvalue, hnul⟩
  case dir =>
    rw [s.cwd_placed arena argv env cwd]
    by_cases hc : cwd = ""
    · rw [if_pos hc, if_pos hc]
    · rw [if_neg hc, if_neg hc, henvc]
      exact ⟨by omega, by omega, by omega, str_copied _ (bytes cwd)⟩
  case nul =>
    rw [nul_placed, List.any_append]
    by_cases hc : cwd = ""
    · subst hc
      simp [bytes]
    · simp [hc]

end placed

end Ex

/-! ## from the frame -/

/-- A frame taken off the buffer lies there, and is no longer than a frame may be. -/
theorem frame_taken {w w' : Window UInt8} {tag : UInt8} {body : List UInt8}
    (h : rxTurn w = some (.frame tag body, w')) :
    validate tag body = 0 ∧ Circular.read w.cells (w.head + 5) body.length = body ∧
      body.length < Rpc.maxFrame := by
  unfold rxTurn at h
  split at h
  · cases h
  · dsimp only at h
    split at h
    · cases h
    · next hgood =>
        split at h
        · cases h
        · obtain ⟨hvalid, rfl, rfl⟩ := outcome_of_frame (Prod.mk.inj (Option.some.inj h)).1
          rw [Circular.length_read]
          exact ⟨hvalid, rfl, by omega⟩

/-- What the validator passes is a command for `phi-rpc`. -/
theorem exec_of_validate {body : List UInt8} (h : validate (Tag.toByte .exec) body = 0) :
    ∃ msg left, Read.exec body = some (msg, left) ∧
      decodeBody (Tag.toByte .exec) body = .ok msg := by
  obtain ⟨⟨msg, left⟩, hmsg⟩ := fields_of_validate h
  refine ⟨msg, left, hmsg, ?_⟩
  unfold decodeBody
  rw [Tag.ofByte_toByte]
  dsimp only
  rw [hmsg]

theorem sum_strNeed (argv : List String) :
    (argv.map Ex.strNeed).sum ≤ (argv.map strWorth).sum := by
  induction argv with
  | nil => exact Nat.le_refl _
  | cons a argv ih =>
      simp only [List.map_cons, List.sum_cons, Ex.strNeed, strWorth]
      omega

theorem sum_pairNeed (env : List (String × String)) :
    (env.map Ex.pairNeed).sum ≤ (env.map pairWorth).sum := by
  induction env with
  | nil => exact Nat.le_refl _
  | cons e env ih =>
      simp only [List.map_cons, List.sum_cons, Ex.pairNeed, pairWorth, Ex.strNeed, strWorth]
      omega

/-! ## the environment -/

/-- The records as `ex_env` finds them. -/
structure Ex.Records (t : Ex) (recs : Nat → EnvRec) : Prop where
  key : ∀ i < t.envc, (recs i).key.bytes = t.recKey (t.envrec + 32 * i)
  value : ∀ i < t.envc, (recs i).value.bytes = t.recValue (t.envrec + 32 * i)
  nul : ∀ i < t.envc, (recs i).nul = t.recNul (t.envrec + 32 * i)

/-- What `ex_env` writes: a string with its NUL. -/
def outNeed (bs : List UInt8) : Nat := bs.length + 1

/-- The entries that `ex_env` writes take no more than all of them would. -/
theorem exEnv_need (recs : Nat → EnvRec) (envc : Nat) (idxA idxB : Nat → Nat) (nul : Bool) :
    (exEnv recs envc idxA idxB nul).envp.length ≤ envc ∧
      ((exEnv recs envc idxA idxB nul).envp.map outNeed).sum ≤
        ((List.range envc).map fun i =>
          (recs i).key.bytes.length + (recs i).value.bytes.length + 2).sum := by
  have hout : (exEnv recs envc idxA idxB nul).envp = (keptIdx recs envc idxA idxB).map fun i =>
      (recs i).key.bytes ++ 0x3d :: (recs i).value.bytes := by
    unfold exEnv
    rw [keepEntries_eq, (keep_all _ _).1, List.map_map]
    rfl
  have hperm := (sortedIdx_sorted recs envc idxA idxB).perm
  rw [Nat.sub_zero, ← List.range_eq_range'] at hperm
  have hsub := StableSort.keepLast_sublist (sameKey recs)
    (Circular.read (sortedIdx recs envc idxA idxB) 0 envc)
  constructor
  · rw [hout, List.length_map]
    exact Nat.le_trans hsub.length_le (by simp [hperm.length_eq])
  · rw [hout, List.map_map]
    have hone : (outNeed ∘ fun i => (recs i).key.bytes ++ 0x3d :: (recs i).value.bytes) =
        fun i => (recs i).key.bytes.length + (recs i).value.bytes.length + 2 := by
      funext i
      simp [outNeed, Nat.add_assoc]
    rw [hone]
    exact Nat.le_trans (List.Sublist.sum_le_sum (hsub.map _) fun _ _ => Nat.zero_le _)
      (Nat.le_of_eq (hperm.map _).sum_nat)

theorem Ex.Holds.out_need {t : Ex} {argv : List String} {env : List (String × String)}
    {cwd : Option String} (h : t.Holds argv env cwd) {recs : Nat → EnvRec} (hr : t.Records recs) :
    ((List.range t.envc).map fun i =>
        (recs i).key.bytes.length + (recs i).value.bytes.length + 2).sum =
      (env.map Ex.pairNeed).sum := by
  congr 1
  refine List.ext_getElem (by simp [h.envc]) fun i hi hj => ?_
  rw [List.length_map] at hj
  have hlt : i < t.envc := h.envc.symm ▸ hj
  have hrec := h.entries i env[i] (List.getElem?_eq_getElem hj)
  simp only [List.getElem_map, List.getElem_range, hr.key i hlt, hr.value i hlt, hrec.recKey,
    hrec.recValue, Ex.pairNeed, Ex.strNeed]
  omega

/-- The walk over the body leaves what `phi-rpc` reads placed, and room behind it. -/
theorem exec_placed {w w' : Window UInt8} {body : List UInt8}
    (h : rxTurn w = some (.frame (Tag.toByte .exec) body, w')) (arena : Nat) (s : Ex) :
    ∃ argv env cwd c, decodeBody (Tag.toByte .exec) body =
        .ok (.exec argv env (if cwd = "" then none else some cwd)) ∧
      exDecode arena w.cells ⟨w.head + 5, w.head + 5⟩ s = ((), c, s.placed arena argv env cwd) ∧
      c.high ≤ w.head + 5 + body.length ∧ (∀ e ∈ env, Short e.1 ∧ Short e.2) ∧
      (s.placed arena argv env cwd).ab + (env.map Ex.pairNeed).sum ≤ arena + arenaCap := by
  obtain ⟨hvalid, hbody, hlen⟩ := frame_taken h
  obtain ⟨msg, left, hread, hdecode⟩ := exec_of_validate hvalid
  obtain ⟨⟨⟩, c, t, hwalk, ⟨argv, env, cwd, hmsg, rfl⟩, -, -, hhigh⟩ :=
    follows_exDecode arena s w.cells ⟨w.head + 5, w.head + 5⟩ body left msg hread hbody
      (Nat.le_add_right _ _)
  obtain ⟨n, hn, argv', env', cwd', hmsg', hargc, henvc, hshort, hspent⟩ :=
    spends_exec body msg left hread
  have hsame := hmsg'.symm.trans hmsg
  injection hsame with hargv henv hcwd
  subst hargv henv
  have hcwd : cwd' = cwd := by
    by_cases h0 : cwd' = ""
    · by_cases h1 : cwd = ""
      · rw [h0, h1]
      · simp [h0, h1] at hcwd
    · by_cases h1 : cwd = ""
      · simp [h0, h1] at hcwd
      · simpa [h0, h1] using hcwd
  subst hcwd
  refine ⟨argv', env', cwd', c, hmsg ▸ hdecode, hwalk, hhigh, hshort, ?_⟩
  have hab := s.ab_placed arena argv' env' cwd'
  have hargs := sum_strNeed argv'
  have hentries := sum_pairNeed env'
  unfold Ex.strNeed strWorth at *
  unfold Rpc.maxFrame at hlen
  unfold arenaCap
  omega

/-- **The command is decoded right, and the arena is large enough.** -/
theorem ex_decode_right {w w' : Window UInt8} {body : List UInt8}
    (h : rxTurn w = some (.frame (Tag.toByte .exec) body, w')) {arena : Nat}
    (hfit : arena + arenaCap ≤ 2 ^ 64) (s : Ex) :
    ∃ argv env cwd c t, decodeBody (Tag.toByte .exec) body = .ok (.exec argv env cwd) ∧
      exDecode arena w.cells ⟨w.head + 5, w.head + 5⟩ s = ((), c, t) ∧
      c.high ≤ w.head + 5 + body.length ∧ t.Areas arena ∧ t.Holds argv env cwd ∧
      (∃ more, t.stored = s.stored ++ more ∧
        ∀ x ∈ more, arena ≤ x.1 ∧ x.1 + x.2 ≤ arena + arenaCap) ∧
      ∀ recs, t.Records recs → ∀ idxA idxB,
        (exEnv recs t.envc idxA idxB t.nul).envp.length ≤ t.envc ∧
          t.ab + ((exEnv recs t.envc idxA idxB t.nul).envp.map outNeed).sum ≤
            arena + arenaCap := by
  obtain ⟨argv, env, cwd, c, hdecode, hwalk, hhigh, hshort, hroom⟩ := exec_placed h arena s
  have hholds := s.holds_placed arena argv env cwd (by omega) hshort
  obtain ⟨more, hmore, hin⟩ := s.stored_placed arena argv env cwd
  refine ⟨argv, env, _, c, _, hdecode, hwalk, hhigh, s.areas_placed arena argv env cwd, hholds,
    ⟨more, hmore, fun x hx => ⟨(hin x hx).1, Nat.le_trans (hin x hx).2 (by omega)⟩⟩,
    fun recs hrecs idxA idxB => ?_⟩
  obtain ⟨hcount, hsum⟩ := exEnv_need recs (s.placed arena argv env cwd).envc idxA idxB
    (s.placed arena argv env cwd).nul
  rw [hholds.out_need hrecs] at hsum
  exact ⟨hcount, by omega⟩

/-- `ls` in `/`, with one variable. -/
def lsBody : List UInt8 :=
  [1, 0, 2, 0, 108, 115, 1, 0, 1, 0, 65, 2, 0, 98, 61, 1, 0, 47]

def lsWindow : Window UInt8 :=
  ⟨fun i => ([19, 0, 0, 0, 1] ++ lsBody).getD i 0, 0, 23⟩

theorem ex_decode_right_ls :
    ∃ argv env cwd c t, decodeBody (Tag.toByte .exec) lsBody = .ok (.exec argv env cwd) ∧
      exDecode 4096 lsWindow.cells ⟨0 + 5, 0 + 5⟩
        ⟨fun _ => 0, [], 0, 0, 0, 0, 0, 0, 0, 0, 0, 0, false⟩ = ((), c, t) ∧
      t.Holds argv env cwd := by
  obtain ⟨⟨o, w'⟩, hturn, rfl⟩ : ∃ x, rxTurn lsWindow = some x ∧
      x.1 = .frame (Tag.toByte .exec) lsBody := Option.map_eq_some_iff.mp (by decide +kernel)
  obtain ⟨argv, env, cwd, c, t, hdecode, hwalk, -, -, hholds, -⟩ :=
    ex_decode_right hturn (show 4096 + arenaCap ≤ 2 ^ 64 by decide) _
  exact ⟨argv, env, cwd, c, t, hdecode, hwalk, hholds⟩

end Phi.Card
