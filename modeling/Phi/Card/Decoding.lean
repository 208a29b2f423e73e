import Phi.Card.Placed

/-!
# Phi.Card.Decoding

The parts of a command in the arena, and what they take.

The arguments' table is filled before the environment's records are laid out,
and these before the directory; none of them touches what came before
(`withArgs_spec`, `withEnv_spec`).  A string takes its bytes and a NUL, where
it took its bytes and a length in the frame (`spends_exec`).
-/

namespace Phi.Card

open Rpc Walk Utf8 Reader

/-! ## how much a command takes -/

theorem spends_u16 : Spends Read.u16 fun n _ => n = 2 :=
  (spends_take 2).map fun _ _ h => h.1

/-- What a string takes in a body, and a pair. -/
def strWorth (a : String) : Nat := 2 + (bytes a).length
def pairWorth (e : String × String) : Nat := strWorth e.1 + strWorth e.2

def Short (a : String) : Prop := (bytes a).length < 2 ^ 16

theorem spends_str : Spends Read.str fun n a => n = strWorth a ∧ Short a := by
  unfold Read.str
  refine spends_u16.bind fun k v hk => ?_
  refine (spends_take v.toNat).bind fun n b ⟨hn, hlen⟩ => ?_
  refine (spends_check _).mono fun j a ⟨hj, ha⟩ => ?_
  have hbytes := bytes_of_decode ha
  unfold strWorth Short
  rw [hbytes, hlen]
  exact ⟨by omega, v.toNat_lt⟩

theorem spends_pair :
    Spends Read.pair fun n e => n = pairWorth e ∧ Short e.1 ∧ Short e.2 := by
  unfold Read.pair
  refine spends_str.bind fun k a ⟨hk, ha⟩ => spends_str.map fun n b ⟨hn, hb⟩ => ⟨?_, ha, hb⟩
  rw [hk, hn, pairWorth]

/-- A list of items, its count 16 bits wide. -/
theorem spends_list {α : Type} {item : Reader α} {worth : α → Nat} {P : α → Prop}
    (h : Spends item fun n a => n = worth a ∧ P a) :
    Spends (Read.list item) fun n as =>
      as.length < 2 ^ 16 ∧ n = 2 + (as.map worth).sum ∧ ∀ a ∈ as, P a := by
  unfold Read.list
  refine spends_u16.bind fun k v hk => ?_
  exact (h.many v.toNat).mono fun n as ⟨hlen, hsum, has⟩ =>
    ⟨hlen ▸ v.toNat_lt, by rw [hk, hsum], has⟩

theorem spends_exec : Spends Read.exec fun n msg => ∃ argv env cwd,
    msg = .exec argv env (if cwd = "" then none else some cwd) ∧
      argv.length < 2 ^ 16 ∧ env.length < 2 ^ 16 ∧ (∀ e ∈ env, Short e.1 ∧ Short e.2) ∧
      n = 2 + (argv.map strWorth).sum + (2 + (env.map pairWorth).sum) + strWorth cwd := by
  unfold Read.exec
  refine (spends_list spends_str).bind fun k argv ⟨hargc, hk, _⟩ => ?_
  refine (spends_list spends_pair).bind fun l env ⟨henvc, hl, henv⟩ => ?_
  refine spends_str.map fun n cwd ⟨hn, _⟩ => ⟨argv, env, cwd, rfl, hargc, henvc, henv, ?_⟩
  rw [hk, hl, hn, Nat.add_assoc (2 + _)]

namespace Ex

/-! ## how much is placed -/

/-- A string with its NUL. -/
def strNeed (a : String) : Nat := (bytes a).length + 1
def pairNeed (e : String × String) : Nat := strNeed e.1 + strNeed e.2

theorem ab_placeArgs (s : Ex) (argv : List String) :
    (placeAll placeArg s argv).ab = s.ab + (argv.map strNeed).sum := by
  induction argv using List.reverseRecOn with
  | nil => rfl
  | append_singleton argv a ih =>
      rw [placeAll_snoc]
      have hsum : ((argv ++ [a]).map strNeed).sum
          = (argv.map strNeed).sum + ((bytes a).length + 1) := by
        rw [List.map_append, List.sum_append, List.map_singleton, List.sum_singleton, strNeed]
      show (placeAll placeArg s argv).ab + (bytes a).length + 1 = _
      omega

theorem nul_placeArgs (s : Ex) (argv : List String) :
    (placeAll placeArg s argv).nul = (s.nul || argv.any fun a => (bytes a).contains 0) := by
  induction argv using List.reverseRecOn with
  | nil => simp [placeAll]
  | append_singleton argv a ih =>
      rw [placeAll_snoc]
      show ((placeAll placeArg s argv).nul || (bytes a).contains 0) = _
      rw [ih, List.any_append, Bool.or_assoc]
      simp

theorem progLen_placeArgs (s : Ex) (a : String) (argv : List String) :
    (placeAll placeArg s (a :: argv)).progLen = (bytes a).length := by
  induction argv using List.reverseRecOn with
  | nil => rfl
  | append_singleton argv b ih =>
      rw [← List.cons_append, placeAll_snoc]
      show (if (a :: argv).length = 0 then (bytes b).length
        else (placeAll placeArg s (a :: argv)).progLen) = _
      rw [if_neg (by simp), ih]

theorem ab_placeEntries (s : Ex) (env : List (String × String)) :
    (placeAll placeEntry s env).ab = s.ab + (env.map pairNeed).sum := by
  induction env using List.reverseRecOn with
  | nil => rfl
  | append_singleton env e ih =>
      rw [placeAll_snoc]
      have hsum : ((env ++ [e]).map pairNeed).sum
          = (env.map pairNeed).sum + ((bytes e.1).length + 1 + ((bytes e.2).length + 1)) := by
        rw [List.map_append, List.sum_append, List.map_singleton, List.sum_singleton, pairNeed,
          strNeed, strNeed]
      show (placeAll placeEntry s env).ab + (bytes e.1).length + 1 + (bytes e.2).length + 1 = _
      omega

theorem rest_placeEntries (s : Ex) (env : List (String × String)) :
    (placeAll placeEntry s env).nul = s.nul ∧ (placeAll placeEntry s env).progLen = s.progLen := by
  induction env using List.reverseRecOn with
  | nil => exact ⟨rfl, rfl⟩
  | append_singleton env e ih =>
      rw [placeAll_snoc]
      exact ih

/-! ## the whole command -/

/-- Nothing below the next free byte is touched any more. -/
theorem PtrTo.above {s t : Ex} {q hp lo hi : Nat} {bs : List UInt8} (h : s.PtrTo q hp bs)
    (hg : Grows lo hi s t) (hq : q + 8 ≤ s.ab) (hlo : s.ab ≤ lo) : t.PtrTo q hp bs := by
  obtain ⟨p, hptr, hle, hend, hstr⟩ := h
  exact ⟨p, (hg.load hq (.inl (by omega))).trans hptr, hle, Nat.le_trans hend hg.ab,
    (hg.load (by omega) (.inl (by omega))).trans hstr⟩

theorem EntryAt.above {s t : Ex} {r hp lo hi : Nat} {e : String × String} (h : s.EntryAt r hp e)
    (hg : Grows lo hi s t) (hr : r + 32 ≤ s.ab) (hlo : s.ab ≤ lo) : t.EntryAt r hp e where
  key := h.key.above hg (by omega) hlo
  value := h.value.above hg (by omega) hlo
  keyLen := (hg.load (by omega) (.inl (by omega))).trans h.keyLen
  valueLen := (hg.load (by omega) (.inl (by omega))).trans h.valueLen
  nul := (hg.load (by omega) (.inl (by omega))).trans h.nul

/-- The arguments: a pointer for each, and one that is 0. -/
structure ArgsAt (arena : Nat) (argv : List String) (t : Ex) : Prop where
  args : ∀ i a, argv[i]? = some a →
    t.PtrTo (arena + 8 * i) (arena + 8 + 8 * argv.length) (bytes a)
  last : t.load (arena + 8 * argv.length) 8 = leBytes 8 0

theorem ArgsAt.above {arena : Nat} {argv : List String} {s t : Ex} {lo hi : Nat}
    (h : ArgsAt arena argv s) (hg : Grows lo hi s t) (hab : arena + 8 + 8 * argv.length ≤ s.ab)
    (hlo : s.ab ≤ lo) : ArgsAt arena argv t where
  args i a ha := by
    obtain ⟨hi, -⟩ := List.getElem?_eq_some_iff.mp ha
    exact (h.args i a ha).above hg (by omega) hlo
  last := (hg.load (by omega) (.inl (by omega))).trans h.last

theorem withArgs_spec (s : Ex) (arena : Nat) (argv : List String) :
    Grows arena (arena + 8 + 8 * argv.length) (s.begun arena argv.length) (s.withArgs arena argv) ∧
      ArgsAt arena argv (s.withArgs arena argv) ∧
      (s.withArgs arena argv).notes = (s.begun arena argv.length).notes := by
  obtain ⟨hgrows, hnotes, hat⟩ := placeAll_grows placeArg
    (fun t i a => t.PtrTo (arena + 8 * i) (arena + 8 + 8 * argv.length) (bytes a))
    arena 8 argv.length (arena + 8 + 8 * argv.length) (by omega)
    (fun i hi a t ht hn => by
      have hargv : t.argv = arena := (List.cons.inj (List.cons.inj hn).2).1
      have hplace := placeArg_grows (i := i) (a := a) ht (by omega)
      rwa [hargv] at hplace)
    (fun _ _ _ => rfl)
    (fun i hi a t u lo hi' hptr ht hg hle hlo => hptr.grows hg (by omega) (.inl (by omega)) hle)
    (s := s.begun arena argv.length) (Nat.le_refl _) rfl argv (Nat.le_refl _)
  have hargv : (placeAll placeArg (s.begun arena argv.length) argv).argv = arena :=
    (List.cons.inj (List.cons.inj hnotes).2).1
  have hargc : (placeAll placeArg (s.begun arena argv.length) argv).argc = argv.length :=
    (List.cons.inj hnotes).1
  have hab : arena + 8 + 8 * argv.length ≤
      (placeAll placeArg (s.begun arena argv.length) argv).ab := hgrows.ab
  have hlast : Grows (arena + 8 * argv.length) (arena + 8 + 8 * argv.length)
      (placeAll placeArg (s.begun arena argv.length) argv) (s.withArgs arena argv) := by
    unfold withArgs
    dsimp only
    rw [hargv, hargc]
    exact grows_word _ (Nat.le_refl _) (by omega) hab
  refine ⟨(hgrows.mono (Nat.le_refl _) (by omega)).trans (hlast.mono (by omega) (Nat.le_refl _)),
    ⟨fun i a ha => ?_, ?_⟩, hnotes⟩
  · obtain ⟨hi, -⟩ := List.getElem?_eq_some_iff.mp ha
    exact (hat i a ha).grows hlast (by omega) (.inl (by omega)) (Nat.le_refl _)
  · unfold withArgs
    dsimp only
    rw [hargv, hargc, load_store_eq (length_leBytes 8 0)]

/-- Where the records, the areas of the sort and the pointers lie. -/
theorem layOut_spec (s : Ex) (n : Nat) :
    s.ab ≤ (s.layOut n).envrec ∧ (s.layOut n).envrec ≤ s.ab + 7 ∧
      (s.layOut n).idxA = (s.layOut n).envrec + 32 * n ∧
      (s.layOut n).idxB = (s.layOut n).idxA + 4 * n ∧
      (s.layOut n).idxB + 4 * n ≤ (s.layOut n).envp ∧
      (s.layOut n).envp ≤ (s.layOut n).idxB + 4 * n + 7 ∧
      (s.layOut n).ab = (s.layOut n).envp + 8 + 8 * n := by
  unfold layOut abAlign
  dsimp only
  omega

theorem grows_layOut (s : Ex) (n lo hi : Nat) : Grows lo hi s (s.layOut n) where
  ab := by
    have := layOut_spec s n
    omega
  keep _ _ _ := rfl
  stored := ⟨[], by simp [layOut, abAlign]⟩

/-- The environment: a record for each entry. -/
def EnvAt (env : List (String × String)) (t : Ex) : Prop :=
  ∀ i e, env[i]? = some e → t.EntryAt (t.envrec + 32 * i) (t.envp + 8 + 8 * env.length) e

theorem withEnv_spec (s : Ex) (env : List (String × String)) :
    Grows (s.layOut env.length).envrec
        ((s.layOut env.length).envrec + 32 * env.length) s (s.withEnv env) ∧
      EnvAt env (s.withEnv env) ∧ (s.withEnv env).notes = (s.layOut env.length).notes := by
  have hlay := layOut_spec s env.length
  obtain ⟨hgrows, hnotes, hat⟩ := placeAll_grows placeEntry
    (fun t i e => t.EntryAt ((s.layOut env.length).envrec + 32 * i) (s.layOut env.length).ab e)
    (s.layOut env.length).envrec 32 env.length (s.layOut env.length).ab (by omega)
    (fun i hi e t ht hn => by
      have henvrec : t.envrec = (s.layOut env.length).envrec :=
        (List.cons.inj (List.cons.inj (List.cons.inj (List.cons.inj hn).2).2).2).1
      have hplace := placeEntry_grows (i := i) (e := e) ht (by omega)
      rwa [henvrec] at hplace)
    (fun _ _ _ => rfl)
    (fun i hi e t u lo hi' hentry ht hg hle hlo => hentry.grows hg (by omega) (by omega) hle)
    (s := s.layOut env.length) (Nat.le_refl _) rfl env (Nat.le_refl _)
  have hsame := hnotes
  simp only [notes, List.cons.injEq] at hsame
  obtain ⟨-, -, -, henvrec, -, -, henvp, -⟩ := hsame
  refine ⟨(grows_layOut s env.length _ _).trans hgrows, fun i e he => ?_, hnotes⟩
  rw [show (s.withEnv env).envrec = _ from henvrec, show (s.withEnv env).envp = _ from henvp,
    ← hlay.2.2.2.2.2.2]
  exact hat i e he

theorem grows_withCwd (s : Ex) (cwd : String) (lo hi : Nat) (hlo : lo ≤ s.ab) :
    Grows lo hi s (s.withCwd cwd) := by
  obtain ⟨hab, hkeep, hstored⟩ := grows_copied s (bytes cwd) lo hi hlo
  exact ⟨hab, hkeep, hstored⟩

end Ex

end Phi.Card
