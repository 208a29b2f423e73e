import Mathlib.Data.List.Induction
import Phi.Card.Arena

/-!
# Phi.Card.Placed

What the decoder of a command leaves in its arena, item by item.

`exDecode` is a fold: it places the arguments, the environment's entries and the
working directory one after the other (`follows_exDecode`).  A table of
pointers or of records grows by one entry a step, and the strings it points to
are placed behind the whole table, where nothing reaches them later
(`placeAll_grows`).
-/

namespace Phi.Card

open Rpc Walk Utf8

/-! ## the walk as a fold -/

namespace Ex

/-- An argument placed. -/
def placeArg (s : Ex) (i : Nat) (a : String) : Ex :=
  { (s.copied (bytes a)).store (s.argv + 8 * i) (leBytes 8 s.ab) with
    nul := s.nul || (bytes a).contains 0
    progLen := if i = 0 then (bytes a).length else s.progLen }

/-- The key of an entry placed. -/
def placeKey (s : Ex) (r8 : Nat) (k : String) : Ex :=
  (((s.copied (bytes k)).store r8 (leBytes 8 s.ab)).store (r8 + 16)
    (leBytes 4 (bytes k).length)).store (r8 + 24) (leBytes 4 (nulFlag ((bytes k).contains 0)))

/-- The value of an entry placed. -/
def placeValue (s : Ex) (r8 : Nat) (v : String) : Ex :=
  let t := ((s.copied (bytes v)).store (r8 + 8) (leBytes 8 s.ab)).store (r8 + 20)
    (leBytes 4 (bytes v).length)
  t.store (r8 + 24) (leBytes 4 (t.dword (r8 + 24) ||| nulFlag ((bytes v).contains 0)))

def placeEntry (s : Ex) (i : Nat) (e : String × String) : Ex :=
  (s.placeKey (s.envrec + 32 * i) e.1).placeValue (s.envrec + 32 * i) e.2

/-- One after the other. -/
def placeAll {β : Type} (place : Ex → Nat → β → Ex) (s : Ex) (bs : List β) : Ex :=
  bs.zipIdx.foldl (fun t x => place t x.2 x.1) s

theorem placeAll_snoc {β : Type} (place : Ex → Nat → β → Ex) (s : Ex) (bs : List β) (b : β) :
    placeAll place s (bs ++ [b]) = place (placeAll place s bs) bs.length b := by
  simp [placeAll, List.zipIdx_append]

end Ex

theorem follows_exCopy (s : Ex) :
    Follows 0 0 s exCopy Read.str fun str a t =>
      a = (s.ab, (bytes str).length, (bytes str).contains 0) ∧ t = s.copied (bytes str) := by
  unfold exCopy Read.str
  refine follows_peekU16.bind fun v edx t ⟨hedx, ht⟩ => ?_
  subst hedx ht
  refine (follows_peek (Nat.le_refl v.toNat)).bind fun b bs t ⟨hlen, hbs, ht⟩ => ?_
  subst ht
  rw [← hlen, List.take_length] at hbs
  subst hbs
  rw [← bind_pure (Reader.check (decode bs))]
  refine Follows.unseen (follows_check _) fun str t ⟨hstr, ht⟩ => ?_
  subst ht
  have hbytes := bytes_of_decode hstr
  refine Follows.before (follows_built ()) fun s' t ⟨_, hs', ht⟩ => ?_
  subst hs' ht
  refine Follows.before (follows_build _ ()) fun _ t ⟨_, ht⟩ => ?_
  refine Follows.before (follows_move (n := 2 + v.toNat) (d := 0) ()) fun _ u ⟨_, hu⟩ => ?_
  subst hu ht
  exact follows_pure ⟨by rw [hbytes, hlen], by rw [hbytes]⟩

theorem follows_argStep (i : Nat) (s : Ex) :
    Follows 0 0 s (argStep i) Read.str fun a _ t => t = s.placeArg i a := by
  unfold argStep
  refine (follows_exCopy s).after fun a x t ⟨hx, ht⟩ => ?_
  subst hx ht
  exact (follows_build _ a).mono fun b _ u ⟨hb, hu⟩ => by rw [hu, hb]; rfl

theorem follows_envStep (i : Nat) (s : Ex) :
    Follows 0 0 s (envStep i) Read.pair fun e _ t => t = s.placeEntry i e := by
  unfold envStep Read.pair
  refine Follows.before (follows_built ()) fun s' t ⟨_, hs', ht⟩ => ?_
  subst hs' ht
  refine (follows_exCopy t).bind fun k x u ⟨hx, hu⟩ => ?_
  subst hx hu
  refine Follows.before (follows_build _ ()) fun _ u ⟨_, hu⟩ => ?_
  subst hu
  refine (follows_exCopy _).bind fun v x u ⟨hx, hu⟩ => ?_
  subst hx hu
  refine Follows.mono (follows_build _ (k, v)) fun e _ u ⟨he, hu⟩ => ?_
  rw [hu, he]
  rfl

/-- The items of a loop placed one after the other. -/
theorem follows_place {β : Type} {step : Nat → Walk Ex Unit} {r : Reader β}
    {place : Ex → Nat → β → Ex}
    (h : ∀ i s, Follows 0 0 s (step i) r fun b _ t => t = place s i b) (n : Nat) (s : Ex) :
    Follows 0 0 s (loop step 0 n) (Reader.many r n) fun bs _ t =>
      bs.length = n ∧ t = Ex.placeAll place s bs := by
  refine follows_loop (fun bs t => t = Ex.placeAll place s bs) (fun bs t ht => ?_) n [] rfl
  subst ht
  exact (h bs.length _).mono fun b _ u hu => by rw [hu, Ex.placeAll_snoc]

/-- The arguments' pointers laid out. -/
def Ex.begun (s : Ex) (arena argc : Nat) : Ex :=
  { s with argc, argv := arena, ab := arena + 8 + 8 * argc, nul := false }

/-- The arguments placed, with the pointer behind them. -/
def Ex.withArgs (s : Ex) (arena : Nat) (argv : List String) : Ex :=
  let s := Ex.placeAll placeArg (s.begun arena argv.length) argv
  s.store (s.argv + 8 * s.argc) (leBytes 8 0)

/-- And the environment. -/
def Ex.withEnv (s : Ex) (env : List (String × String)) : Ex :=
  Ex.placeAll placeEntry (s.layOut env.length) env

def Ex.withCwd (s : Ex) (cwd : String) : Ex :=
  { s.copied (bytes cwd) with
    nul := s.nul || (bytes cwd).contains 0
    cwd := if (bytes cwd).length = 0 then 0 else s.ab }

/-- What the decoder leaves of the strings. -/
def Ex.placed (s : Ex) (arena : Nat) (argv : List String) (env : List (String × String))
    (cwd : String) : Ex :=
  ((s.withArgs arena argv).withEnv env).withCwd cwd

theorem follows_exDecode (arena : Nat) (s : Ex) :
    Follows 0 0 s (exDecode arena) Read.exec fun msg _ t => ∃ argv env cwd,
      msg = .exec argv env (if cwd = "" then none else some cwd) ∧
        t = s.placed arena argv env cwd := by
  unfold exDecode Read.exec Read.list
  simp only [bind_assoc]
  refine Follows.before (follows_build _ ()) fun _ t ⟨_, ht⟩ => ?_
  refine follows_peekU16.bind fun v n t₁ ⟨hn, ht₁⟩ => Follows.move_before ?_
  refine Follows.before (follows_build _ ()) fun _ t₂ ⟨_, ht₂⟩ => ?_
  rw [← hn]
  refine (follows_place follows_argStep n t₂).bind fun argv _ t₃ ⟨hargc, ht₃⟩ => ?_
  refine Follows.before (follows_build _ ()) fun _ t₄ ⟨_, ht₄⟩ => ?_
  refine follows_peekU16.bind fun w k t₅ ⟨hk, ht₅⟩ => Follows.move_before ?_
  refine Follows.before (follows_build _ ()) fun _ t₆ ⟨_, ht₆⟩ => ?_
  rw [← hk]
  refine (follows_place follows_envStep k t₆).bind fun env _ t₇ ⟨henvc, ht₇⟩ => ?_
  refine (follows_exCopy t₇).bind fun cwd x t₈ ⟨hx, ht₈⟩ => ?_
  subst hx ht₈
  refine (follows_build _ _).mono fun msg _ u ⟨hmsg, hu⟩ => ⟨argv, env, cwd, hmsg, ?_⟩
  subst hargc henvc ht₇ ht₆ ht₅ ht₄ ht₃ ht₂ ht₁ ht
  exact hu

/-! ## loads and stores -/

namespace Ex

theorem load_store (s : Ex) (p : Nat) (bs : List UInt8) : (s.store p bs).load p bs.length = bs :=
  Circular.read_write s.mem p bs

theorem load_store_eq {s : Ex} {p n : Nat} {bs : List UInt8} (h : bs.length = n) :
    (s.store p bs).load p n = bs := by rw [← h, load_store]

theorem load_store_apart (s : Ex) {p q n : Nat} {bs : List UInt8}
    (h : p + bs.length ≤ q ∨ q + n ≤ p) : (s.store p bs).load q n = s.load q n :=
  Circular.read_congr fun k hk => Circular.write_of_not_mem _ (by omega)

theorem load_word_apart (s : Ex) {p q n k v : Nat} (h : p + k ≤ q ∨ q + n ≤ p) :
    (s.store p (leBytes k v)).load q n = s.load q n :=
  load_store_apart s (by rwa [length_leBytes])

/-- The string at `p`, with its NUL. -/
def Str (s : Ex) (p : Nat) (bs : List UInt8) : Prop := s.load p (bs.length + 1) = bs ++ [0]

/-- What an address or a count is noted for. -/
def notes (s : Ex) : List Nat :=
  [s.argc, s.argv, s.envc, s.envrec, s.idxA, s.idxB, s.envp, s.cwd]

/-- Stores from `lo` to `hi` and behind the next free byte alone. -/
structure Grows (lo hi : Nat) (s t : Ex) : Prop where
  ab : s.ab ≤ t.ab
  keep : ∀ a < s.ab, a < lo ∨ hi ≤ a → t.mem a = s.mem a
  stored : ∃ more, t.stored = s.stored ++ more ∧ ∀ w ∈ more, lo ≤ w.1 ∧ w.1 + w.2 ≤ t.ab

namespace Grows

variable {lo hi lo' hi' : Nat} {s t u : Ex}

theorem refl (lo hi : Nat) (s : Ex) : Grows lo hi s s :=
  ⟨Nat.le_refl _, fun _ _ _ => rfl, [], by simp⟩

theorem trans (h : Grows lo hi s t) (h' : Grows lo hi t u) : Grows lo hi s u := by
  obtain ⟨more, hmore, hin⟩ := h.stored
  obtain ⟨more', hmore', hin'⟩ := h'.stored
  refine ⟨Nat.le_trans h.ab h'.ab, fun a ha hout => ?_, more ++ more', ?_⟩
  · rw [h'.keep a (Nat.lt_of_lt_of_le ha h.ab) hout, h.keep a ha hout]
  · rw [hmore', hmore, List.append_assoc]
    refine ⟨rfl, fun w hw => ?_⟩
    rcases List.mem_append.mp hw with hw | hw
    · exact ⟨(hin w hw).1, Nat.le_trans (hin w hw).2 h'.ab⟩
    · exact hin' w hw

theorem mono (h : Grows lo hi s t) (hlo : lo' ≤ lo) (hhi : hi ≤ hi') : Grows lo' hi' s t := by
  obtain ⟨more, hmore, hin⟩ := h.stored
  exact ⟨h.ab, fun a ha hout => h.keep a ha (by omega), more, hmore, fun w hw =>
    ⟨Nat.le_trans hlo (hin w hw).1, (hin w hw).2⟩⟩

/-- What lies elsewhere is still there. -/
theorem load (h : Grows lo hi s t) {p n : Nat} (hp : p + n ≤ s.ab) (hout : p + n ≤ lo ∨ hi ≤ p) :
    t.load p n = s.load p n :=
  Circular.read_congr fun k hk => h.keep (p + k) (by omega) (by omega)

theorem str (h : Grows lo hi s t) {p : Nat} {bs : List UInt8} (hp : p + bs.length + 1 ≤ s.ab)
    (hout : hi ≤ p) (hs : s.Str p bs) : t.Str p bs :=
  (h.load (by omega) (.inr hout)).trans hs

end Grows

theorem grows_store (s : Ex) {p lo hi : Nat} {bs : List UInt8} (hlo : lo ≤ p)
    (hhi : p + bs.length ≤ hi) (hab : hi ≤ s.ab) : Grows lo hi s (s.store p bs) where
  ab := Nat.le_refl _
  keep a _ hout := Circular.write_of_not_mem _ (by omega)
  stored := ⟨[(p, bs.length)], rfl, by
    simp only [List.mem_singleton, forall_eq]
    exact ⟨hlo, Nat.le_trans hhi hab⟩⟩

theorem grows_word (s : Ex) {p n v lo hi : Nat} (hlo : lo ≤ p) (hhi : p + n ≤ hi)
    (hab : hi ≤ s.ab) : Grows lo hi s (s.store p (leBytes n v)) :=
  grows_store s hlo (by rwa [length_leBytes]) hab

theorem grows_copied (s : Ex) (bs : List UInt8) (lo hi : Nat) (hlo : lo ≤ s.ab) :
    Grows lo hi s (s.copied bs) where
  ab := by
    show s.ab ≤ s.ab + bs.length + 1
    omega
  keep a ha _ := by
    show Circular.write (Circular.write s.mem s.ab bs) (s.ab + bs.length) [0] a = s.mem a
    rw [Circular.write_of_not_mem _ (.inl (by omega)), Circular.write_of_not_mem _ (.inl ha)]
  stored := by
    refine ⟨[(s.ab, bs.length), (s.ab + bs.length, 1)], by simp [copied, store], ?_⟩
    show ∀ w ∈ ([(s.ab, bs.length), (s.ab + bs.length, 1)] : List (Nat × Nat)),
      lo ≤ w.1 ∧ w.1 + w.2 ≤ s.ab + bs.length + 1
    simp only [List.mem_cons, List.not_mem_nil, or_false, forall_eq_or_imp, forall_eq]
    omega

theorem str_copied (s : Ex) (bs : List UInt8) : (s.copied bs).Str s.ab bs := by
  have hmem : (s.copied bs).mem = Circular.write s.mem s.ab (bs ++ [0]) :=
    Circular.write_append s.mem s.ab bs [0]
  have hlen : bs.length + 1 = (bs ++ [0]).length := by
    rw [List.length_append, List.length_singleton]
  unfold Str load
  rw [hmem, hlen, Circular.read_write]

theorem ab_copied (s : Ex) (bs : List UInt8) : (s.copied bs).ab = s.ab + bs.length + 1 := rfl

/-! ## items -/

/-- A pointer to a string, both of them placed. -/
def PtrTo (t : Ex) (q hp : Nat) (bs : List UInt8) : Prop :=
  ∃ p, t.load q 8 = leBytes 8 p ∧ hp ≤ p ∧ p + bs.length + 1 ≤ t.ab ∧ t.Str p bs

theorem PtrTo.grows {s t : Ex} {q hp lo hi : Nat} {bs : List UInt8} (h : s.PtrTo q hp bs)
    (hg : Grows lo hi s t) (hq : q + 8 ≤ s.ab) (hout : q + 8 ≤ lo ∨ hi ≤ q) (hhp : hi ≤ hp) :
    t.PtrTo q hp bs := by
  obtain ⟨p, hptr, hle, hend, hstr⟩ := h
  exact ⟨p, (hg.load hq hout).trans hptr, hle, Nat.le_trans hend hg.ab,
    hg.str hend (Nat.le_trans hhp hle) hstr⟩

/-- Table entries of `k` bytes placed one after the other, with what they point to
behind the table: each is still there at the end. -/
theorem placeAll_grows {β : Type} (place : Ex → Nat → β → Ex) (At : Ex → Nat → β → Prop)
    (tb k n hp : Nat) {notes : List Nat} (htable : tb + k * n ≤ hp)
    (hplace : ∀ i < n, ∀ b s, hp ≤ s.ab → s.notes = notes →
      Grows (tb + k * i) (tb + k * (i + 1)) s (place s i b) ∧ At (place s i b) i b)
    (hnote : ∀ i b s, (place s i b).notes = s.notes)
    (hkeep : ∀ i < n, ∀ b s t lo hi, At s i b → hp ≤ s.ab → Grows lo hi s t → hi ≤ hp →
      tb + k * (i + 1) ≤ lo → At t i b)
    {s : Ex} (hs : hp ≤ s.ab) (hnotes : s.notes = notes) (bs : List β) (hn : bs.length ≤ n) :
    Grows tb (tb + k * n) s (placeAll place s bs) ∧ (placeAll place s bs).notes = notes ∧
      ∀ i b, bs[i]? = some b → At (placeAll place s bs) i b := by
  induction bs using List.reverseRecOn with
  | nil => exact ⟨Grows.refl _ _ s, hnotes, fun i b hb => by simp at hb⟩
  | append_singleton bs b ih =>
      rw [List.length_append, List.length_singleton] at hn
      obtain ⟨hgrows, hsame, hat⟩ := ih (by omega)
      rw [placeAll_snoc]
      have hroom := Nat.le_trans hs hgrows.ab
      obtain ⟨hstep, hnew⟩ := hplace bs.length hn b (placeAll place s bs) hroom hsame
      have hmul : k * (bs.length + 1) ≤ k * n := Nat.mul_le_mul_left k hn
      refine ⟨hgrows.trans (hstep.mono (Nat.le_add_right _ _) (by omega)),
        (hnote _ _ _).trans hsame, fun i c hc => ?_⟩
      by_cases hi : i < bs.length
      · rw [List.getElem?_append_left hi] at hc
        have hmul' : k * (i + 1) ≤ k * bs.length := Nat.mul_le_mul_left k hi
        exact hkeep i (by omega) c _ _ _ _ (hat i c hc) hroom hstep (by omega) (by omega)
      · obtain ⟨hlt, -⟩ := List.getElem?_eq_some_iff.mp hc
        rw [List.length_append, List.length_singleton] at hlt
        obtain rfl : i = bs.length := by omega
        rw [List.getElem?_append_right (Nat.le_refl _), Nat.sub_self] at hc
        obtain rfl : b = c := by simpa using hc
        exact hnew

theorem placeArg_grows {i : Nat} {a : String} {s : Ex} {hp : Nat} (hs : hp ≤ s.ab)
    (hslot : s.argv + 8 * (i + 1) ≤ hp) :
    Grows (s.argv + 8 * i) (s.argv + 8 * (i + 1)) s (s.placeArg i a) ∧
      (s.placeArg i a).PtrTo (s.argv + 8 * i) hp (bytes a) := by
  have hptr : (leBytes 8 s.ab).length = 8 := length_leBytes _ _
  have hcopied : Grows (s.argv + 8 * i) (s.argv + 8 * (i + 1)) s (s.copied (bytes a)) :=
    grows_copied s (bytes a) _ _ (by omega)
  have hstore : Grows (s.argv + 8 * i) (s.argv + 8 * (i + 1)) (s.copied (bytes a))
      ((s.copied (bytes a)).store (s.argv + 8 * i) (leBytes 8 s.ab)) :=
    grows_word _ (Nat.le_refl _) (by omega) (Nat.le_trans (Nat.le_trans hslot hs) hcopied.ab)
  obtain ⟨hab, hkeep, hstored⟩ := hcopied.trans hstore
  refine ⟨⟨hab, hkeep, hstored⟩, s.ab, load_store_eq hptr, hs, Nat.le_refl _, ?_⟩
  exact (load_store_apart _ (.inl (by omega))).trans (str_copied s (bytes a))

theorem load_copied (s : Ex) (bs : List UInt8) {q n : Nat} (h : q + n ≤ s.ab) :
    (s.copied bs).load q n = s.load q n :=
  (grows_copied s bs s.ab s.ab (Nat.le_refl _)).load h (.inl h)

/-- A record: pointers to key and value, the lengths, and the mark. -/
structure EntryAt (t : Ex) (r hp : Nat) (e : String × String) : Prop where
  key : t.PtrTo r hp (bytes e.1)
  value : t.PtrTo (r + 8) hp (bytes e.2)
  keyLen : t.load (r + 16) 4 = leBytes 4 (bytes e.1).length
  valueLen : t.load (r + 20) 4 = leBytes 4 (bytes e.2).length
  nul : t.load (r + 24) 4 = leBytes 4 (nulFlag ((bytes e.1).contains 0 || (bytes e.2).contains 0))

theorem EntryAt.grows {s t : Ex} {r hp lo hi : Nat} {e : String × String} (h : s.EntryAt r hp e)
    (hg : Grows lo hi s t) (hr : r + 32 ≤ s.ab) (hout : r + 32 ≤ lo) (hhp : hi ≤ hp) :
    t.EntryAt r hp e where
  key := h.key.grows hg (by omega) (.inl (by omega)) hhp
  value := h.value.grows hg (by omega) (.inl (by omega)) hhp
  keyLen := (hg.load (by omega) (.inl (by omega))).trans h.keyLen
  valueLen := (hg.load (by omega) (.inl (by omega))).trans h.valueLen
  nul := (hg.load (by omega) (.inl (by omega))).trans h.nul

theorem placeKey_grows (s : Ex) {r hp : Nat} (k : String) (hs : hp ≤ s.ab) (hr : r + 32 ≤ hp) :
    Grows r (r + 32) s (s.placeKey r k) ∧ (s.placeKey r k).PtrTo r hp (bytes k) ∧
      (s.placeKey r k).load (r + 16) 4 = leBytes 4 (bytes k).length ∧
      (s.placeKey r k).load (r + 24) 4 = leBytes 4 (nulFlag ((bytes k).contains 0)) := by
  have hlen : ∀ n v, (leBytes n v).length = n := length_leBytes
  have hcopied : Grows r (r + 32) s (s.copied (bytes k)) := grows_copied s _ _ _ (by omega)
  have hab : r + 32 ≤ (s.copied (bytes k)).ab := Nat.le_trans (by omega) hcopied.ab
  refine ⟨?_, ⟨s.ab, ?_, hs, Nat.le_refl _, ?_⟩, ?_, ?_⟩
  · exact ((hcopied.trans (grows_word _ (by omega) (by omega) hab)).trans
      (grows_word _ (by omega) (by omega) hab)).trans (grows_word _ (by omega) (by omega) hab)
  · unfold placeKey
    rw [load_store_apart _ (.inr (by omega)), load_store_apart _ (.inr (by omega)),
      load_store_eq (hlen 8 _)]
  · unfold placeKey Str
    rw [load_word_apart _ (.inl (by omega)),
      load_word_apart _ (.inl (by omega)),
      load_word_apart _ (.inl (by omega))]
    exact str_copied s (bytes k)
  · unfold placeKey
    rw [load_store_apart _ (.inr (by omega)), load_store_eq (hlen 4 _)]
  · unfold placeKey
    rw [load_store_eq (hlen 4 _)]

theorem placeValue_grows (s : Ex) {r hp : Nat} (v : String) {flag : Bool} (hs : hp ≤ s.ab)
    (hr : r + 32 ≤ hp) (hflag : s.load (r + 24) 4 = leBytes 4 (nulFlag flag)) :
    Grows (r + 8) (r + 32) s (s.placeValue r v) ∧ (s.placeValue r v).PtrTo (r + 8) hp (bytes v) ∧
      (s.placeValue r v).load (r + 16) 4 = s.load (r + 16) 4 ∧
      (s.placeValue r v).load (r + 20) 4 = leBytes 4 (bytes v).length ∧
      (s.placeValue r v).load (r + 24) 4 =
        leBytes 4 (nulFlag (flag || (bytes v).contains 0)) := by
  have hlen : ∀ n v, (leBytes n v).length = n := length_leBytes
  have hcopied : Grows (r + 8) (r + 32) s (s.copied (bytes v)) := grows_copied s _ _ _ (by omega)
  have hab : r + 32 ≤ (s.copied (bytes v)).ab := Nat.le_trans (by omega) hcopied.ab
  have hdword : (((s.copied (bytes v)).store (r + 8) (leBytes 8 s.ab)).store (r + 20)
      (leBytes 4 (bytes v).length)).dword (r + 24) = nulFlag flag := by
    unfold dword
    rw [load_word_apart _ (.inl (by omega)),
      load_word_apart _ (.inl (by omega)), load_copied _ _ (by omega), hflag]
    cases flag <;> decide
  have hor : ∀ a b : Bool, nulFlag a ||| nulFlag b = nulFlag (a || b) := by decide
  refine ⟨?_, ⟨s.ab, ?_, hs, Nat.le_refl _, ?_⟩, ?_, ?_, ?_⟩
  · exact ((hcopied.trans (grows_word _ (by omega) (by omega) hab)).trans
      (grows_word _ (by omega) (by omega) hab)).trans (grows_word _ (by omega) (by omega) hab)
  · unfold placeValue
    dsimp only
    rw [load_store_apart _ (.inr (by omega)), load_store_apart _ (.inr (by omega)),
      load_store_eq (hlen 8 _)]
  · unfold placeValue Str
    dsimp only
    rw [load_word_apart _ (.inl (by omega)),
      load_word_apart _ (.inl (by omega)),
      load_word_apart _ (.inl (by omega))]
    exact str_copied s (bytes v)
  · unfold placeValue
    dsimp only
    rw [load_store_apart _ (.inr (by omega)), load_store_apart _ (.inr (by omega)),
      load_word_apart _ (.inl (by omega)), load_copied _ _ (by omega)]
  · unfold placeValue
    dsimp only
    rw [load_store_apart _ (.inr (by omega)), load_store_eq (hlen 4 _)]
  · unfold placeValue
    dsimp only
    rw [hdword, hor, load_store_eq (hlen 4 _)]

theorem placeEntry_grows {i : Nat} {e : String × String} {s : Ex} {hp : Nat} (hs : hp ≤ s.ab)
    (hslot : s.envrec + 32 * (i + 1) ≤ hp) :
    Grows (s.envrec + 32 * i) (s.envrec + 32 * (i + 1)) s (s.placeEntry i e) ∧
      (s.placeEntry i e).EntryAt (s.envrec + 32 * i) hp e := by
  have hr : s.envrec + 32 * i + 32 ≤ hp := by omega
  obtain ⟨hgrow, hkey, hkeyLen, hflag⟩ := s.placeKey_grows e.1 hs hr
  have hs' := Nat.le_trans hs hgrow.ab
  obtain ⟨hgrow', hvalue, hsame, hvalueLen, hnul⟩ :=
    (s.placeKey (s.envrec + 32 * i) e.1).placeValue_grows e.2 hs' hr hflag
  refine ⟨(hgrow.trans (hgrow'.mono (by omega) (Nat.le_refl _))).mono (Nat.le_refl _) (by omega),
    ?_, hvalue, hsame.trans hkeyLen, hvalueLen, hnul⟩
  exact hkey.grows hgrow' (by omega) (.inl (Nat.le_refl _)) hr

end Ex

end Phi.Card
