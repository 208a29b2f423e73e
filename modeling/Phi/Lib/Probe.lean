import Mathlib.Algebra.Order.BigOperators.Group.Finset

/-!
# Phi.Lib.Probe

Open addressing with linear probing.

A table is a function from slot numbers to optional entries; a `Shape` gives
its size, an entry's key and a key's home slot.  A lookup walks from the home
slot until it meets the key or an empty slot (`Lands`).  `Wf` is the probe
invariant: every entry is reached from its home over taken slots, and no key
is stored twice.

* `Wf.put` -- writing an entry where its lookup lands keeps the invariant;
* `Refill` -- deletion without tombstones: a slot is emptied and the entries
  behind it are taken out and put back, one by one, up to the next empty slot.
  `Loose` is the invariant in between, `Refill.wf` its end;
* `Wf.refill_emptied` -- what the emptied slot holds afterwards;
* `weight_refill` -- the measure by which the refilling ends.
-/

namespace Phi.Probe

/-! ## slots on a circle -/

/-- The slot `d` steps behind slot `a`. -/
def slot (n a d : Nat) : Nat := if a + d < n then a + d else a + d - n

/-- The steps from slot `a` to slot `b`. -/
def dist (n a b : Nat) : Nat := if a ≤ b then b - a else b + n - a

section circle

variable {n a b c d : Nat}

theorem slot_lt (ha : a < n) (hd : d < n) : slot n a d < n := by
  grind [slot]

theorem slot_one_lt (ha : a < n) : slot n a 1 < n := by
  grind [slot]

theorem dist_lt (hb : b < n) : dist n a b < n := by
  grind [dist]

@[simp] theorem dist_self (n a : Nat) : dist n a a = 0 := by
  simp [dist]

theorem slot_zero (ha : a < n) : slot n a 0 = a := by
  simp [slot, ha]

theorem slot_dist (ha : a < n) (hb : b < n) : slot n a (dist n a b) = b := by
  grind [slot, dist]

theorem dist_slot (ha : a < n) (hd : d < n) : dist n a (slot n a d) = d := by
  grind [slot, dist]

theorem slot_eq_mod (ha : a < n) (hd : d ≤ n) : slot n a d = (a + d) % n := by
  unfold slot
  split
  · next h => rw [Nat.mod_eq_of_lt h]
  · next h => rw [Nat.mod_eq_sub_mod (by omega), Nat.mod_eq_of_lt (by omega)]

theorem slot_inj {d' : Nat} (hd : d < n) (hd' : d' < n)
    (h : slot n a d = slot n a d') : d = d' := by
  grind [slot]

theorem slot_ne (h0 : 0 < d) (hd : d < n) : slot n a d ≠ a := by
  grind [slot]

/-- A slot met on the way from `a`, seen from the slot behind another one. -/
theorem slot_slot_succ (ha : a < n) (hb : b < n) (h : dist n a b + 1 + d < n) :
    slot n (slot n b 1) d = slot n a (dist n a b + 1 + d) := by
  grind [slot, dist]

/-- The steps that are left behind a slot on the way. -/
theorem dist_slot_succ (ha : a < n) (hb : b < n) (hc : c < n) (h : dist n a b < dist n a c) :
    dist n a b + 1 + dist n (slot n b 1) c = dist n a c := by
  grind [slot, dist]

theorem slot_succ (ha : a < n) (hd : d + 1 < n) : slot n (slot n a d) 1 = slot n a (d + 1) := by
  grind [slot]

/-- Two slots on the way to `c`: the steps from the one to the other. -/
theorem dist_of_le (ha : a < n) (hb : b < n) (hc : c < n) (h : dist n a b ≤ dist n a c) :
    dist n b c = dist n a c - dist n a b := by
  grind [dist]

/-- Going back on the way to `b` is going almost once around. -/
theorem dist_of_lt (ha : a < n) (hb : b < n) (h : dist n a c < dist n a b) :
    dist n b c = n - (dist n a b - dist n a c) := by
  grind [dist]

theorem eq_of_dist_eq (ha : a < n) (hb : b < n) (hc : c < n) (h : dist n a b = dist n a c) :
    b = c := by
  grind [dist]

end circle

/-! ## tables -/

/-- The size of a table, the keys of its entries and where a key's walk starts. -/
structure Shape (α κ : Type) where
  size : Nat
  key : α → κ
  home : κ → Nat
  home_lt : ∀ k, home k < size

variable {α κ : Type} (S : Shape α κ)

/-- Every slot from `a` up to `j`, `j` left out, is taken. -/
def Taken (n : Nat) (t : Nat → Option α) (a j : Nat) : Prop :=
  ∀ d < dist n a j, t (slot n a d) ≠ none

/-- The lookup of `k` ends at slot `p`. -/
structure Lands (t : Nat → Option α) (k : κ) (p : Nat) : Prop where
  lt : p < S.size
  ends : ∀ e, t p = some e → S.key e = k
  walk : ∀ d < dist S.size (S.home k) p,
    ∃ e, t (slot S.size (S.home k) d) = some e ∧ S.key e ≠ k

/-- The probe invariant. -/
structure Wf (t : Nat → Option α) : Prop where
  reach : ∀ j < S.size, ∀ e, t j = some e → Taken S.size t (S.home (S.key e)) j
  once : ∀ i < S.size, ∀ j < S.size, ∀ e f, t i = some e → t j = some f →
    S.key e = S.key f → i = j

/-- The entry is in some slot. -/
def Stored (t : Nat → Option α) (e : α) : Prop := ∃ j < S.size, t j = some e

variable {S} {t t' : Nat → Option α} {k : κ} {e f : α} {c i j p q : Nat}

/-! ## lookups -/

theorem Lands.unique (hp : Lands S t k p) (hq : Lands S t k q) : p = q := by
  have hk := S.home_lt k
  rcases Nat.lt_trichotomy (dist S.size (S.home k) p) (dist S.size (S.home k) q) with h | h | h
  · obtain ⟨e, he, hne⟩ := hq.walk _ h
    rw [slot_dist hk hp.lt] at he
    exact absurd (hp.ends e he) hne
  · exact eq_of_dist_eq hk hp.lt hq.lt h
  · obtain ⟨e, he, hne⟩ := hp.walk _ h
    rw [slot_dist hk hq.lt] at he
    exact absurd (hq.ends e he) hne

/-- A lookup does not pass an empty slot. -/
theorem Lands.le_empty (h : Lands S t k p) (hq : q < S.size) (he : t q = none) :
    dist S.size (S.home k) p ≤ dist S.size (S.home k) q := by
  by_contra hlt
  obtain ⟨f, hf, -⟩ := h.walk _ (Nat.lt_of_not_le hlt)
  rw [slot_dist (S.home_lt k) hq, he] at hf
  cases hf

/-- A lookup in a table with an empty slot ends. -/
theorem exists_lands (k : κ) (hq : q < S.size) (he : t q = none) : ∃ p, Lands S t k p := by
  classical
  have hk := S.home_lt k
  have hex : ∃ d, ∀ e, t (slot S.size (S.home k) d) = some e → S.key e = k :=
    ⟨dist S.size (S.home k) q, fun e h => by rw [slot_dist hk hq, he] at h; cases h⟩
  have hlt : Nat.find hex < S.size :=
    (Nat.find_min' hex fun e h => by rw [slot_dist hk hq, he] at h; cases h).trans_lt (dist_lt hq)
  refine ⟨slot S.size (S.home k) (Nat.find hex), slot_lt hk hlt, Nat.find_spec hex, ?_⟩
  intro d hd
  rw [dist_slot hk hlt] at hd
  have := Nat.find_min hex hd
  push Not at this
  exact this

/-- The empty table keeps the invariant. -/
theorem wf_empty : Wf S fun _ => none where
  reach := nofun
  once := nofun

theorem Wf.lands_stored (hw : Wf S t) (hj : j < S.size) (he : t j = some e) :
    Lands S t (S.key e) j where
  lt := hj
  ends f hf := by rw [he] at hf; cases hf; rfl
  walk d hd := by
    have hk := S.home_lt (S.key e)
    have hlt : d < S.size := hd.trans (dist_lt hj)
    obtain ⟨f, hf⟩ := Option.ne_none_iff_exists'.mp (hw.reach j hj e he d hd)
    refine ⟨f, hf, fun hkey => ?_⟩
    have heq := hw.once _ (slot_lt hk hlt) j hj f e hf he hkey
    rw [← heq, dist_slot hk hlt] at hd
    omega

/-- The lookup of a stored key ends at its entry. -/
theorem Wf.lands_eq (hw : Wf S t) (hj : j < S.size) (he : t j = some e)
    (h : Lands S t (S.key e) p) : p = j :=
  h.unique (hw.lands_stored hj he)

/-- The lookup of a key that is not stored ends at an empty slot. -/
theorem Lands.empty (h : Lands S t k p) (habs : ∀ e, Stored S t e → S.key e ≠ k) :
    t p = none := by
  cases hp : t p with
  | none => rfl
  | some e => exact absurd (h.ends e hp) (habs e ⟨p, h.lt, hp⟩)

theorem Wf.stored_unique (hw : Wf S t) (he : Stored S t e) (hf : Stored S t f)
    (h : S.key e = S.key f) : e = f := by
  obtain ⟨i, hi, hie⟩ := he
  obtain ⟨j, hj, hjf⟩ := hf
  obtain rfl := hw.once i hi j hj e f hie hjf h
  rw [hie] at hjf
  exact Option.some.inj hjf

/-! ## putting an entry -/

theorem Taken.mono (h : Taken S.size t c j) (ht : ∀ i, t i ≠ none → t' i ≠ none) :
    Taken S.size t' c j :=
  fun d hd => ht _ (h d hd)

theorem taken_update (h : Taken S.size t c j) (p : Nat) (e : α) :
    Taken S.size (Function.update t p (some e)) c j :=
  h.mono fun i hi => by
    by_cases hp : i = p
    · simp [hp]
    · simpa [Function.update_of_ne hp] using hi

theorem Lands.taken (h : Lands S t k p) : Taken S.size t (S.home k) p := by
  intro d hd
  obtain ⟨e, he, -⟩ := h.walk d hd
  simp [he]

/-- Writing an entry where its lookup lands keeps the invariant. -/
theorem Wf.put (hw : Wf S t) (h : Lands S t (S.key e) p) :
    Wf S (Function.update t p (some e)) where
  reach j hj f hf := by
    by_cases hp : j = p
    · subst hp
      obtain rfl : e = f := by simpa using hf
      exact taken_update h.taken _ _
    · rw [Function.update_of_ne hp] at hf
      exact taken_update (hw.reach j hj f hf) _ _
  once i hi j hj f g hf hg hkey := by
    by_cases hpi : i = p <;> by_cases hpj : j = p
    · omega
    · subst hpi
      obtain rfl : e = f := by simpa using hf
      rw [Function.update_of_ne hpj] at hg
      rw [hkey] at h
      exact hw.lands_eq hj hg h
    · subst hpj
      obtain rfl : e = g := by simpa using hg
      rw [Function.update_of_ne hpi] at hf
      rw [← hkey] at h
      exact (hw.lands_eq hi hf h).symm
    · rw [Function.update_of_ne hpi] at hf
      rw [Function.update_of_ne hpj] at hg
      exact hw.once i hi j hj f g hf hg hkey

/-- What is stored after an entry was put: it, and what has another key. -/
theorem Wf.stored_put (hw : Wf S t) (h : Lands S t (S.key e) p) :
    Stored S (Function.update t p (some e)) f ↔ f = e ∨ S.key f ≠ S.key e ∧ Stored S t f := by
  constructor
  · rintro ⟨j, hj, hf⟩
    by_cases hp : j = p
    · subst hp
      exact .inl (by simpa using hf.symm)
    · rw [Function.update_of_ne hp] at hf
      refine .inr ⟨fun hkey => hp ?_, j, hj, hf⟩
      rw [← hkey] at h
      exact (hw.lands_eq hj hf h).symm
  · rintro (rfl | ⟨hne, j, hj, hf⟩)
    · exact ⟨p, h.lt, by simp⟩
    · have hp : j ≠ p := fun hp => hne (h.ends f (hp ▸ hf))
      exact ⟨j, hj, by rw [Function.update_of_ne hp, hf]⟩

/-! ## emptying a slot and putting the rest of its chain back -/

/-- The invariant while a chain is put back: every entry is reached from its
home, or is still to be taken out of the chain that starts at `c`. -/
structure Loose (S : Shape α κ) (t : Nat → Option α) (c : Nat) : Prop where
  reach : ∀ j < S.size, ∀ e, t j = some e →
    Taken S.size t (S.home (S.key e)) j ∨ Taken S.size t c j
  once : ∀ i < S.size, ∀ j < S.size, ∀ e f, t i = some e → t j = some f →
    S.key e = S.key f → i = j

/-- From slot `c` on, every entry up to the next empty slot is taken out and
put where its lookup then lands. -/
inductive Refill (S : Shape α κ) : (Nat → Option α) → Nat → (Nat → Option α) → Prop
  | done {t : Nat → Option α} {c : Nat} : t c = none → Refill S t c t
  | step {t t' : Nat → Option α} {c p : Nat} {e : α} : t c = some e →
      Lands S (Function.update t c none) (S.key e) p →
      Refill S (Function.update (Function.update t c none) p (some e)) (slot S.size c 1) t' →
      Refill S t c t'

/-- One step of putting a chain back. -/
theorem Refill.cases_step (h : Refill S t c t') : (t c = none ∧ t' = t) ∨
    ∃ e p, t c = some e ∧ Lands S (Function.update t c none) (S.key e) p ∧
      Refill S (Function.update (Function.update t c none) p (some e)) (slot S.size c 1) t' := by
  cases h with
  | done h => exact .inl ⟨h, rfl⟩
  | step he hp hr => exact .inr ⟨_, _, he, hp, hr⟩

/-- A way that is cut by emptying slot `i` goes on behind it. -/
theorem Taken.cut (h : Taken S.size t c j) (hc : c < S.size) (hi : i < S.size)
    (hj : j < S.size) : Taken S.size (Function.update t i none) c j ∨
      Taken S.size (Function.update t i none) (slot S.size i 1) j := by
  by_cases hcut : dist S.size c i < dist S.size c j
  · right
    intro d hd
    have hsum := dist_slot_succ hc hi hj hcut
    have hlt := dist_lt (a := c) hj
    rw [slot_slot_succ hc hi (by omega)]
    rw [Function.update_of_ne]
    · exact h _ (by omega)
    · intro heq
      have := congrArg (dist S.size c) heq
      rw [dist_slot hc (by omega)] at this
      omega
  · left
    intro d hd
    have hlt := dist_lt (a := c) hj
    rw [Function.update_of_ne]
    · exact h d hd
    · rintro rfl
      rw [dist_slot hc (by omega)] at hcut
      omega

/-- The same, where the way starts at the emptied slot. -/
theorem Taken.cut_self (h : Taken S.size t c j) (hc : c < S.size) (hj : j < S.size)
    (hne : j ≠ c) : Taken S.size (Function.update t c none) (slot S.size c 1) j := by
  rcases h.cut hc hc hj with h' | h'
  · have hpos : 0 < dist S.size c j := by
      rcases Nat.eq_zero_or_pos (dist S.size c j) with h0 | h0
      · exact absurd (eq_of_dist_eq hc hj hc (by simpa using h0)) hne
      · exact h0
    have := h' 0 hpos
    rw [slot_zero hc] at this
    simp at this
  · exact h'

/-- Emptying a slot leaves the chain behind it to be put back. -/
theorem Wf.clear (hw : Wf S t) (hi : i < S.size) :
    Loose S (Function.update t i none) (slot S.size i 1) where
  reach j hj e he := by
    have hne : j ≠ i := by rintro rfl; simp at he
    rw [Function.update_of_ne hne] at he
    exact (hw.reach j hj e he).cut (S.home_lt _) hi hj
  once a ha b hb e f he hf hkey := by
    have hne : a ≠ i := by rintro rfl; simp at he
    have hne' : b ≠ i := by rintro rfl; simp at hf
    rw [Function.update_of_ne hne] at he
    rw [Function.update_of_ne hne'] at hf
    exact hw.once a ha b hb e f he hf hkey

/-- One entry taken out and put back. -/
theorem Loose.step (hl : Loose S t c) (hc : c < S.size) (he : t c = some e)
    (hp : Lands S (Function.update t c none) (S.key e) p) :
    Loose S (Function.update (Function.update t c none) p (some e)) (slot S.size c 1) where
  reach j hj f hf := by
    by_cases hjp : j = p
    · subst hjp
      obtain rfl : e = f := by simpa using hf
      exact .inl (taken_update hp.taken _ _)
    · rw [Function.update_of_ne hjp] at hf
      have hjc : j ≠ c := by rintro rfl; simp at hf
      rw [Function.update_of_ne hjc] at hf
      rcases hl.reach j hj f hf with h | h
      · exact (h.cut (S.home_lt _) hc hj).imp (taken_update · _ _) (taken_update · _ _)
      · exact .inr (taken_update (h.cut_self hc hj hjc) _ _)
  once a ha b hb f g hf hg hkey := by
    -- another entry with the key of the one put back would have been in the table before
    have alone : ∀ x < S.size, ∀ y, x ≠ p →
        Function.update (Function.update t c none) p (some e) x = some y →
        S.key y ≠ S.key e ∧ t x = some y := by
      intro x hx y hxp hy
      rw [Function.update_of_ne hxp] at hy
      have hxc : x ≠ c := by rintro rfl; simp at hy
      rw [Function.update_of_ne hxc] at hy
      exact ⟨fun hk => hxc (hl.once x hx c hc y e hy he hk), hy⟩
    by_cases hap : a = p <;> by_cases hbp : b = p
    · omega
    · obtain rfl : e = f := by simpa [hap] using hf
      exact absurd hkey.symm (alone b hb g hbp hg).1
    · obtain rfl : e = g := by simpa [hbp] using hg
      exact absurd hkey (alone a ha f hap hf).1
    · exact hl.once a ha b hb f g (alone a ha f hap hf).2 (alone b hb g hbp hg).2 hkey

/-- With the chain put back the probe invariant holds again. -/
theorem Loose.wf (hl : Loose S t c) (hc : c < S.size) (he : t c = none) : Wf S t where
  reach j hj e hje := by
    rcases hl.reach j hj e hje with h | h
    · exact h
    · have hne : j ≠ c := by rintro rfl; rw [he] at hje; cases hje
      have hpos : 0 < dist S.size c j := by
        rcases Nat.eq_zero_or_pos (dist S.size c j) with h0 | h0
        · exact absurd (eq_of_dist_eq hc hj hc (by simpa using h0)) hne
        · exact h0
      have := h 0 hpos
      rw [slot_zero hc] at this
      exact absurd he this
  once := hl.once

theorem Refill.wf (h : Refill S t c t') (hc : c < S.size) (hl : Loose S t c) : Wf S t' := by
  induction h with
  | done he => exact hl.wf hc he
  | step he hp _ ih => exact ih (slot_one_lt hc) (hl.step hc he hp)

/-! ## what a refilled table holds -/

/-- An entry that was taken out is put into an empty slot. -/
theorem Loose.lands_free (hl : Loose S t c) (hc : c < S.size) (he : t c = some e)
    (hp : Lands S (Function.update t c none) (S.key e) p) : Function.update t c none p = none := by
  refine hp.empty ?_
  rintro g ⟨j, hj, hg⟩ hkey
  have hjc : j ≠ c := by rintro rfl; simp at hg
  rw [Function.update_of_ne hjc] at hg
  exact hjc (hl.once j hj c hc g e hg he hkey)

/-- Taking an entry out and putting it back changes nothing of what is stored. -/
theorem Loose.stored_step (hl : Loose S t c) (hc : c < S.size) (he : t c = some e)
    (hp : Lands S (Function.update t c none) (S.key e) p) :
    Stored S (Function.update (Function.update t c none) p (some e)) f ↔ Stored S t f := by
  have free := hl.lands_free hc he hp
  constructor
  · rintro ⟨j, hj, hf⟩
    by_cases hjp : j = p
    · obtain rfl : e = f := by simpa [hjp] using hf
      exact ⟨c, hc, he⟩
    · rw [Function.update_of_ne hjp] at hf
      have hjc : j ≠ c := by rintro rfl; simp at hf
      exact ⟨j, hj, by rwa [Function.update_of_ne hjc] at hf⟩
  · rintro ⟨j, hj, hf⟩
    by_cases hjc : j = c
    · obtain rfl : e = f := by rw [hjc, he] at hf; exact Option.some.inj hf
      exact ⟨p, hp.lt, by simp⟩
    · have hjp : j ≠ p := by
        intro heq
        rw [← heq, Function.update_of_ne hjc, hf] at free
        cases free
      exact ⟨j, hj, by rw [Function.update_of_ne hjp, Function.update_of_ne hjc, hf]⟩

theorem Refill.stored (h : Refill S t c t') (hc : c < S.size) (hl : Loose S t c) :
    Stored S t' f ↔ Stored S t f := by
  induction h with
  | done he => rfl
  | step he hp _ ih =>
      exact (ih (slot_one_lt hc) (hl.step hc he hp)).trans (hl.stored_step hc he hp)

/-- What is stored after slot `i` was emptied. -/
theorem Wf.stored_clear (hw : Wf S t) (hi : i < S.size) (he : t i = some e) :
    Stored S (Function.update t i none) f ↔ Stored S t f ∧ f ≠ e := by
  constructor
  · rintro ⟨j, hj, hf⟩
    have hji : j ≠ i := by rintro rfl; simp at hf
    rw [Function.update_of_ne hji] at hf
    refine ⟨⟨j, hj, hf⟩, ?_⟩
    rintro rfl
    exact hji (hw.once j hj i hi f f hf he rfl)
  · rintro ⟨⟨j, hj, hf⟩, hne⟩
    have hji : j ≠ i := by
      rintro rfl
      rw [he] at hf
      exact hne (Option.some.inj hf).symm
    exact ⟨j, hj, by rw [Function.update_of_ne hji, hf]⟩

/-! ## which entry fills the emptied slot -/

/-- The walk to the entry at slot `c` passes slot `i`. -/
def Crosses (S : Shape α κ) (t : Nat → Option α) (i c : Nat) : Prop :=
  ∃ e, t c = some e ∧ dist S.size (S.home (S.key e)) i < dist S.size (S.home (S.key e)) c

/-- The entry `c` steps behind slot `i` is the first of the chain there whose
walk passes slot `i`. -/
structure Fills (S : Shape α κ) (t : Nat → Option α) (i c : Nat) : Prop where
  pos : 0 < c
  lt : c < S.size
  chain : ∀ d, 0 < d → d ≤ c → t (slot S.size i d) ≠ none
  crosses : Crosses S t i (slot S.size i c)
  first : ∀ d, 0 < d → d < c → ¬ Crosses S t i (slot S.size i d)

/-- The table `s` while the chain behind slot `i` of `t` is put back, the next
entry being the one `d` steps behind `i`. -/
structure Behind (S : Shape α κ) (t : Nat → Option α) (i d : Nat) (s : Nat → Option α) :
    Prop where
  pos : 0 < d
  chain : ∀ q, 0 < q → q < d → t (slot S.size i q) ≠ none
  rest : ∀ q, d ≤ q → q < S.size → s (slot S.size i q) = t (slot S.size i q)
  moved : ∀ p < d, ∀ e, s (slot S.size i p) = some e →
    ∃ q, p ≤ q ∧ 0 < q ∧ q < d ∧ t (slot S.size i q) = some e
  filled : (s i = none ∧ ∀ q, 0 < q → q < d →
      ¬ Crosses S t i (slot S.size i q) ∧ s (slot S.size i q) = t (slot S.size i q)) ∨
    ∃ c < d, Fills S t i c ∧ s i = t (slot S.size i c)

theorem behind_clear (hi : i < S.size) :
    Behind S t i 1 (Function.update t i none) where
  pos := by omega
  chain := by omega
  rest q hq hlt := Function.update_of_ne (slot_ne (by omega) hlt) _ _
  moved p hp e he := by
    obtain rfl : p = 0 := by omega
    simp [slot_zero hi] at he
  filled := .inl ⟨by simp, by omega⟩

section refilling

variable {s : Nat → Option α} {d m : Nat}

/-- A slot on the walk to the entry `d` steps behind slot `i`: unless the walk
passes `i` and the slot lies before it, the slot is between the two. -/
theorem Wf.on_walk (hw : Wf S t) (hi : i < S.size) (h0 : 0 < d) (hd : d < S.size)
    (he : t (slot S.size i d) = some e) (hq : q < S.size)
    (hlt : dist S.size (S.home (S.key e)) q <
      dist S.size (S.home (S.key e)) (slot S.size i d)) :
    t q ≠ none ∧ (∀ f, t q = some f → S.key f ≠ S.key e) ∧
      (if dist S.size (S.home (S.key e)) i < dist S.size (S.home (S.key e)) (slot S.size i d)
        then (dist S.size i q < d ∧
            dist S.size (S.home (S.key e)) i ≤ dist S.size (S.home (S.key e)) q) ∨
          (d < dist S.size i q ∧
            dist S.size (S.home (S.key e)) q < dist S.size (S.home (S.key e)) i)
        else 0 < dist S.size i q ∧ dist S.size i q < d) := by
  have hh := S.home_lt (S.key e)
  have hc := slot_lt hi hd
  refine ⟨?_, fun f hf hkey => ?_, ?_⟩
  · have := hw.reach _ hc e he _ hlt
    rwa [slot_dist hh hq] at this
  · have := hw.once q hq _ hc f e hf he hkey
    rw [this] at hlt
    omega
  · have hcd := dist_slot hi hd
    generalize slot S.size i d = c at *
    generalize S.home (S.key e) = h at *
    split
    · grind [dist]
    · grind [dist]

/-- Where the entry `d` steps behind slot `i` goes: not behind its own slot; to
slot `i` if its walk passes there and the slot is empty; and nowhere else as
long as nothing was moved. -/
theorem Behind.lands (hb : Behind S t i d s) (hw : Wf S t) (hi : i < S.size) (hd : d < S.size)
    (he : s (slot S.size i d) = some e)
    (hp : Lands S (Function.update s (slot S.size i d) none) (S.key e) p) :
    dist S.size i p ≤ d ∧
      (s i = none → Crosses S t i (slot S.size i d) → p = i) ∧
      (s i = none → ¬ Crosses S t i (slot S.size i d) →
        (∀ q, 0 < q → q < d → s (slot S.size i q) = t (slot S.size i q)) →
        p = slot S.size i d) := by
  have hh := S.home_lt (S.key e)
  have hc := slot_lt hi hd
  have hte : t (slot S.size i d) = some e := by rw [← hb.rest d le_rfl hd, he]
  have hle := hp.le_empty hc (Function.update_self _ _ _)
  -- the slot where the entry lands, unless it is its own, was on its walk
  have walk : p ≠ slot S.size i d → _ := fun hne =>
    hw.on_walk hi hb.pos hd hte hp.lt
      (lt_of_le_of_ne hle fun heq => hne (eq_of_dist_eq hh hp.lt hc heq))
  -- and it is not one that still is as it was
  have moved : p ≠ slot S.size i d → s p ≠ t p := by
    intro hne hsame
    obtain ⟨hnone, hkey, -⟩ := walk hne
    obtain ⟨f, hf⟩ := Option.ne_none_iff_exists'.mp hnone
    refine hkey f hf (hp.ends f ?_)
    rw [Function.update_of_ne hne, hsame, hf]
  have hle' : dist S.size i p ≤ d := by
    by_contra hgt
    have hne : p ≠ slot S.size i d := by
      rintro rfl
      rw [dist_slot hi hd] at hgt
      omega
    have := hb.rest (dist S.size i p) (by omega) (dist_lt hp.lt)
    rw [slot_dist hi hp.lt] at this
    exact moved hne this
  refine ⟨hle', fun hnone hcross => ?_, fun hnone hcross hsame => ?_⟩
  · obtain ⟨f, hf, hcross⟩ := hcross
    obtain rfl : e = f := by rw [hte] at hf; exact Option.some.inj hf
    have hne : i ≠ slot S.size i d := (slot_ne hb.pos hd).symm
    have hpi := hp.le_empty hi (by rw [Function.update_of_ne hne, hnone])
    have hpc : p ≠ slot S.size i d := by rintro rfl; omega
    have h := (walk hpc).2.2
    rw [if_pos hcross] at h
    rcases h with ⟨-, h⟩ | ⟨h, -⟩
    · exact eq_of_dist_eq hh hp.lt hi (by omega)
    · omega
  · by_contra hne
    have h := (walk hne).2.2
    rw [if_neg fun hc => hcross ⟨e, hte, hc⟩] at h
    have := hsame (dist S.size i p) h.1 h.2
    rw [slot_dist hi hp.lt] at this
    exact moved hne this

/-- One entry put back. -/
theorem Behind.step (hb : Behind S t i d s) (hw : Wf S t) (hi : i < S.size)
    (hd : d + 1 < S.size) (he : s (slot S.size i d) = some e)
    (hp : Lands S (Function.update s (slot S.size i d) none) (S.key e) p)
    (hfree : Function.update s (slot S.size i d) none p = none) :
    Behind S t i (d + 1)
      (Function.update (Function.update s (slot S.size i d) none) p (some e)) := by
  have hd' : d < S.size := by omega
  have hte : t (slot S.size i d) = some e := by rw [← hb.rest d le_rfl hd', he]
  obtain ⟨hle, hcross, hsame⟩ := hb.lands hw hi hd' he hp
  have hchain : ∀ q, 0 < q → q < d + 1 → t (slot S.size i q) ≠ none := by
    intro q h0 hq
    rcases Nat.lt_succ_iff_lt_or_eq.mp hq with h | rfl
    · exact hb.chain q h0 h
    · rw [hte]; nofun
  -- the cell at `q` steps behind `i`, unless the entry went there
  have cell : ∀ q, q < S.size → q ≠ d → slot S.size i q ≠ p →
      Function.update (Function.update s (slot S.size i d) none) p (some e) (slot S.size i q) =
        s (slot S.size i q) := by
    intro q hq hqd hqp
    rw [Function.update_of_ne hqp, Function.update_of_ne]
    exact fun h => hqd (slot_inj hq hd' h)
  refine ⟨Nat.succ_pos d, hchain, fun q hq hlt => ?_, fun q hq f hf => ?_, ?_⟩
  · have hqp : slot S.size i q ≠ p := by
      rintro rfl
      rw [dist_slot hi hlt] at hle
      omega
    rw [cell q hlt (by omega) hqp, hb.rest q (by omega) hlt]
  · by_cases hqp : slot S.size i q = p
    · rw [hqp, Function.update_self] at hf
      obtain rfl : e = f := Option.some.inj hf
      exact ⟨d, by omega, hb.pos, by omega, hte⟩
    · rw [Function.update_of_ne hqp] at hf
      have hqd : q ≠ d := by rintro rfl; simp at hf
      rw [Function.update_of_ne fun h => hqd (slot_inj (by omega) hd' h)] at hf
      obtain ⟨q', h1, h2, h3, h4⟩ := hb.moved q (by omega) f hf
      exact ⟨q', h1, h2, by omega, h4⟩
  · have hine : i ≠ slot S.size i d := (slot_ne hb.pos hd').symm
    rcases hb.filled with ⟨hnone, hrest⟩ | ⟨c, hc, hf, hsi⟩
    · by_cases hx : Crosses S t i (slot S.size i d)
      · obtain rfl := hcross hnone hx
        refine .inr ⟨d, by omega, ⟨hb.pos, hd', fun q h0 hq => hchain q h0 (by omega), hx,
          fun q h0 hq => (hrest q h0 hq).1⟩, ?_⟩
        rw [Function.update_self, hte]
      · obtain rfl := hsame hnone hx fun q h0 hq => (hrest q h0 hq).2
        refine .inl ⟨?_, fun q h0 hq => ?_⟩
        · rw [Function.update_of_ne hine, Function.update_of_ne hine, hnone]
        · rcases Nat.lt_succ_iff_lt_or_eq.mp hq with h | rfl
          · refine ⟨(hrest q h0 h).1, ?_⟩
            rw [cell q (by omega) (by omega) fun h' => by
              have := slot_inj (by omega) hd' h'; omega]
            exact (hrest q h0 h).2
          · exact ⟨hx, by rw [Function.update_self, hte]⟩
    · obtain ⟨f, hf'⟩ := Option.ne_none_iff_exists'.mp (hf.chain c hf.pos le_rfl)
      have hpi : i ≠ p := by
        rintro rfl
        rw [Function.update_of_ne hine, hsi, hf'] at hfree
        cases hfree
      exact .inr ⟨c, by omega, hf, by
        rw [Function.update_of_ne hpi, Function.update_of_ne hine, hsi]⟩

/-- The whole chain put back, up to the next slot that is empty. -/
theorem Refill.behind {u : Nat → Option α} (h : Refill S u c t') (hw : Wf S t)
    (hi : i < S.size) (hd : c = slot S.size i d) (hdm : d ≤ m) (hm : m < S.size)
    (hnone : t (slot S.size i m) = none) (hl : Loose S u c) (hb : Behind S t i d u) :
    ∃ d' < S.size, t (slot S.size i d') = none ∧ Behind S t i d' t' := by
  induction h generalizing d with
  | done he =>
      subst hd
      exact ⟨d, by omega, by rw [← hb.rest d le_rfl (by omega), he], hb⟩
  | step he hp _ ih =>
      subst hd
      have hlt : d < m := by
        refine lt_of_le_of_ne hdm ?_
        rintro rfl
        rw [hb.rest d le_rfl hm, hnone] at he
        cases he
      have hc := slot_lt hi (by omega : d < S.size)
      exact ih (slot_succ hi (by omega)) hlt (hl.step hc he hp)
        (hb.step hw hi (by omega) he hp (hl.lands_free hc he hp))

end refilling

/-- Emptying a slot and putting the chain behind it back, with another slot
empty: an entry ends where one at its place or behind it was, and the emptied
slot takes the first entry whose walk passed it. -/
theorem Wf.refill_emptied (hw : Wf S t) (hi : i < S.size)
    (hroom : ∃ q < S.size, q ≠ i ∧ t q = none)
    (h : Refill S (Function.update t i none) (slot S.size i 1) t') :
    (∀ p < S.size, ∀ e, t' p = some e →
      ∃ q < S.size, q ≠ i ∧ dist S.size i p ≤ dist S.size i q ∧ t q = some e) ∧
    ∀ e, t' i = some e → ∃ c, Fills S t i c ∧ t (slot S.size i c) = some e := by
  obtain ⟨q, hq, hqi, hqn⟩ := hroom
  have hpos : 0 < dist S.size i q := by
    refine Nat.pos_of_ne_zero fun h0 => hqi (eq_of_dist_eq hi hq hi (by simpa using h0))
  obtain ⟨d, hd, hnone, hb⟩ := h.behind hw hi rfl hpos (dist_lt hq)
    (by rw [slot_dist hi hq, hqn]) (hw.clear hi) (behind_clear hi)
  refine ⟨fun p hp e he => ?_, fun e he => ?_⟩
  · by_cases hpd : dist S.size i p < d
    · obtain ⟨q', h1, h2, h3, h4⟩ := hb.moved _ hpd e (by rwa [slot_dist hi hp])
      exact ⟨_, slot_lt hi (by omega), slot_ne h2 (by omega),
        by rwa [dist_slot hi (by omega)], h4⟩
    · have hsame := hb.rest (dist S.size i p) (by omega) (dist_lt hp)
      rw [slot_dist hi hp, he] at hsame
      refine ⟨p, hp, ?_, le_rfl, hsame.symm⟩
      rintro rfl
      have := hb.pos
      simp at hpd
      omega
  · rcases hb.filled with ⟨hn, -⟩ | ⟨c, -, hf, hc⟩
    · rw [hn] at he
      cases he
    · exact ⟨c, hf, by rw [← hc, he]⟩

/-! ## measures -/

section sums

open Finset

/-- The entries' steps from their homes, summed. -/
def weight (S : Shape α κ) (t : Nat → Option α) : Nat :=
  ∑ j ∈ range S.size, (t j).elim 0 fun e => dist S.size (S.home (S.key e)) j

/-- The number of slots taken. -/
def occupied (S : Shape α κ) (t : Nat → Option α) : Nat :=
  ∑ j ∈ range S.size, (t j).elim 0 fun _ => 1

/-- A sum over the slots after one was changed. -/
theorem sum_update (w : Nat → Option α → Nat) {n : Nat} (hi : i < n) (t : Nat → Option α)
    (x : Option α) :
    (∑ j ∈ range n, w j (Function.update t i x j)) + w i (t i) =
      (∑ j ∈ range n, w j (t j)) + w i x := by
  have hmem : i ∈ range n := mem_range.mpr hi
  rw [← add_sum_erase _ _ hmem, ← add_sum_erase _ (fun j => w j (t j)) hmem, Function.update_self]
  have hrest : ∑ j ∈ (range n).erase i, w j (Function.update t i x j) =
      ∑ j ∈ (range n).erase i, w j (t j) :=
    sum_congr rfl fun j hj => by rw [Function.update_of_ne (ne_of_mem_erase hj)]
  rw [hrest]
  omega

theorem weight_le (S : Shape α κ) (t : Nat → Option α) : weight S t ≤ S.size * S.size := by
  have h : ∀ j ∈ range S.size,
      ((t j).elim 0 fun e => dist S.size (S.home (S.key e)) j) ≤ S.size := by
    intro j hj
    cases t j with
    | none => exact Nat.zero_le _
    | some e => exact (dist_lt (mem_range.mp hj)).le
  calc weight S t ≤ ∑ _j ∈ range S.size, S.size := sum_le_sum h
    _ = S.size * S.size := by simp

/-- Taking an entry out and putting it back shortens its walk, or changes
nothing. -/
theorem weight_refill (hc : c < S.size) (he : t c = some e)
    (hp : Lands S (Function.update t c none) (S.key e) p) :
    Function.update (Function.update t c none) p (some e) = t ∨
      weight S (Function.update (Function.update t c none) p (some e)) < weight S t := by
  by_cases hpc : p = c
  · left
    subst hpc
    rw [Function.update_idem, ← he, Function.update_eq_self]
  · right
    have h1 := sum_update (fun j (x : Option α) =>
      x.elim 0 fun f => dist S.size (S.home (S.key f)) j) hc t none
    have h2 := sum_update (fun j (x : Option α) =>
      x.elim 0 fun f => dist S.size (S.home (S.key f)) j) hp.lt (Function.update t c none) (some e)
    have hle := hp.le_empty hc (Function.update_self _ _ _)
    have hne : dist S.size (S.home (S.key e)) p ≠ dist S.size (S.home (S.key e)) c :=
      fun h => hpc (eq_of_dist_eq (S.home_lt _) hp.lt hc h)
    simp only [he, Option.elim_some, Option.elim_none] at h1 h2
    unfold weight
    omega

theorem occupied_le (S : Shape α κ) (t : Nat → Option α) : occupied S t ≤ S.size := by
  have h : ∀ j ∈ range S.size, ((t j).elim 0 fun _ => 1) ≤ 1 := by
    intro j _
    cases t j <;> simp
  calc occupied S t ≤ ∑ _j ∈ range S.size, 1 := sum_le_sum h
    _ = S.size := by simp

/-- A table with less entries than slots has an empty slot. -/
theorem occupied_lt_iff : occupied S t < S.size ↔ ∃ q < S.size, t q = none := by
  constructor
  · intro hlt
    by_contra hfull
    push Not at hfull
    have : occupied S t = ∑ _j ∈ range S.size, 1 := by
      refine sum_congr rfl fun j hj => ?_
      obtain ⟨e, he⟩ := Option.ne_none_iff_exists'.mp (hfull j (mem_range.mp hj))
      rw [he]; rfl
    simp at this
    omega
  · rintro ⟨q, hq, hnone⟩
    have h : ∀ j ∈ range S.size, ((t j).elim 0 fun _ => 1) ≤ 1 := by
      intro j _
      cases t j <;> simp
    calc occupied S t < ∑ _j ∈ range S.size, 1 :=
          sum_lt_sum h ⟨q, mem_range.mpr hq, by simp [hnone]⟩
      _ = S.size := by simp

theorem occupied_update (hi : i < S.size) (x : Option α) :
    occupied S (Function.update t i x) + ((t i).elim 0 fun _ => 1) =
      occupied S t + x.elim 0 fun _ => 1 :=
  sum_update (fun _ (x : Option α) => x.elim 0 fun _ => 1) hi t x

/-- Putting a chain back leaves the number of entries as it is. -/
theorem Refill.occupied_eq (h : Refill S t c t') (hc : c < S.size) (hl : Loose S t c) :
    occupied S t' = occupied S t := by
  induction h with
  | done _ => rfl
  | @step t _ c p e he hp _ ih =>
      rw [ih (slot_one_lt hc) (hl.step hc he hp)]
      have h1 := occupied_update (t := t) hc none
      have h2 := occupied_update (t := Function.update t c none) hp.lt (some e)
      rw [hl.lands_free hc he hp] at h2
      rw [he] at h1
      simp only [Option.elim_some, Option.elim_none] at h1 h2
      omega

end sums

end Phi.Probe
