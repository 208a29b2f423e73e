import Mathlib.Data.List.Forall2

/-!
# Phi.Lib.Feed

Input that arrives in pieces and is taken up as far as it is whole.

An intake appends each piece to what it holds and then takes items off until
none is whole.  Two intakes that take the same items off related contents give
the same items for every cutting of the input (`Intake.feed_rel`), and one
whose items are recognised by their own bytes gives back the items a stream is
made of, however it is cut (`feed_items`).
-/

namespace Phi

variable {σ τ ε ε' α ι : Type}

/-- How input is taken up: a piece appended, an item taken off, and a bound on
how many items there can be. -/
structure Intake (σ ε α : Type) where
  push : σ → List α → σ
  next : σ → Option (ε × σ)
  size : σ → Nat

namespace Intake

/-- At most `n` items taken off. -/
def drainN (I : Intake σ ε α) : Nat → σ → List ε × σ
  | 0, s => ([], s)
  | n + 1, s => match I.next s with
      | none => ([], s)
      | some (e, t) => (e :: (drainN I n t).1, (drainN I n t).2)

/-- Items taken off until none is whole. -/
def drain (I : Intake σ ε α) (s : σ) : List ε × σ := I.drainN (I.size s) s

/-- The pieces one after the other, each taken up before the next. -/
def feed (I : Intake σ ε α) : σ → List (List α) → List ε × σ
  | s, [] => ([], s)
  | s, c :: cs =>
      let (es, t) := I.drain (I.push s c)
      let (fs, u) := feed I t cs
      (es ++ fs, u)

/-- Every item takes something up. -/
def Shrinks (I : Intake σ ε α) : Prop :=
  ∀ s e t, I.next s = some (e, t) → I.size t < I.size s

variable {I : Intake σ ε α} {J : Intake τ ε' α}

theorem drainN_of_next_none {s : σ} (h : I.next s = none) (n : Nat) : I.drainN n s = ([], s) := by
  cases n with
  | zero => rfl
  | succ n => rw [drainN, h]

/-- Turns beyond the size change nothing. -/
theorem drainN_congr (hI : I.Shrinks) {n m : Nat} {s : σ} (hn : I.size s ≤ n)
    (hm : I.size s ≤ m) : I.drainN n s = I.drainN m s := by
  induction n generalizing m s with
  | zero =>
      cases hnext : I.next s with
      | none => rw [drainN_of_next_none hnext, drainN_of_next_none hnext]
      | some x =>
          have hlt := hI s x.1 x.2 hnext
          omega
  | succ n ih =>
      cases hnext : I.next s with
      | none => rw [drainN_of_next_none hnext, drainN_of_next_none hnext]
      | some x =>
          have hlt := hI s x.1 x.2 hnext
          cases m with
          | zero => omega
          | succ m =>
              rw [drainN, drainN, hnext]
              dsimp only
              rw [ih (m := m) (by omega) (by omega)]

theorem drain_of_none {s : σ} (h : I.next s = none) : I.drain s = ([], s) :=
  drainN_of_next_none h _

theorem drain_of_some (hI : I.Shrinks) {s t : σ} {e : ε} (h : I.next s = some (e, t)) :
    I.drain s = (e :: (I.drain t).1, (I.drain t).2) := by
  have hlt := hI s e t h
  obtain ⟨n, hn⟩ := Nat.exists_eq_add_of_lt hlt
  unfold drain
  rw [hn, drainN, h]
  dsimp only
  rw [drainN_congr hI (Nat.le_add_right _ n) (Nat.le_refl _)]

/-- After draining no item is whole. -/
theorem next_drain (hI : I.Shrinks) (s : σ) : I.next (I.drain s).2 = none := by
  induction hn : I.size s using Nat.strongRecOn generalizing s with
  | ind n ih =>
      cases hnext : I.next s with
      | none => rwa [drain_of_none hnext]
      | some x =>
          have hlt := hI s x.1 x.2 hnext
          rw [drain_of_some hI hnext]
          exact ih _ (by omega) x.2 rfl

/-! ## two intakes -/

/-- Intakes that take related items off related contents, a piece that meets
`C` being appended to what holds no whole item. -/
structure Simulates (I : Intake σ ε α) (J : Intake τ ε' α) (R : σ → τ → Prop)
    (E : ε → ε' → Prop) (C : List α → Prop) : Prop where
  push : ∀ {s t c}, R s t → I.next s = none → C c → R (I.push s c) (J.push t c)
  idle : ∀ {s t}, R s t → I.next s = none → J.next t = none
  item : ∀ {s t e s'}, R s t → I.next s = some (e, s') →
    ∃ e' t', J.next t = some (e', t') ∧ E e e' ∧ R s' t'

variable {R : σ → τ → Prop} {E : ε → ε' → Prop} {C : List α → Prop}

theorem Simulates.drain (h : Simulates I J R E C) (hI : I.Shrinks) (hJ : J.Shrinks) {s : σ} {t : τ}
    (hR : R s t) :
    List.Forall₂ E (I.drain s).1 (J.drain t).1 ∧ R (I.drain s).2 (J.drain t).2 := by
  induction hn : I.size s using Nat.strongRecOn generalizing s t with
  | ind n ih =>
      cases hnext : I.next s with
      | none =>
          rw [drain_of_none hnext, drain_of_none (h.idle hR hnext)]
          exact ⟨.nil, hR⟩
      | some x =>
          obtain ⟨e', t', ht, hE, hR'⟩ := h.item hR hnext
          have hlt := hI s x.1 x.2 hnext
          obtain ⟨hes, hrest⟩ := ih _ (by omega) hR' rfl
          rw [drain_of_some hI hnext, drain_of_some hJ ht]
          exact ⟨.cons hE hes, hrest⟩

/-- **The same items for every cutting of the input.** -/
theorem Simulates.feed (h : Simulates I J R E C) (hI : I.Shrinks) (hJ : J.Shrinks) {s : σ} {t : τ}
    (hR : R s t) (hs : I.next s = none) {cs : List (List α)} (hC : ∀ c ∈ cs, C c) :
    List.Forall₂ E (I.feed s cs).1 (J.feed t cs).1 ∧ R (I.feed s cs).2 (J.feed t cs).2 := by
  induction cs generalizing s t with
  | nil => exact ⟨.nil, hR⟩
  | cons c cs ih =>
      obtain ⟨hes, hR'⟩ := h.drain hI hJ (h.push hR hs (hC c List.mem_cons_self))
      obtain ⟨hfs, hrest⟩ := ih hR' (next_drain hI _) fun d hd => hC d (List.mem_cons_of_mem _ hd)
      exact ⟨List.rel_append hes hfs, hrest⟩

end Intake

/-! ## a stream of items -/

/-- An intake over the bytes themselves. -/
def listIntake (next : List α → Option (ε × List α)) : Intake (List α) ε α where
  push s c := s ++ c
  next := next
  size := List.length

section items

variable {next : List α → Option (ε × List α)} {put : ι → List α} {val : ι → ε}

/-- Each item of a stream is recognised by its own bytes, and not before all of
them are there. -/
structure Recognises (next : List α → Option (ε × List α)) (put : ι → List α) (val : ι → ε)
    (xs : List ι) : Prop where
  shrinks : (listIntake next).Shrinks
  nil : next [] = none
  whole : ∀ x ∈ xs, ∀ more, next (put x ++ more) = some (val x, more)
  part : ∀ x ∈ xs, ∀ p more, put x = p ++ more → more ≠ [] → next p = none

/-- What has arrived of a stream gives its first items. -/
theorem Recognises.drain {xs : List ι} (h : Recognises next put val xs) {b z : List α}
    (hb : b ++ z = xs.flatMap put) :
    ∃ ys zs, xs = ys ++ zs ∧ ((listIntake next).drain b).1 = ys.map val ∧
      ((listIntake next).drain b).2 ++ z = zs.flatMap put := by
  induction xs generalizing b with
  | nil =>
      obtain ⟨rfl, rfl⟩ := List.append_eq_nil_iff.mp hb
      have hnone : (listIntake next).next [] = none := h.nil
      refine ⟨[], [], rfl, ?_, ?_⟩
      · rw [Intake.drain_of_none hnone]
        rfl
      · rw [Intake.drain_of_none hnone]
        rfl
  | cons x xs ih =>
      rw [List.flatMap_cons] at hb
      have htail : Recognises next put val xs :=
        ⟨h.shrinks, h.nil, fun y hy => h.whole y (List.mem_cons_of_mem _ hy),
          fun y hy => h.part y (List.mem_cons_of_mem _ hy)⟩
      obtain ⟨more, hx, hz⟩ | ⟨more, hbx, hmore⟩ := List.append_eq_append_iff.mp hb
      · by_cases hnil : more = []
        · subst hnil
          rw [List.append_nil] at hx
          rw [List.nil_append] at hz
          have hone : (listIntake next).next b = some (val x, []) := by
            have hw := h.whole x List.mem_cons_self []
            rwa [List.append_nil, hx] at hw
          obtain ⟨ys, zs, hsplit, hfirst, hrest⟩ := ih htail (b := []) (by simpa using hz)
          refine ⟨x :: ys, zs, by rw [hsplit, List.cons_append], ?_, ?_⟩
          · rw [Intake.drain_of_some h.shrinks hone, hfirst, List.map_cons]
          · rw [Intake.drain_of_some h.shrinks hone]
            exact hrest
        · have hnone : (listIntake next).next b = none :=
            h.part x List.mem_cons_self b more hx hnil
          refine ⟨[], x :: xs, rfl, ?_, ?_⟩
          · rw [Intake.drain_of_none hnone]
            rfl
          · rw [Intake.drain_of_none hnone, List.flatMap_cons]
            exact hb
      · have hone : (listIntake next).next b = some (val x, more) := by
          rw [hbx]
          exact h.whole x List.mem_cons_self more
        obtain ⟨ys, zs, hsplit, hfirst, hrest⟩ := ih htail (b := more) hmore.symm
        refine ⟨x :: ys, zs, by rw [hsplit, List.cons_append], ?_, ?_⟩
        · rw [Intake.drain_of_some h.shrinks hone, hfirst, List.map_cons]
        · rw [Intake.drain_of_some h.shrinks hone]
          exact hrest

/-- **The items of a stream come out in order, however it is cut**, and nothing
is left. -/
theorem Recognises.feed {xs : List ι} (h : Recognises next put val xs) {b : List α}
    {cs : List (List α)} (hb : b ++ cs.flatten = xs.flatMap put) (hnone : next b = none) :
    (listIntake next).feed b cs = (xs.map val, []) := by
  induction cs generalizing b xs with
  | nil =>
      rw [List.flatten_nil, List.append_nil] at hb
      cases xs with
      | nil =>
          rw [hb]
          rfl
      | cons x xs =>
          rw [hb, List.flatMap_cons, h.whole x List.mem_cons_self] at hnone
          cases hnone
  | cons c cs ih =>
      rw [List.flatten_cons, ← List.append_assoc] at hb
      obtain ⟨ys, zs, rfl, hfirst, hrest⟩ := h.drain hb
      have htail : Recognises next put val zs :=
        ⟨h.shrinks, h.nil, fun y hy => h.whole y (List.mem_append_right _ hy),
          fun y hy => h.part y (List.mem_append_right _ hy)⟩
      have hlater := ih htail hrest (Intake.next_drain h.shrinks _)
      unfold Intake.feed
      dsimp only
      have hpush : (listIntake next).push b c = b ++ c := rfl
      rw [hpush, hfirst, hlater, List.map_append]

end items

/-! ## items that more input does not change -/

/-- A good item stays the same with more input, which is left behind it; a bad
one stays bad. -/
structure Stable (next : List α → Option (ε × List α)) (Good : ε → Prop) : Prop where
  shrinks : (listIntake next).Shrinks
  good : ∀ b e t c, next b = some (e, t) → Good e → next (b ++ c) = some (e, t ++ c)
  bad : ∀ b e t c, next b = some (e, t) → ¬ Good e → ∃ t', next (b ++ c) = some (e, t')

section stable

variable {next : List α → Option (ε × List α)} {Good : ε → Prop}

/-- Good items are taken off first, whatever follows them. -/
theorem Stable.drain_append (h : Stable next Good) {b : List α} (c : List α)
    (hgood : ∀ e ∈ ((listIntake next).drain b).1, Good e) :
    (listIntake next).drain (b ++ c) =
      (((listIntake next).drain b).1 ++
          ((listIntake next).drain (((listIntake next).drain b).2 ++ c)).1,
        ((listIntake next).drain (((listIntake next).drain b).2 ++ c)).2) := by
  induction hn : b.length using Nat.strongRecOn generalizing b with
  | ind n ih =>
      cases hnext : next b with
      | none =>
          rw [Intake.drain_of_none (I := listIntake next) hnext]
          rfl
      | some x =>
          obtain ⟨e, t⟩ := x
          have hdrain := Intake.drain_of_some h.shrinks (I := listIntake next) hnext
          rw [hdrain] at hgood
          have hmore := h.good b e t c hnext (hgood e List.mem_cons_self)
          have hlt : t.length < b.length := h.shrinks b e t hnext
          rw [hdrain, Intake.drain_of_some h.shrinks (I := listIntake next) hmore,
            ih _ (by omega) (fun f hf => hgood f (List.mem_cons_of_mem _ hf)) rfl]
          rfl

/-- If all items are good, those of a part are. -/
theorem Stable.good_of_append (h : Stable next Good) {b c : List α}
    (hgood : ∀ e ∈ ((listIntake next).drain (b ++ c)).1, Good e) :
    ∀ e ∈ ((listIntake next).drain b).1, Good e := by
  induction hn : b.length using Nat.strongRecOn generalizing b with
  | ind n ih =>
      cases hnext : next b with
      | none =>
          rw [Intake.drain_of_none (I := listIntake next) hnext]
          simp
      | some x =>
          obtain ⟨e, t⟩ := x
          have hlt : t.length < b.length := h.shrinks b e t hnext
          have hfirst : Good e := by
            refine Classical.byContradiction fun hbad => ?_
            obtain ⟨t', hmore⟩ := h.bad b e t c hnext hbad
            rw [Intake.drain_of_some h.shrinks (I := listIntake next) hmore] at hgood
            exact hbad (hgood e List.mem_cons_self)
          have hmore := h.good b e t c hnext hfirst
          rw [Intake.drain_of_some h.shrinks (I := listIntake next) hmore] at hgood
          rw [Intake.drain_of_some h.shrinks (I := listIntake next) hnext]
          intro f hf
          rcases List.mem_cons.mp hf with rfl | hf
          · exact hfirst
          · exact ih _ (by omega) (fun g hg => hgood g (List.mem_cons_of_mem _ hg)) rfl f hf

/-- Good items in pieces are those of the whole. -/
theorem Stable.feed_eq (h : Stable next Good) {b : List α} (hb : next b = none)
    {cs : List (List α)} (hgood : ∀ e ∈ ((listIntake next).feed b cs).1, Good e) :
    (listIntake next).feed b cs = (listIntake next).drain (b ++ cs.flatten) := by
  induction cs generalizing b with
  | nil =>
      rw [List.flatten_nil, List.append_nil, Intake.drain_of_none (I := listIntake next) hb]
      rfl
  | cons c cs ih =>
      have hpush : (listIntake next).push b c = b ++ c := rfl
      unfold Intake.feed at hgood ⊢
      simp only [hpush] at hgood ⊢
      have hrest := ih (Intake.next_drain h.shrinks (b ++ c)) fun e he =>
        hgood e (List.mem_append_right _ he)
      rw [List.flatten_cons, ← List.append_assoc, hrest,
        h.drain_append _ fun e he => hgood e (List.mem_append_left _ he)]

theorem Stable.feed_of_drain (h : Stable next Good) {b : List α} (hb : next b = none)
    {cs : List (List α)}
    (hgood : ∀ e ∈ ((listIntake next).drain (b ++ cs.flatten)).1, Good e) :
    (listIntake next).feed b cs = (listIntake next).drain (b ++ cs.flatten) := by
  induction cs generalizing b with
  | nil =>
      rw [List.flatten_nil, List.append_nil, Intake.drain_of_none (I := listIntake next) hb]
      rfl
  | cons c cs ih =>
      have hpush : (listIntake next).push b c = b ++ c := rfl
      rw [List.flatten_cons, ← List.append_assoc] at hgood ⊢
      have hfirst := h.good_of_append hgood
      rw [h.drain_append _ hfirst] at hgood ⊢
      have hrest := ih (Intake.next_drain h.shrinks (b ++ c)) fun e he =>
        hgood e (List.mem_append_right _ he)
      unfold Intake.feed
      simp only [hpush, hrest]

/-- **Good items do not depend on the cutting.** -/
theorem Stable.feed_congr (h : Stable next Good) {b : List α} (hb : next b = none)
    {cs ds : List (List α)} (hcut : cs.flatten = ds.flatten)
    (hgood : ∀ e ∈ ((listIntake next).feed b cs).1, Good e) :
    (listIntake next).feed b ds = (listIntake next).feed b cs := by
  have hall := h.feed_eq hb hgood
  rw [hall, hcut] at hgood
  rw [hall, h.feed_of_drain hb hgood, hcut]

end stable

end Phi
