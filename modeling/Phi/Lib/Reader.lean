import Mathlib.Data.List.Basic
import Phi.Lib.Bytes

/-!
# Phi.Lib.Reader

Readers over a byte list, and the two relations by which formats are verified.

A reader takes values off the front of a byte list and fails when it is too
short or wrong.  `Reads r bs a` says that `r` takes exactly `bs`, whatever
follows, and makes `a` of it: the half of a round trip that composes.
`forget r` is the reader that only skips what `r` takes; a validator is right
when it is the `forget` of the reader it stands for, and the laws of `forget`
turn that into rewriting.
-/

namespace Phi

/-- A reader: the value read and the bytes after it, or nothing. -/
abbrev Reader := StateT (List UInt8) Option

namespace Reader

variable {α β : Type}

/-! ## the readers -/

/-- The next `n` bytes. -/
def take (n : Nat) : Reader (List UInt8) := fun bs =>
  if n ≤ bs.length then some (bs.take n, bs.drop n) else none

/-- Past the next `n` bytes. -/
def skip (n : Nat) : Reader Unit := fun bs =>
  if n ≤ bs.length then some ((), bs.drop n) else none

/-- All that is left. -/
def rest : Reader (List UInt8) := fun bs => some (bs, [])

/-- `r` over and again, `n` times. -/
def many (r : Reader α) : Nat → Reader (List α)
  | 0 => pure []
  | n + 1 => do
      let x ← r
      let xs ← many r n
      pure (x :: xs)

/-- Skips what `v` skips, `n` times. -/
def times (v : Reader Unit) : Nat → Reader Unit
  | 0 => pure ()
  | n + 1 => do
      v
      times v n

/-- A value that may turn out wrong. -/
def check (x : Option α) : Reader α := fun bs => x.map fun a => (a, bs)

/-- What `r` takes, its value forgotten. -/
def forget (r : Reader α) : Reader Unit := do
  let _ ← r
  pure ()

theorem bind_apply (r : Reader α) (f : α → Reader β) (bs : List UInt8) :
    (r >>= f) bs = (r bs).bind fun x => f x.1 x.2 := rfl

/-! ## what the values satisfy -/

/-- Every value that `r` makes satisfies `P`. -/
def Gives (r : Reader α) (P : α → Prop) : Prop := ∀ bs a left, r bs = some (a, left) → P a

theorem gives_pure {P : α → Prop} {a : α} (h : P a) : Gives (pure a) P := by
  intro bs b left hb
  cases hb
  exact h

theorem gives_bind {P : β → Prop} (r : Reader α) {f : α → Reader β} (h : ∀ a, Gives (f a) P) :
    Gives (r >>= f) P := by
  intro bs b left hb
  obtain ⟨⟨a, mid⟩, -, hf⟩ := Option.bind_eq_some_iff.mp hb
  exact h a mid b left hf

/-! ## exact reading -/

/-- `r` takes exactly `bs` and makes `a` of it. -/
def Reads (r : Reader α) (bs : List UInt8) (a : α) : Prop :=
  ∀ more, r (bs ++ more) = some (a, more)

theorem reads_pure (a : α) : Reads (pure a : Reader α) [] a := fun _ => rfl

theorem reads_take {n : Nat} {bs : List UInt8} (h : bs.length = n) : Reads (take n) bs bs := by
  intro more
  subst h
  simp [take]

theorem reads_check (a : α) : Reads (check (some a)) [] a := fun _ => rfl

theorem Reads.bind {r : Reader α} {f : α → Reader β} {bs cs : List UInt8} {a : α} {b : β}
    (hr : Reads r bs a) (hf : Reads (f a) cs b) : Reads (r >>= f) (bs ++ cs) b := by
  intro more
  have hfirst := hr (cs ++ more)
  have hsecond := hf more
  show Option.bind (r (bs ++ cs ++ more)) (fun x => f x.1 x.2) = some (b, more)
  rw [List.append_assoc, hfirst]
  exact hsecond

/-- The last field: nothing is read after it but its value used. -/
theorem Reads.map {r : Reader α} {f : α → β} {bs : List UInt8} {a : α} (hr : Reads r bs a) :
    Reads (do let x ← r; pure (f x)) bs (f a) := by
  have h := hr.bind (f := fun x => (pure (f x) : Reader β)) (reads_pure (f a))
  rwa [List.append_nil] at h

/-- A list whose items are each read back. -/
theorem Reads.many {γ : Type} {r : Reader α} {put : γ → List UInt8} {val : γ → α} {xs : List γ}
    (h : ∀ x ∈ xs, Reads r (put x) (val x)) :
    Reads (many r xs.length) (xs.flatMap put) (xs.map val) := by
  induction xs with
  | nil => exact reads_pure []
  | cons x xs ih =>
      have htail := ih fun y hy => h y (List.mem_cons_of_mem _ hy)
      rw [List.flatMap_cons, List.map_cons, List.length_cons]
      exact (h x List.mem_cons_self).bind htail.map

/-! ## skipping -/

@[simp] theorem forget_pure (a : α) : forget (pure a : Reader α) = pure () := rfl

@[simp] theorem forget_take (n : Nat) : forget (take n) = skip n := by
  funext bs
  show Option.bind (take n bs) (fun x => some ((), x.2)) = skip n bs
  unfold take skip
  split
  · rfl
  · rfl

@[simp] theorem forget_skip (n : Nat) : forget (skip n) = skip n := bind_pure (skip n)

@[simp] theorem forget_bind (r : Reader α) (f : α → Reader β) :
    forget (r >>= f) = r >>= fun a => forget (f a) := by
  unfold forget
  rw [bind_assoc]

/-- A value that is not used need not be read. -/
theorem bind_eq_forget_bind (r : Reader α) (k : Reader β) :
    (r >>= fun _ => k) = forget r >>= fun _ => k := by
  unfold forget
  rw [bind_assoc]
  rfl

/-- A field whose value does not matter to how much is read after it. -/
theorem forget_field {r : Reader α} {f : α → Reader β} {k : Reader Unit}
    (h : ∀ a, forget (f a) = k) : forget (r >>= f) = forget r >>= fun _ => k := by
  rw [forget_bind, ← bind_eq_forget_bind]
  simp only [h]

@[simp] theorem forget_check (x : Option α) : forget (check x) = check (x.map fun _ => ()) := by
  funext bs
  cases x with
  | none => rfl
  | some a => rfl

/-- What is done with the next `n` bytes matters for `n` bytes alone. -/
theorem take_bind_congr {n : Nat} {f g : List UInt8 → Reader β}
    (h : ∀ b, b.length = n → f b = g b) : (take n >>= f) = take n >>= g := by
  funext bs
  show Option.bind (take n bs) (fun x => f x.1 x.2) = Option.bind (take n bs) fun x => g x.1 x.2
  unfold take
  by_cases hn : n ≤ bs.length
  · rw [if_pos hn, Option.bind_some, Option.bind_some, h _ (List.length_take_of_le hn)]
  · rw [if_neg hn, Option.bind_none, Option.bind_none]

/-- A reader and its forgetful form fail together. -/
theorem isSome_forget (r : Reader α) (bs : List UInt8) :
    (forget r bs).isSome = (r bs).isSome := by
  show (Option.bind (r bs) fun x => some ((), x.2)).isSome = _
  cases r bs with
  | none => rfl
  | some x => rfl

theorem skip_zero : skip 0 = pure () := by
  funext bs
  show (if 0 ≤ bs.length then some ((), bs.drop 0) else none) = some ((), bs)
  rw [if_pos (Nat.zero_le _), List.drop_zero]

/-- Two skips are one. -/
theorem skip_bind_skip (m n : Nat) : (skip m >>= fun _ => skip n) = skip (m + n) := by
  funext bs
  show Option.bind (skip m bs) (fun x => skip n x.2) = skip (m + n) bs
  unfold skip
  by_cases hm : m ≤ bs.length
  · rw [if_pos hm]
    show (if n ≤ (bs.drop m).length then some ((), (bs.drop m).drop n) else none) = _
    rw [List.length_drop, List.drop_drop]
    by_cases hn : n ≤ bs.length - m
    · rw [if_pos hn, if_pos (by omega)]
    · rw [if_neg hn, if_neg (by omega)]
  · rw [if_neg hm, if_neg (by omega)]
    rfl

theorem skip_bind_skip_bind (m n : Nat) (k : Reader β) :
    (skip m >>= fun _ => skip n >>= fun _ => k) = skip (m + n) >>= fun _ => k := by
  rw [← skip_bind_skip, bind_assoc]

@[simp] theorem forget_many (r : Reader α) (n : Nat) : forget (many r n) = times (forget r) n := by
  induction n with
  | zero => rfl
  | succ n ih =>
      rw [many, times, forget_bind, ← ih, ← bind_eq_forget_bind]
      simp only [forget_bind, forget_pure]
      rfl

/-- Items of one size are skipped together. -/
theorem times_skip (k n : Nat) : times (skip k) n = skip (n * k) := by
  induction n with
  | zero => rw [Nat.zero_mul, skip_zero]; rfl
  | succ n ih => rw [times, ih, skip_bind_skip, Nat.succ_mul, Nat.add_comm]

/-! ## more input -/

/-- What `r` makes of some bytes it makes of more, and leaves the more. -/
def Extends (r : Reader α) : Prop :=
  ∀ bs a left more, r bs = some (a, left) → r (bs ++ more) = some (a, left ++ more)

theorem extends_pure (a : α) : Extends (pure a : Reader α) := by
  intro bs b left more h
  cases h
  rfl

theorem extends_take (n : Nat) : Extends (take n) := by
  intro bs b left more h
  obtain ⟨hn, h⟩ := Option.ite_none_right_eq_some.mp h
  obtain ⟨rfl, rfl⟩ := Prod.mk.inj (Option.some.inj h)
  rw [take, if_pos (by rw [List.length_append]; omega), List.take_append_of_le_length hn,
    List.drop_append_of_le_length hn]

theorem extends_check (x : Option α) : Extends (check x) := by
  intro bs a left more h
  cases x with
  | none => cases h
  | some b =>
      cases h
      rfl

theorem Extends.bind {r : Reader α} {f : α → Reader β} (hr : Extends r)
    (hf : ∀ a, Extends (f a)) : Extends (r >>= f) := by
  intro bs b left more h
  obtain ⟨⟨a, mid⟩, hfirst, hrest⟩ := Option.bind_eq_some_iff.mp h
  have hmore := hr bs a mid more hfirst
  show Option.bind (r (bs ++ more)) (fun x => f x.1 x.2) = some (b, left ++ more)
  rw [hmore]
  exact hf a mid b left more hrest

theorem Extends.many {r : Reader α} (hr : Extends r) (n : Nat) : Extends (many r n) := by
  induction n with
  | zero => exact extends_pure []
  | succ n ih => exact hr.bind fun x => ih.bind fun xs => extends_pure (x :: xs)

/-- A reader that takes all of `bs` fails on what is cut off it. -/
theorem Extends.cut {r : Reader α} (hr : Extends r) {bs : List UInt8} {a : α}
    (h : r bs = some (a, [])) {p more : List UInt8} (hp : bs = p ++ more) (hmore : more ≠ []) :
    r p = none := by
  cases hcut : r p with
  | none => rfl
  | some x =>
      have hext := hr p x.1 x.2 more hcut
      rw [hp, hext] at h
      have hleft := (Prod.mk.inj (Option.some.inj h)).2
      exact absurd (List.append_eq_nil_iff.mp hleft).2 hmore

/-! ## how much is taken -/

/-- What `r` makes satisfies `P`, given how many bytes it took. -/
def Spends (r : Reader α) (P : Nat → α → Prop) : Prop :=
  ∀ bs a left, r bs = some (a, left) → ∃ n, bs.length = n + left.length ∧ P n a

theorem spends_pure {P : Nat → α → Prop} {a : α} (h : P 0 a) : Spends (pure a) P := by
  intro bs b left hb
  cases hb
  exact ⟨0, (Nat.zero_add _).symm, h⟩

theorem spends_take (n : Nat) : Spends (take n) fun k b => k = n ∧ b.length = n := by
  intro bs b left h
  obtain ⟨hn, h⟩ := Option.ite_none_right_eq_some.mp h
  obtain ⟨rfl, rfl⟩ := Prod.mk.inj (Option.some.inj h)
  refine ⟨n, ?_, rfl, List.length_take_of_le hn⟩
  rw [List.length_drop]
  omega

theorem spends_check (x : Option α) : Spends (check x) fun k a => k = 0 ∧ x = some a := by
  intro bs a left h
  obtain ⟨y, hy, hpair⟩ := Option.map_eq_some_iff.mp h
  obtain ⟨rfl, rfl⟩ := Prod.mk.inj hpair
  exact ⟨0, (Nat.zero_add _).symm, rfl, hy⟩

theorem Spends.bind {r : Reader α} {f : α → Reader β} {P : Nat → α → Prop} {Q : Nat → β → Prop}
    (hr : Spends r P) (hf : ∀ k a, P k a → Spends (f a) fun n b => Q (k + n) b) :
    Spends (r >>= f) Q := by
  intro bs b left h
  obtain ⟨⟨a, mid⟩, hfirst, hrest⟩ := Option.bind_eq_some_iff.mp h
  obtain ⟨k, hk, hP⟩ := hr bs a mid hfirst
  obtain ⟨n, hn, hQ⟩ := hf k a hP mid b left hrest
  exact ⟨k + n, by omega, hQ⟩

/-- The last field: nothing is read after it but its value used. -/
theorem Spends.map {r : Reader α} {f : α → β} {P : Nat → α → Prop} {Q : Nat → β → Prop}
    (hr : Spends r P) (h : ∀ n a, P n a → Q n (f a)) :
    Spends (do let x ← r; pure (f x)) Q :=
  hr.bind fun n a ha => spends_pure (h n a ha)

theorem Spends.mono {r : Reader α} {P Q : Nat → α → Prop} (hr : Spends r P)
    (h : ∀ n a, P n a → Q n a) : Spends r Q := fun bs a left hread =>
  let ⟨n, hn, hP⟩ := hr bs a left hread
  ⟨n, hn, h n a hP⟩

/-- Items that are worth what they take. -/
theorem Spends.many {r : Reader α} {worth : α → Nat} {P : α → Prop}
    (h : Spends r fun n a => n = worth a ∧ P a) (k : Nat) :
    Spends (many r k) fun n as =>
      as.length = k ∧ n = (as.map worth).sum ∧ ∀ a ∈ as, P a := by
  induction k with
  | zero => exact spends_pure ⟨rfl, rfl, by simp⟩
  | succ k ih =>
      refine h.bind fun n a ⟨hn, ha⟩ => ih.map fun m as ⟨hlen, hm, has⟩ => ⟨?_, ?_, ?_⟩
      · rw [List.length_cons, hlen]
      · rw [List.map_cons, List.sum_cons, hn, hm]
      · rw [List.forall_mem_cons]
        exact ⟨ha, has⟩

end Reader

end Phi
