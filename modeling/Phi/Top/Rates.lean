import Phi.Top.Snapshot

/-!
# Phi.Top.Rates

Rates over an interval (`per_second` and the first half of `dev_rates` of
`model.S`).

A rate is a difference of two counters, in 64 bits, times a million, in 64
bits, divided by the interval in microseconds.  `divq` divides a number of two
words and stops the program where the divisor is 0 or the quotient needs more
than a word.
-/

namespace Phi.Top

/-! ## dividing -/

/-- Why a routine does not return. -/
inductive Halt
  /-- The processor's divide error. -/
  | divide
  /-- A walk of `seen_find` that does not end. -/
  | endless
deriving DecidableEq

/-- The processor's division of `hi * 2^64 + lo`. -/
def divq (hi lo d : UInt64) : Except Halt UInt64 :=
  if hi < d then .ok (UInt64.ofNat ((hi.toNat * 2 ^ 64 + lo.toNat) / d.toNat)) else .error .divide

/-- With the upper word clear and a divisor that is not 0 the division is exact. -/
theorem divq_zero (lo : UInt64) {d : UInt64} (hd : d ≠ 0) : divq 0 lo d = .ok (lo / d) := by
  have hpos : (0 : UInt64) < d := UInt64.pos_iff_ne_zero.mpr hd
  rw [divq, if_pos hpos]
  congr 1
  refine UInt64.toNat_inj.mp ?_
  have hlt : lo.toNat / d.toNat < 2 ^ 64 := Nat.lt_of_le_of_lt (Nat.div_le_self _ _) lo.toNat_lt
  rw [UInt64.toNat_ofNat', UInt64.toNat_div, UInt64.toNat_zero, Nat.zero_mul, Nat.zero_add,
    Nat.mod_eq_of_lt hlt]

/-- The routine returns. -/
def Returns {α : Type} (x : Except Halt α) : Prop := ∃ a, x = .ok a

/-- The routine is not stopped by a division. -/
def NoDivide {α : Type} (x : Except Halt α) : Prop := x ≠ .error .divide

section returning

variable {α β : Type}

theorem returns_pure (a : α) : Returns (pure a : Except Halt α) := ⟨a, rfl⟩

theorem Returns.bind {x : Except Halt α} {f : α → Except Halt β} (hx : Returns x)
    (hf : ∀ a, Returns (f a)) : Returns (x >>= f) := by
  obtain ⟨a, rfl⟩ := hx
  exact hf a

theorem Returns.ite {c : Prop} [Decidable c] {x y : Except Halt α} (hx : Returns x)
    (hy : ¬ c → Returns y) : Returns (if c then x else y) := by
  split
  · exact hx
  · next h => exact hy h

theorem returns_divq (lo : UInt64) {d : UInt64} (hd : d ≠ 0) : Returns (divq 0 lo d) :=
  ⟨lo / d, divq_zero lo hd⟩

theorem returns_mapM {f : α → Except Halt β} {l : List α} (hf : ∀ a ∈ l, Returns (f a)) :
    Returns (l.mapM f) := by
  induction l with
  | nil => exact returns_pure _
  | cons a l ih =>
      rw [List.mapM_cons]
      exact (hf a List.mem_cons_self).bind fun _ =>
        (ih fun b hb => hf b (List.mem_cons_of_mem a hb)).bind fun _ => returns_pure _

theorem Returns.noDivide {x : Except Halt α} (h : Returns x) : NoDivide x := by
  obtain ⟨a, rfl⟩ := h
  nofun

theorem NoDivide.bind {x : Except Halt α} {f : α → Except Halt β} (hx : NoDivide x)
    (hf : ∀ a, NoDivide (f a)) : NoDivide (x >>= f) := by
  cases x with
  | error h => intro heq; exact hx (by cases heq; rfl)
  | ok a => exact hf a

theorem noDivide_mapM {f : α → Except Halt β} (hf : ∀ a, NoDivide (f a)) (l : List α) :
    NoDivide (l.mapM f) := by
  induction l with
  | nil => exact (returns_pure _).noDivide
  | cons a l ih =>
      rw [List.mapM_cons]
      exact (hf a).bind fun _ => ih.bind fun _ => (returns_pure _).noDivide

/-- A routine that returns on every element, over a list. -/
theorem mapM_ok {f : α → Except Halt β} {g : α → β} (h : ∀ a, f a = .ok (g a)) (l : List α) :
    l.mapM f = .ok (l.map g) := by
  induction l with
  | nil => rfl
  | cons a l ih =>
      rw [List.mapM_cons, h, ih]
      rfl

end returning

/-! ## rates -/

/-- The least interval: a millisecond. -/
def minInterval : UInt64 := 1000

/-- The time between two samples, at least a millisecond. -/
def interval (prev cur : Snapshot) : UInt64 :=
  let d := cur.atUs - prev.atUs
  if d < minInterval then minInterval else d

theorem interval_ne_zero (prev cur : Snapshot) : interval prev cur ≠ 0 := by
  simp only [interval]
  split
  · decide
  · next h =>
      intro h0
      exact h (h0 ▸ by decide)

/-- `per_second`: bytes per second of a difference over an interval. -/
def perSecond (iv delta : UInt64) : Except Halt UInt64 := divq 0 (delta * 1000000) iv

theorem perSecond_eq {iv : UInt64} (h : iv ≠ 0) (delta : UInt64) :
    perSecond iv delta = .ok (delta * 1000000 / iv) :=
  divq_zero _ h

/-- An entry of a rate table. -/
structure Rate where
  name : List UInt8
  a : UInt64
  b : UInt64
deriving DecidableEq

/-- The entry of the sample before that has the device's name, the first if
there are several; the device itself if there is none, and its rate is 0. -/
def counterpart (before : List Dev) (d : Dev) : Dev :=
  (before.find? (·.name = d.name)).getD d

/-- What `dev_rates` writes for a device of the current table. -/
def rateOf (iv : UInt64) (before : List Dev) (d : Dev) : Except Halt Rate := do
  let p := counterpart before d
  let a ← perSecond iv (d.read - p.read)
  let b ← perSecond iv (d.written - p.written)
  return ⟨d.name, a, b⟩

/-- The entries `dev_rates` writes, before it sorts them. -/
def rateDevs (iv : UInt64) (now before : List Dev) : Except Halt (List Rate) :=
  now.mapM (rateOf iv before)

/-- The entry as it is where the interval is not 0. -/
def rated (iv : UInt64) (before : List Dev) (d : Dev) : Rate :=
  let p := counterpart before d
  ⟨d.name, (d.read - p.read) * 1000000 / iv, (d.written - p.written) * 1000000 / iv⟩

theorem rateOf_eq {iv : UInt64} (h : iv ≠ 0) (before : List Dev) (d : Dev) :
    rateOf iv before d = .ok (rated iv before d) := by
  simp only [rateOf, perSecond_eq h]
  rfl

theorem rateDevs_eq {iv : UInt64} (h : iv ≠ 0) (now before : List Dev) :
    rateDevs iv now before = .ok (now.map (rated iv before)) :=
  mapM_ok (rateOf_eq h before) now

/-! ## what a rate means -/

/-- The rate of a counter that went from `c0` to `c1`: the bytes a second,
rounded down, and for a counter that went back anything but the difference
that wrapped. -/
def Meaningful (iv c0 c1 rate : UInt64) : Prop :=
  (c0 ≤ c1 → rate.toNat = (c1.toNat - c0.toNat) * 1000000 / iv.toNat) ∧
    (c1 < c0 → rate.toNat ≠
      (2 ^ 64 + c1.toNat - c0.toNat) * 1000000 % 2 ^ 64 / iv.toNat)

/-- The counter did not go back, and what it counted times a million is a word. -/
def Counted (c0 c1 : UInt64) : Prop :=
  c0 ≤ c1 ∧ (c1.toNat - c0.toNat) * 1000000 < 2 ^ 64

instance (c0 c1 : UInt64) : Decidable (Counted c0 c1) := by
  unfold Counted; infer_instance

theorem toNat_scaled (c0 c1 : UInt64) : ((c1 - c0) * 1000000).toNat =
    (2 ^ 64 + c1.toNat - c0.toNat) * 1000000 % 2 ^ 64 := by
  have hlt := c0.toNat_lt
  rw [UInt64.toNat_mul, UInt64.toNat_sub, Nat.mod_mul_mod]
  congr 2
  omega

/-- A rate says what it should exactly where its counter was `Counted`. -/
theorem meaningful_iff {iv c0 c1 : UInt64} (hiv : iv ≠ 0) :
    Meaningful iv c0 c1 ((c1 - c0) * 1000000 / iv) ↔ Counted c0 c1 := by
  have hpos : 0 < iv.toNat := UInt64.lt_iff_toNat_lt.mp (UInt64.pos_iff_ne_zero.mpr hiv)
  have h1 := c1.toNat_lt
  unfold Meaningful Counted
  rw [UInt64.toNat_div, toNat_scaled]
  by_cases hle : c0 ≤ c1
  · have hle' := UInt64.le_iff_toNat_le.mp hle
    have hnlt : ¬ c1 < c0 := UInt64.not_lt.mpr hle
    simp only [hle, hnlt, true_and, true_imp_iff, false_imp_iff, and_true]
    have hsplit : (2 ^ 64 + c1.toNat - c0.toNat) * 1000000 % 2 ^ 64 =
        (c1.toNat - c0.toNat) * 1000000 % 2 ^ 64 := by omega
    rw [hsplit]
    constructor
    · intro heq
      by_contra hge
      -- the product that was cut is smaller by a word, and the interval is less than that
      have hcut : (c1.toNat - c0.toNat) * 1000000 % 2 ^ 64 + iv.toNat ≤
          (c1.toNat - c0.toNat) * 1000000 := by
        have := iv.toNat_lt
        omega
      have := Nat.div_le_div_right (c := iv.toNat) hcut
      rw [Nat.add_div_right _ hpos] at this
      omega
    · intro hlt
      rw [Nat.mod_eq_of_lt hlt]
  · have hlt : c1 < c0 := UInt64.not_le.mp hle
    simp [hle, hlt]

end Phi.Top
