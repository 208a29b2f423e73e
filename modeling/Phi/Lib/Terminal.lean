import Mathlib.Algebra.GroupWithZero.Nat
import Mathlib.Data.List.Basic

/-!
# Phi.Lib.Terminal

Text as a terminal shows it: UTF-8 characters and the colour sequences between
them, `ESC [`, digits and semicolons, `m`.

A byte that may belong to a colour sequence is invisible only once the sequence
is complete; `visible` counts it when the sequence breaks off.
-/

namespace Phi.Terminal

def esc : UInt8 := 27
def newline : UInt8 := 10

/-- The sequence that ends every colour. -/
def reset : List UInt8 := [27, 91, 48, 109]

/-- Not the first byte of a UTF-8 character. -/
def isCont (b : UInt8) : Bool := b &&& 0xc0 = 0x80

/-- A digit or a semicolon. -/
def isParam (b : UInt8) : Bool := (48 ≤ b ∧ b ≤ 57) ∨ b = 59

/-- What the bytes so far have begun. -/
inductive Mode where
  | plain
  | escape
  | params (n : Nat)
deriving DecidableEq

/-- The bytes that are invisible only if the sequence is completed. -/
def Mode.pending : Mode → Nat
  | .plain => 0
  | .escape => 1
  | .params n => n + 2

/-- The byte carries the sequence on. -/
def Mode.takes : Mode → UInt8 → Bool
  | .plain, _ => false
  | .escape, b => b = 91
  | .params _, b => b = 109 || isParam b

def Mode.next (m : Mode) (b : UInt8) : Mode :=
  if m.takes b then
    match m with
    | .plain => .plain
    | .escape => .params 0
    | .params n => if b = 109 then .plain else .params (n + 1)
  else if b = esc then .escape else .plain

/-- What is known to be visible once the byte has been read. -/
def Mode.settles (m : Mode) (b : UInt8) : Nat :=
  if m.takes b then 0 else m.pending + if b = esc ∨ isCont b then 0 else 1

/-- The number of visible characters of a text. -/
def visible (m : Mode) : List UInt8 → Nat
  | [] => m.pending
  | b :: bs => m.settles b + visible (m.next b) bs

/-- Every ESC begins a colour sequence. -/
def colored (m : Mode) : List UInt8 → Bool
  | [] => m = .plain
  | b :: bs => (m = .plain || m.takes b) && colored (m.next b) bs

/-- The text neither ends a line nor has an escape character outside a colour
sequence. -/
def Quiet (bs : List UInt8) : Prop := newline ∉ bs ∧ colored .plain bs = true

instance (bs : List UInt8) : Decidable (Quiet bs) := by unfold Quiet; infer_instance

/-- The lines that a text takes on the screen. -/
def rows (bs : List UInt8) : Nat :=
  bs.count newline + if bs = [] ∨ bs.getLast? = some newline then 0 else 1

/-- A byte that no colour sequence has in it. -/
def isStop (b : UInt8) : Bool := b ≠ esc && b ≠ 91 && b ≠ 109 && !isParam b

/-! ## one byte -/

theorem next_plain (b : UInt8) : Mode.next .plain b = if b = esc then .escape else .plain := rfl

theorem colored_plain_cons (b : UInt8) (bs : List UInt8) :
    colored .plain (b :: bs) = if b = esc then colored .escape bs else colored .plain bs := by
  rw [colored, next_plain]
  split <;> rfl

theorem visible_plain_cons (b : UInt8) (bs : List UInt8) : visible .plain (b :: bs) =
    if b = esc then visible .escape bs else visible .plain bs + if isCont b then 0 else 1 := by
  rw [visible, next_plain]
  by_cases hb : b = esc <;> simp [hb, Mode.settles, Mode.takes, Mode.pending, Nat.add_comm]

theorem visible_of_takes {m : Mode} {b : UInt8} (h : m.takes b = true) (bs : List UInt8) :
    visible m (b :: bs) = visible (m.next b) bs := by
  simp [visible, Mode.settles, h]

/-- The sequence goes on, and ends with `m`. -/
theorem next_of_takes {m : Mode} {b : UInt8} (h : m.takes b = true) :
    m ≠ .plain ∧ (m.next b = .plain ↔ b = 109) := by
  cases m with
  | plain => simp [Mode.takes] at h
  | escape =>
      have hb : b = 91 := by simpa [Mode.takes] using h
      simp [Mode.next, Mode.takes, hb]
  | params n => simp [Mode.next, h]

theorem next_end (m : Mode) : m.next 109 = .plain := by
  cases m <;> simp [Mode.next, Mode.takes, esc]

/-- What was begun and is not carried on is visible. -/
theorem lt_visible {m : Mode} {b : UInt8} (hm : m ≠ .plain) (h : m.takes b = false)
    (bs : List UInt8) : visible (m.next b) bs < visible m (b :: bs) := by
  have hpending : 0 < m.pending := by
    cases m <;> simp_all [Mode.pending]
  simp only [visible, Mode.settles, h, Bool.false_eq_true, if_false]
  omega

/-! ## a text and what follows it -/

theorem next_of_isStop {c : UInt8} (hc : isStop c = true) (m : Mode) :
    m.takes c = false ∧ m.next c = .plain := by
  simp only [isStop, Bool.and_eq_true, decide_eq_true_eq, Bool.not_eq_true'] at hc
  obtain ⟨⟨⟨hesc, hopen⟩, hend⟩, hparam⟩ := hc
  have htakes : m.takes c = false := by cases m <;> simp [Mode.takes, hopen, hend, hparam]
  simp [Mode.next, htakes, hesc]

theorem colored_append {m : Mode} {xs : List UInt8} (h : colored m xs = true) (ys : List UInt8) :
    colored m (xs ++ ys) = colored .plain ys := by
  induction xs generalizing m with
  | nil => simp_all [colored]
  | cons x xs ih =>
      simp only [colored, Bool.and_eq_true] at h
      simp [colored, h.1, ih h.2]

/-- Nothing that a text begins is carried on past a stop. -/
theorem colored_append_stop {c : UInt8} (hc : isStop c = true) (m : Mode) (xs ys : List UInt8) :
    colored m (xs ++ c :: ys) = (colored m xs && colored .plain ys) := by
  induction xs generalizing m with
  | nil => simp [colored, next_of_isStop hc]
  | cons x xs ih => simp [colored, ih, Bool.and_assoc]

theorem quiet_nil : Quiet [] := by decide

theorem Quiet.append_iff {xs : List UInt8} (h : Quiet xs) (ys : List UInt8) :
    Quiet (xs ++ ys) ↔ Quiet ys := by
  simp [Quiet, h.1, colored_append h.2]

theorem quiet_append_stop {c : UInt8} (hc : isStop c = true) (hn : c ≠ newline)
    (xs ys : List UInt8) : Quiet (xs ++ c :: ys) ↔ Quiet xs ∧ Quiet ys := by
  simp only [Quiet, List.mem_append, List.mem_cons, colored_append_stop hc, Bool.and_eq_true,
    Ne.symm hn, false_or]
  tauto

/-! ## visible characters -/

/-- An ESC breaks off whatever was begun. -/
theorem visible_append_esc (m : Mode) (xs ys : List UInt8) :
    visible m (xs ++ esc :: ys) = visible m xs + visible .escape ys := by
  induction xs generalizing m with
  | nil => cases m <;> simp [visible, Mode.settles, Mode.next, Mode.takes, esc, isParam]
  | cons x xs ih => simp [visible, ih, Nat.add_assoc]

theorem visible_reset (m : Mode) (xs : List UInt8) : visible m (xs ++ reset) = visible m xs := by
  have h : visible .escape [91, 48, 109] = 0 := by decide
  have hr := visible_append_esc m xs [91, 48, 109]
  rwa [h] at hr

/-! ## texts in a line -/

theorem colored_of_not_mem {bs : List UInt8} (h : esc ∉ bs) : colored .plain bs = true := by
  induction bs with
  | nil => rfl
  | cons b bs ih =>
      rw [List.mem_cons, not_or] at h
      rw [colored_plain_cons, if_neg (Ne.symm h.1), ih h.2]

/-- Bytes none of which is a control character are quiet. -/
theorem quiet_of_le {bs : List UInt8} (h : ∀ b ∈ bs, 32 ≤ b) : Quiet bs :=
  ⟨fun hn => absurd (h _ hn) (by decide), colored_of_not_mem fun he => absurd (h _ he) (by decide)⟩

theorem colored_params {n : Nat} {ps : List UInt8} (h : ∀ p ∈ ps, isParam p = true) :
    colored (.params n) (ps ++ [109]) = true := by
  induction ps generalizing n with
  | nil => simp [colored, Mode.takes, Mode.next]
  | cons p ps ih =>
      obtain ⟨hp, hps⟩ := List.forall_mem_cons.1 h
      have hne : p ≠ 109 := by
        rintro rfl
        cases hp
      simp [colored, Mode.takes, Mode.next, hp, hne, ih hps]

/-- A colour sequence. -/
theorem quiet_sequence {ps : List UInt8} (h : ∀ p ∈ ps, isParam p = true) :
    Quiet (27 :: 91 :: (ps ++ [109])) := by
  have hnew : newline ∉ ps := fun hp => by cases h _ hp
  constructor
  · simpa [newline] using hnew
  · have hall : colored (.params 0) (ps ++ [109]) = true := colored_params h
    rw [colored_plain_cons, if_pos (show (27 : UInt8) = esc from rfl), colored]
    simpa [Mode.takes, Mode.next] using hall

/-- `bs` has at most `n` bytes, and is quiet where the texts that stand in it are. -/
structure Shows (n : Nat) (ts : List (List UInt8)) (bs : List UInt8) : Prop where
  length : bs.length ≤ n
  quiet : Quiet bs ↔ ∀ t ∈ ts, Quiet t

section shows

variable {m n : Nat} {us ts : List (List UInt8)} {xs ys : List UInt8}

theorem shows_of_quiet (hn : xs.length ≤ n) (h : Quiet xs) : Shows n [] xs :=
  ⟨hn, by simp [h]⟩

theorem shows_text (hn : xs.length ≤ n) : Shows n [xs] xs :=
  ⟨hn, by simp⟩

theorem Shows.mono (h : Shows m ts xs) (hmn : m ≤ n) : Shows n ts xs :=
  ⟨Nat.le_trans h.length hmn, h.quiet⟩

theorem Shows.append (hx : Shows m [] xs) (hy : Shows n ts ys) : Shows (m + n) ts (xs ++ ys) where
  length := by
    rw [List.length_append]
    exact Nat.add_le_add hx.length hy.length
  quiet := by
    have hquiet : Quiet xs := hx.quiet.2 nofun
    rw [hquiet.append_iff, hy.quiet]

/-- What follows a text begins with a stop. -/
theorem Shows.append_stop {c : UInt8} (hx : Shows m us xs) (hy : Shows n ts (c :: ys))
    (hc : isStop c = true ∧ c ≠ newline) : Shows (m + n) (us ++ ts) (xs ++ c :: ys) where
  length := by
    rw [List.length_append]
    exact Nat.add_le_add hx.length hy.length
  quiet := by
    have hrest : Quiet (c :: ys) ↔ Quiet ys := by
      simpa [quiet_nil] using quiet_append_stop hc.1 hc.2 [] ys
    rw [quiet_append_stop hc.1 hc.2, ← hrest, hx.quiet, hy.quiet]
    simp only [List.mem_append]
    constructor
    · rintro ⟨h, h'⟩ t (ht | ht)
      · exact h t ht
      · exact h' t ht
    · exact fun h => ⟨fun t ht => h t (.inl ht), fun t ht => h t (.inr ht)⟩

theorem shows_flatMap {α : Type} {w : α → List UInt8} {as : List α}
    (h : ∀ a ∈ as, Shows n [] (w a)) : Shows (as.length * n) [] (as.flatMap w) := by
  induction as with
  | nil => exact shows_of_quiet (Nat.zero_le _) quiet_nil
  | cons a as ih =>
      obtain ⟨ha, has⟩ := List.forall_mem_cons.1 h
      rw [List.flatMap_cons, List.length_cons, Nat.succ_mul, Nat.add_comm]
      exact ha.append (ih has)

/-- Entries that begin with a stop and carry one text each. -/
theorem shows_entries {α : Type} {w t : α → List UInt8} {c : UInt8} {as : List α}
    (h : ∀ a ∈ as, Shows n [t a] (c :: w a)) (hc : isStop c = true ∧ c ≠ newline) :
    Shows (as.length * n) (as.map t) (as.flatMap fun a => c :: w a) := by
  induction as with
  | nil => exact shows_of_quiet (Nat.zero_le _) quiet_nil
  | cons a as ih =>
      obtain ⟨ha, has⟩ := List.forall_mem_cons.1 h
      have hrest := ih has
      rw [List.length_cons, Nat.succ_mul, Nat.add_comm]
      cases as with
      | nil => simpa using ha
      | cons b as => exact ha.append_stop hrest hc

end shows

end Phi.Terminal
