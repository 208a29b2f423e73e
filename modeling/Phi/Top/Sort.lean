import Phi.Lib.Bytes
import Phi.Lib.Circular
import Phi.Top.Rates

/-!
# Phi.Top.Sort

The rate table and its sort (`dev_rates` and `rate_name_cmp` of `model.S`).

The table lies in memory, an entry every `rateSize` bytes, and memory goes on
behind it.  `dev_rates` writes an entry for every device and then sorts them by
insertion, with its two indices in r10 and r11.  `rate_name_cmp` uses both: it
leaves in r10 the address where it stopped in the right name, and in r11 the
last byte it read there.  So after the first comparison that finds its entries
in order the sort ends, and after one that does not it goes on with the entry
whose number is a byte of a name, one less.

`devRates_good_iff` says when the table is right all the same.
-/

namespace Phi.Top

open Circular

/-! ## memory -/

/-- Memory, and what was stored: the first byte and the length of each store. -/
structure Mem where
  bytes : Nat → UInt8
  wrote : List (Nat × Nat)

namespace Mem

def load (m : Mem) (a n : Nat) : List UInt8 := Circular.read m.bytes a n

def store (m : Mem) (a : Nat) (bs : List UInt8) : Mem :=
  ⟨write m.bytes a bs, m.wrote ++ [(a, bs.length)]⟩

/-- The 32-bit word at an address. -/
def u32 (m : Mem) (a : Nat) : UInt32 := UInt32.ofNat (ofLe (m.load a 4))

def u64 (m : Mem) (a : Nat) : UInt64 := UInt64.ofNat (ofLe (m.load a 8))

end Mem

/-! ## entries -/

def rateName : Nat := 4
def rateA : Nat := 64
def rateB : Nat := 72
def rateSize : Nat := 80

/-- An entry as it is read. -/
def getRate (m : Mem) (r : Nat) : Rate :=
  ⟨m.load (r + rateName) (m.u32 r).toNat, m.u64 (r + rateA), m.u64 (r + rateB)⟩

/-- An entry written: the length of the name, its bytes and a NUL, two rates. -/
def putRate (m : Mem) (r : Nat) (e : Rate) : Mem :=
  ((((m.store r (leBytes 4 e.name.length)).store (r + rateName) e.name).store
    (r + rateName + e.name.length) [0]).store (r + rateA) (leBytes 8 e.a.toNat)).store
      (r + rateB) (leBytes 8 e.b.toNat)

/-- The first loop: the entries written from number `i` on. -/
def fillRates (out : Nat) : Nat → Mem → List Rate → Mem
  | _, m, [] => m
  | i, m, e :: es => fillRates out (i + 1) (putRate m (out + i * rateSize) e) es

/-! ## `rate_name_cmp` -/

/-- What the comparison leaves: its result and the two registers it uses. -/
structure NameCmp where
  eax : UInt32
  r10 : Nat
  r11 : Nat
deriving DecidableEq

/-- The bytes of the two names, so many of them, from `r9` and `r10` on. -/
def cmpBytes (m : Mem) (ecx edx : UInt32) : Nat → Nat → Nat → Nat → NameCmp
  | 0, _, r10, r11 => ⟨ecx - edx, r10, r11⟩
  | n + 1, r9, r10, _ =>
      let a := m.bytes r9
      let b := m.bytes r10
      if a = b then cmpBytes m ecx edx n (r9 + 1) (r10 + 1) b.toNat
      else ⟨a.toUInt32 - b.toUInt32, r10, b.toNat⟩

/-- `rate_name_cmp`: bytewise, shorter first. -/
def rateNameCmp (m : Mem) (rsi rdi r11 : Nat) : NameCmp :=
  let ecx := m.u32 rsi
  let edx := m.u32 rdi
  cmpBytes m ecx edx (min ecx.toNat edx.toNat) (rsi + rateName) (rdi + rateName) r11

/-- The entry at rsi sorts before the one at rdi: the result is negative. -/
def NameCmp.Below (c : NameCmp) : Prop := 2 ^ 31 ≤ c.eax.toNat

instance (c : NameCmp) : Decidable c.Below := by unfold NameCmp.Below; infer_instance

/-! ## the sort -/

/-- The entries at rsi and rdi exchanged, through the stack. -/
def swapRates (m : Mem) (rsi rdi : Nat) : Mem :=
  (m.store rsi (m.load rdi rateSize)).store rdi (m.load rsi rateSize)

/-- The address of entry `i`, and the one of the entry before it; addresses
are words. -/
def rateAt (out i : Nat) : Nat := (out + i * rateSize) % 2 ^ 64

def rateBefore (rsi : Nat) : Nat := (rsi + (2 ^ 64 - rateSize)) % 2 ^ 64

/-- The inner loop, from its test of r11 on: memory and r10 where it is left. -/
def insertRate (out : Nat) : Nat → Mem → Nat → Nat → Option (Mem × Nat)
  | 0, _, _, _ => none
  | k + 1, m, r10, r11 =>
      if r11 = 0 then some (m, r10)
      else
        let rsi := rateAt out r11
        let rdi := rateBefore rsi
        let c := rateNameCmp m rsi rdi r11
        if c.Below then
          insertRate out k (swapRates m rsi rdi) c.r10 ((c.r11 + (2 ^ 64 - 1)) % 2 ^ 64)
        else some (m, c.r10)

/-- The outer loop, from its test of r10 on. -/
def sortRates (out n : Nat) : Nat → Mem → Nat → Option Mem
  | 0, _, _ => none
  | k + 1, m, r10 =>
      if n ≤ r10 then some m
      else do
        let (m, r10) ← insertRate out k m r10 r10
        sortRates out n k m ((r10 + 1) % 2 ^ 64)

/-- `dev_rates`, for so many turns of its loops: the count and memory. -/
def devRates (k out : Nat) (iv : UInt64) (now before : List Dev) (m : Mem) :
    Option (Nat × Mem) :=
  match rateDevs iv now before with
  | .error _ => none
  | .ok es => (sortRates out now.length k (fillRates out 0 m es) 1).map fun m => (now.length, m)

/-! ## what is read back -/

section reading

variable {m m' : Mem} {a n r i : Nat} {bs : List UInt8} {e : Rate}

theorem load_store (m : Mem) (a : Nat) (bs : List UInt8) :
    (m.store a bs).load a bs.length = bs :=
  read_write _ _ _

/-- A store leaves what lies before or behind it. -/
theorem load_store_of_disjoint {b : Nat} (h : a + n ≤ b ∨ b + bs.length ≤ a) :
    (m.store b bs).load a n = m.load a n :=
  read_congr fun k hk => write_of_not_mem _ (by omega)

/-- The same bytes, elsewhere. -/
theorem load_congr {a' : Nat} (h : ∀ k < n, m'.bytes (a' + k) = m.bytes (a + k)) :
    m'.load a' n = m.load a n :=
  List.map_congr_left fun k hk => h k (List.mem_range.mp hk)

@[simp] theorem length_load (m : Mem) (a n : Nat) : (m.load a n).length = n := length_read _ _ _

/-- The entry lies at the address. -/
structure HasRate (m : Mem) (r : Nat) (e : Rate) : Prop where
  short : e.name.length < devNameCap
  len : m.load r 4 = leBytes 4 e.name.length
  name : m.load (r + rateName) e.name.length = e.name
  a : m.load (r + rateA) 8 = leBytes 8 e.a.toNat
  b : m.load (r + rateB) 8 = leBytes 8 e.b.toNat

theorem HasRate.u32 (h : HasRate m r e) : (m.u32 r).toNat = e.name.length := by
  have hs := h.short
  have hcap : devNameCap = 60 := rfl
  rw [Mem.u32, h.len, ofLe_leBytes (by omega), UInt32.toNat_ofNat', Nat.mod_eq_of_lt (by omega)]

theorem HasRate.get (h : HasRate m r e) : getRate m r = e := by
  have ha : m.u64 (r + rateA) = e.a := by
    rw [Mem.u64, h.a, ofLe_leBytes e.a.toNat_lt, UInt64.ofNat_toNat]
  have hb : m.u64 (r + rateB) = e.b := by
    rw [Mem.u64, h.b, ofLe_leBytes e.b.toNat_lt, UInt64.ofNat_toNat]
  rw [getRate, h.u32, h.name, ha, hb]

/-- An entry is its bytes. -/
theorem HasRate.move {r' : Nat} (h : HasRate m r e)
    (hb : ∀ k < rateSize, m'.bytes (r' + k) = m.bytes (r + k)) : HasRate m' r' e := by
  have hs := h.short
  have hcap : devNameCap = 60 := rfl
  have piece : ∀ d n, d + n ≤ 80 → m'.load (r' + d) n = m.load (r + d) n := by
    intro d n hd
    refine load_congr fun k hk => ?_
    rw [Nat.add_assoc, Nat.add_assoc]
    exact hb _ (by change _ < 80; omega)
  refine ⟨h.short, ?_, ?_, ?_, ?_⟩
  · exact (piece 0 4 (by omega)).trans h.len
  · exact (piece 4 _ (by omega)).trans h.name
  · exact (piece 64 8 (by omega)).trans h.a
  · exact (piece 72 8 (by omega)).trans h.b

theorem hasRate_put (m : Mem) (r : Nat) (hs : e.name.length < devNameCap) :
    HasRate (putRate m r e) r e := by
  have hcap : devNameCap = 60 := rfl
  have hn : rateName = 4 := rfl
  have ha : rateA = 64 := rfl
  have hb : rateB = 72 := rfl
  refine ⟨hs, ?_, ?_, ?_, ?_⟩
  · have h4 : (leBytes 4 e.name.length).length = 4 := length_leBytes 4 _
    rw [putRate, load_store_of_disjoint (by omega), load_store_of_disjoint (by omega),
      load_store_of_disjoint (by omega), load_store_of_disjoint (by omega)]
    nth_rewrite 1 [← h4]
    exact load_store _ _ _
  · rw [putRate, load_store_of_disjoint (by omega), load_store_of_disjoint (by omega),
      load_store_of_disjoint (by omega), load_store]
  · have h8 : (leBytes 8 e.a.toNat).length = 8 := length_leBytes 8 _
    rw [putRate, load_store_of_disjoint (by omega)]
    nth_rewrite 1 [← h8]
    exact load_store _ _ _
  · have h8 : (leBytes 8 e.b.toNat).length = 8 := length_leBytes 8 _
    rw [putRate]
    nth_rewrite 1 [← h8]
    exact load_store _ _ _

/-- Bytes outside the entry stay. -/
theorem putRate_bytes (m : Mem) (hs : e.name.length < devNameCap)
    (h : a < r ∨ r + rateSize ≤ a) : (putRate m r e).bytes a = m.bytes a := by
  have hcap : devNameCap = 60 := rfl
  have hn : rateName = 4 := rfl
  have ha : rateA = 64 := rfl
  have hb : rateB = 72 := rfl
  have hsz : rateSize = 80 := rfl
  have h4 : (leBytes 4 e.name.length).length = 4 := length_leBytes 4 _
  have h8 : (leBytes 8 e.a.toNat).length = 8 := length_leBytes 8 _
  have h8' : (leBytes 8 e.b.toNat).length = 8 := length_leBytes 8 _
  simp only [putRate, Mem.store]
  rw [write_of_not_mem _ (by omega), write_of_not_mem _ (by omega),
    write_of_not_mem _ (by simp only [List.length_singleton]; omega),
    write_of_not_mem _ (by omega), write_of_not_mem _ (by omega)]

end reading

/-- The entries lie one behind the other. -/
def Laid (m : Mem) (out : Nat) (es : List Rate) : Prop :=
  ∀ j (h : j < es.length), HasRate m (out + j * rateSize) es[j]

theorem Laid.first {m : Mem} {out : Nat} {e0 : Rate} {es : List Rate} (h : Laid m out (e0 :: es)) :
    HasRate m out e0 := by
  have := h 0 (Nat.succ_pos _)
  rw [Nat.zero_mul, Nat.add_zero] at this
  exact this

theorem Laid.second {m : Mem} {out : Nat} {e0 e1 : Rate} {es : List Rate}
    (h : Laid m out (e0 :: e1 :: es)) : HasRate m (out + 80) e1 := by
  have := h 1 (Nat.succ_lt_succ (Nat.succ_pos _))
  rw [Nat.one_mul] at this
  exact this

section filling

variable {m : Mem} {out i j a : Nat} {es : List Rate} {e : Rate}

/-- Every name is short enough for its field. -/
def Short (es : List Rate) : Prop := ∀ e ∈ es, e.name.length < devNameCap

/-- What is written lies in the entries. -/
theorem putRate_wrote (m : Mem) (r : Nat) (hs : e.name.length < devNameCap) :
    ∀ w ∈ (putRate m r e).wrote, w ∈ m.wrote ∨ r ≤ w.1 ∧ w.1 + w.2 ≤ r + rateSize := by
  have hcap : devNameCap = 60 := rfl
  have hn : rateName = 4 := rfl
  have ha : rateA = 64 := rfl
  have hb : rateB = 72 := rfl
  have hsz : rateSize = 80 := rfl
  have h4 : (leBytes 4 e.name.length).length = 4 := length_leBytes 4 _
  have h8 : (leBytes 8 e.a.toNat).length = 8 := length_leBytes 8 _
  have h8' : (leBytes 8 e.b.toNat).length = 8 := length_leBytes 8 _
  intro w hw
  simp only [putRate, Mem.store, List.mem_append, List.mem_singleton] at hw
  rcases hw with ((((h | rfl) | rfl) | rfl) | rfl) | rfl
  · exact .inl h
  all_goals
    right
    simp only [List.length_singleton]
    omega

theorem fillRates_wrote (hs : Short es) : ∀ w ∈ (fillRates out i m es).wrote,
    w ∈ m.wrote ∨ out + i * rateSize ≤ w.1 ∧ w.1 + w.2 ≤ out + (i + es.length) * rateSize := by
  have hsz : rateSize = 80 := rfl
  induction es generalizing i m with
  | nil => exact fun w hw => .inl hw
  | cons e es ih =>
      intro w hw
      rw [List.length_cons]
      rcases ih (fun x hx => hs x (List.mem_cons_of_mem e hx)) w hw with h | h
      · rcases putRate_wrote m _ (hs e List.mem_cons_self) w h with h | h
        · exact .inl h
        · rw [hsz] at h ⊢
          right; omega
      · rw [hsz] at h ⊢
        right; omega

/-- Bytes outside the entries stay. -/
theorem fillRates_bytes (hs : Short es)
    (h : a < out + i * rateSize ∨ out + (i + es.length) * rateSize ≤ a) :
    (fillRates out i m es).bytes a = m.bytes a := by
  have hsz : rateSize = 80 := rfl
  induction es generalizing i m with
  | nil => rfl
  | cons e es ih =>
      rw [List.length_cons, hsz] at h
      rw [fillRates, ih (fun x hx => hs x (List.mem_cons_of_mem e hx)) (by rw [hsz]; omega),
        putRate_bytes m (hs e List.mem_cons_self) (by rw [hsz]; omega)]

theorem fillRates_has (out i : Nat) (m : Mem) (hs : Short es) (hj : j < es.length) :
    HasRate (fillRates out i m es) (out + (i + j) * rateSize) es[j] := by
  have hsz : rateSize = 80 := rfl
  induction es generalizing i j m with
  | nil => cases hj
  | cons e es ih =>
      have hs' : Short es := fun x hx => hs x (List.mem_cons_of_mem e hx)
      cases j with
      | zero =>
          refine (hasRate_put m (out + i * rateSize) (hs e List.mem_cons_self)).move fun k hk => ?_
          exact fillRates_bytes hs' (.inl (by rw [hsz] at hk ⊢; omega))
      | succ j =>
          have := ih (i + 1) (putRate m (out + i * rateSize) e) hs' (Nat.lt_of_succ_lt_succ hj)
          rw [Nat.succ_add_eq_add_succ] at this
          exact this

end filling

section swapping

variable {m : Mem} {rsi rdi r a : Nat} {x y e : Rate}

theorem swapRates_bytes (h : (a < rsi ∨ rsi + rateSize ≤ a) ∧ (a < rdi ∨ rdi + rateSize ≤ a)) :
    (swapRates m rsi rdi).bytes a = m.bytes a := by
  simp only [swapRates, Mem.store]
  rw [write_of_not_mem _ (by simp only [length_load]; exact h.2),
    write_of_not_mem _ (by simp only [length_load]; exact h.1)]

theorem hasRate_swap (hx : HasRate m rsi x) (hy : HasRate m rdi y)
    (h : rdi + rateSize ≤ rsi) :
    HasRate (swapRates m rsi rdi) rsi y ∧ HasRate (swapRates m rsi rdi) rdi x := by
  have cell : ∀ (f : Nat → UInt8) (b a k : Nat), k < rateSize →
      write f b (m.load a rateSize) (b + k) = m.bytes (a + k) := by
    intro f b a k hk
    rw [write_of_mem _ (by rwa [length_load])]
    simp [Mem.load, Circular.read]
  refine ⟨hy.move fun k hk => ?_, hx.move fun k hk => ?_⟩
  · simp only [swapRates, Mem.store]
    rw [write_of_not_mem _ (by simp only [length_load]; omega)]
    exact cell _ _ _ k hk
  · simp only [swapRates, Mem.store]
    exact cell _ _ _ k hk

theorem HasRate.swap_other (he : HasRate m r e) (h1 : r + rateSize ≤ rsi ∨ rsi + rateSize ≤ r)
    (h2 : r + rateSize ≤ rdi ∨ rdi + rateSize ≤ r) : HasRate (swapRates m rsi rdi) r e :=
  he.move fun k hk => swapRates_bytes (by omega)

end swapping

/-! ## the comparison of two names -/

/-- The last byte of the second name that is read, if one is. -/
def lastRead : List UInt8 → List UInt8 → Option UInt8
  | a :: x, b :: y => some (if a = b then (lastRead x y).getD b else b)
  | _, _ => none

theorem load_succ (m : Mem) (a n : Nat) : m.load a (n + 1) = m.bytes a :: m.load (a + 1) n := by
  simp only [Mem.load, Circular.read, List.range_succ_eq_map, List.map_cons, List.map_map,
    Nat.add_zero]
  congr 1
  refine List.map_congr_left fun k _ => ?_
  simp only [Function.comp_apply]
  congr 1
  omega

theorem below_sub {a b : UInt8} (h : a ≠ b) :
    2 ^ 31 ≤ (a.toUInt32 - b.toUInt32).toNat ↔ a < b := by
  have ha := a.toNat_lt
  have hb := b.toNat_lt
  have hne : a.toNat ≠ b.toNat := fun h' => h (UInt8.toNat_inj.mp h')
  rw [UInt32.toNat_sub, UInt8.toNat_toUInt32, UInt8.toNat_toUInt32, UInt8.lt_iff_toNat_lt]
  omega

/-- Two names compared: negative exactly where the first sorts before the
second; r10 ends in the second or right behind it, r11 with the last byte read
there. -/
theorem cmpBytes_spec {m : Mem} {x y : List UInt8} {c r9 r10 : Nat} {ecx edx : UInt32}
    (r11 : Nat) (hx : m.load r9 x.length = x) (hy : m.load r10 y.length = y)
    (hecx : ecx.toNat = c + x.length) (hedx : edx.toNat = c + y.length)
    (hsx : c + x.length < 2 ^ 31) (hsy : c + y.length < 2 ^ 31) :
    ((cmpBytes m ecx edx (min x.length y.length) r9 r10 r11).Below ↔ x < y) ∧
      r10 ≤ (cmpBytes m ecx edx (min x.length y.length) r9 r10 r11).r10 ∧
      (cmpBytes m ecx edx (min x.length y.length) r9 r10 r11).r10 ≤ r10 + y.length ∧
      (cmpBytes m ecx edx (min x.length y.length) r9 r10 r11).r11 =
        ((lastRead x y).map UInt8.toNat).getD r11 := by
  induction x generalizing y c r9 r10 r11 with
  | nil =>
      rw [List.length_nil, Nat.zero_min]
      refine ⟨?_, Nat.le_refl _, by simp [cmpBytes], by simp [cmpBytes, lastRead]⟩
      simp only [cmpBytes, NameCmp.Below, UInt32.toNat_sub, hecx, hedx, List.length_nil]
      cases y with
      | nil =>
          simp only [List.length_nil, List.not_lt_nil, iff_false]
          omega
      | cons b y =>
          simp only [List.length_cons] at hsy ⊢
          have : ([] : List UInt8) < b :: y := List.nil_lt_cons b y
          simp only [this, iff_true]
          omega
  | cons a x ih =>
      cases y with
      | nil =>
          rw [List.length_nil, Nat.min_zero]
          refine ⟨?_, Nat.le_refl _, by simp [cmpBytes], by simp [cmpBytes, lastRead]⟩
          simp only [cmpBytes, NameCmp.Below, UInt32.toNat_sub, hecx, hedx, List.length_nil,
            List.length_cons] at hsx ⊢
          simp only [List.not_lt_nil, iff_false]
          omega
      | cons b y =>
          rw [List.length_cons, load_succ, List.cons.injEq] at hx hy
          obtain ⟨ha, hx⟩ := hx
          obtain ⟨hb, hy⟩ := hy
          rw [List.length_cons, List.length_cons, Nat.succ_min_succ, cmpBytes]
          simp only [ha, hb, lastRead, Option.map_some, Option.getD_some, List.cons_lt_cons_iff]
          by_cases hab : a = b
          · subst hab
            simp only [if_true, UInt8.lt_irrefl, false_or, true_and]
            simp only [List.length_cons] at hecx hedx hsx hsy
            obtain ⟨h1, h2, h3, h4⟩ := ih (c := c + 1) a.toNat hx hy (by omega) (by omega)
              (by omega) (by omega)
            refine ⟨h1, by omega, by omega, ?_⟩
            rw [h4]
            cases lastRead x y <;> rfl
          · simp only [hab, false_and, or_false, if_false]
            exact ⟨below_sub hab, Nat.le_refl _, by simp, trivial⟩

theorem rateNameCmp_spec {m : Mem} {rsi rdi : Nat} {x y : Rate} (r11 : Nat)
    (hx : HasRate m rsi x) (hy : HasRate m rdi y) :
    ((rateNameCmp m rsi rdi r11).Below ↔ x.name < y.name) ∧
      rdi ≤ (rateNameCmp m rsi rdi r11).r10 ∧
      (rateNameCmp m rsi rdi r11).r10 ≤ rdi + rateSize ∧
      (rateNameCmp m rsi rdi r11).r11 = ((lastRead x.name y.name).map UInt8.toNat).getD r11 := by
  have hcap : devNameCap = 60 := rfl
  have hn : rateName = 4 := rfl
  have hsz : rateSize = 80 := rfl
  have hsx := hx.short
  have hsy := hy.short
  have hecx : (m.u32 rsi).toNat = 0 + x.name.length := by rw [hx.u32]; omega
  have hedx : (m.u32 rdi).toNat = 0 + y.name.length := by rw [hy.u32]; omega
  have h := cmpBytes_spec r11 hx.name hy.name hecx hedx (by omega) (by omega)
  rw [rateNameCmp, hx.u32, hy.u32]
  exact ⟨h.1, by omega, by omega, h.2.2.2⟩

/-- The right name is read from its start on. -/
theorem cmpBytes_r10 (m : Mem) (ecx edx : UInt32) (n r9 r10 r11 : Nat) :
    r10 ≤ (cmpBytes m ecx edx n r9 r10 r11).r10 ∧
      (cmpBytes m ecx edx n r9 r10 r11).r10 ≤ r10 + n := by
  induction n generalizing r9 r10 r11 with
  | zero => exact ⟨Nat.le_refl _, Nat.le_refl _⟩
  | succ n ih =>
      rw [cmpBytes]
      split
      · have := ih (r9 + 1) (r10 + 1) (m.bytes r10).toNat
        omega
      · exact ⟨Nat.le_refl _, by simp⟩

theorem rateNameCmp_r10 (m : Mem) (rsi rdi r11 : Nat) :
    rdi ≤ (rateNameCmp m rsi rdi r11).r10 ∧
      (rateNameCmp m rsi rdi r11).r10 ≤ rdi + rateName + 2 ^ 32 := by
  have h := cmpBytes_r10 m (m.u32 rsi) (m.u32 rdi) (min (m.u32 rsi).toNat (m.u32 rdi).toNat)
    (rsi + rateName) (rdi + rateName) r11
  have := (m.u32 rsi).toNat_lt
  rw [rateNameCmp]
  omega

/-- A comparison reads from its two entries on. -/
theorem cmpBytes_congr {m m' : Mem} {lo : Nat} (h : ∀ a, lo ≤ a → m'.bytes a = m.bytes a)
    (ecx edx : UInt32) (n : Nat) {r9 r10 : Nat} (h9 : lo ≤ r9) (h10 : lo ≤ r10) (r11 : Nat) :
    cmpBytes m' ecx edx n r9 r10 r11 = cmpBytes m ecx edx n r9 r10 r11 := by
  induction n generalizing r9 r10 r11 with
  | zero => rfl
  | succ n ih =>
      simp only [cmpBytes, h r9 h9, h r10 h10]
      split
      · exact ih (by omega) (by omega) _
      · rfl

theorem rateNameCmp_congr {m m' : Mem} {lo rsi rdi : Nat}
    (h : ∀ a, lo ≤ a → m'.bytes a = m.bytes a) (hsi : lo ≤ rsi) (hdi : lo ≤ rdi) (r11 : Nat) :
    rateNameCmp m' rsi rdi r11 = rateNameCmp m rsi rdi r11 := by
  have hu : ∀ r, lo ≤ r → m'.u32 r = m.u32 r := by
    intro r hr
    rw [Mem.u32, Mem.u32, load_congr fun k _ => h (r + k) (by omega)]
  rw [rateNameCmp, rateNameCmp, hu rsi hsi, hu rdi hdi]
  exact cmpBytes_congr h _ _ _ (by omega) (by omega) _

/-! ## runs of the sort -/

/-- Where the table lies: above the first page, below the kernel. -/
structure RateTable where
  out : Nat
  low : 4096 ≤ out
  high : out < 2 ^ 47

section running

variable {T : RateTable} {m m' : Mem} {n k r10 r11 : Nat} {x y : Rate}

theorem insertRate_wrote {out : Nat} (h : insertRate out k m r10 r11 = some (m', n)) :
    ∀ w ∈ m.wrote, w ∈ m'.wrote := by
  induction k generalizing m r10 r11 with
  | zero => cases h
  | succ k ih =>
      rw [insertRate] at h
      split at h
      · obtain ⟨rfl, -⟩ := Prod.mk.inj (Option.some.inj h)
        exact fun w hw => hw
      · simp only at h
        split at h
        · exact fun w hw => ih h w (by simp [swapRates, Mem.store, hw])
        · obtain ⟨rfl, -⟩ := Prod.mk.inj (Option.some.inj h)
          exact fun w hw => hw

theorem sortRates_wrote {out : Nat} (h : sortRates out n k m r10 = some m') :
    ∀ w ∈ m.wrote, w ∈ m'.wrote := by
  induction k generalizing m r10 with
  | zero => cases h
  | succ k ih =>
      rw [sortRates] at h
      split at h
      · obtain rfl := Option.some.inj h
        exact fun w hw => hw
      · obtain ⟨⟨m1, r⟩, h1, h2⟩ := Option.bind_eq_some_iff.mp h
        exact fun w hw => ih h2 w (insertRate_wrote h1 w hw)

theorem sortRates_short {out : Nat} (h : n ≤ r10) : sortRates out n (k + 1) m r10 = some m := by
  rw [sortRates, if_pos h]

theorem rateAt_eq {i : Nat} (hi : i < 256) : rateAt T.out i = T.out + i * 80 := by
  have := T.high
  change (T.out + i * 80) % 2 ^ 64 = _
  omega

theorem rateBefore_eq {i : Nat} (hi : i < 255) :
    rateBefore (rateAt T.out (i + 1)) = T.out + i * 80 := by
  have := T.high
  rw [rateAt_eq (by omega)]
  change (T.out + (i + 1) * 80 + (2 ^ 64 - 80)) % 2 ^ 64 = _
  omega

/-- An address is no index into the table: it ends the outer loop. -/
theorem le_pointer {i : Nat} (hn : n ≤ snDevCap) (h1 : T.out + i * 80 ≤ r10)
    (h2 : r10 ≤ T.out + i * 80 + rateName + 2 ^ 32) (hi : i < 256) :
    n ≤ (r10 + 1) % 2 ^ 64 := by
  have := T.high
  have := T.low
  have hcap : snDevCap = 16 := rfl
  have hname : rateName = 4 := rfl
  rw [Nat.mod_eq_of_lt (by omega)]
  omega

/-- The comparison finds its entries in order: the sort ends. -/
theorem insertRate_stops {i : Nat} (hi : i < 255)
    (hb : ¬ (rateNameCmp m (rateAt T.out (i + 1)) (rateBefore (rateAt T.out (i + 1)))
      (i + 1)).Below) (hn : n ≤ snDevCap) :
    ∃ r, insertRate T.out (k + 1) m r10 (i + 1) = some (m, r) ∧ n ≤ (r + 1) % 2 ^ 64 := by
  have h := rateNameCmp_r10 m (rateAt T.out (i + 1)) (rateBefore (rateAt T.out (i + 1))) (i + 1)
  refine ⟨(rateNameCmp m (rateAt T.out (i + 1)) (rateBefore (rateAt T.out (i + 1))) (i + 1)).r10,
    ?_, ?_⟩
  · rw [insertRate, if_neg (Nat.succ_ne_zero i)]
    simp only [if_neg hb]
  · rw [rateBefore_eq hi] at h ⊢
    exact le_pointer hn h.1 h.2 (by omega)

/-- The inner loop after its first comparison. -/
theorem insertRate_first (hx : HasRate m (T.out + 80) x) (hy : HasRate m T.out y) :
    insertRate T.out (k + 1) m 1 1 =
      if x.name < y.name then
        insertRate T.out k (swapRates m (T.out + 80) T.out)
          (rateNameCmp m (T.out + 80) T.out 1).r10
          ((((lastRead x.name y.name).map UInt8.toNat).getD 1 + (2 ^ 64 - 1)) % 2 ^ 64)
      else some (m, (rateNameCmp m (T.out + 80) T.out 1).r10) := by
  have hsi : rateAt T.out 1 = T.out + 80 := by rw [rateAt_eq (by omega)]
  have hdi : rateBefore (T.out + 80) = T.out := by
    have := rateBefore_eq (T := T) (i := 0) (by omega)
    rwa [Nat.zero_add, hsi, Nat.zero_mul, Nat.add_zero] at this
  obtain ⟨h1, -, -, h4⟩ := rateNameCmp_spec 1 hx hy
  rw [insertRate, if_neg Nat.one_ne_zero]
  simp only [hsi, hdi, h1, h4]

end running

/-! ## when the table is right -/

/-- A device table of a sample. -/
structure DevTable where
  devs : List Dev
  fits : devs.length ≤ snDevCap

/-- An interval: it is not 0. -/
structure Interval where
  us : UInt64
  pos : us ≠ 0

/-- Sorted by name, bytewise, shorter first. -/
def Ordered (es : List Rate) : Prop := es.Pairwise fun a b => ¬ b.name < a.name

/-- `dev_rates` returns; the table has one entry for each device of the current
table, with its name and its rates, in the order of the names; and nothing is
written outside it. -/
def DevRatesGood (T : RateTable) (iv : Interval) (now before : DevTable) (bytes : Nat → UInt8) :
    Prop :=
  ∃ k m', devRates k T.out iv.us now.devs before.devs ⟨bytes, []⟩ = some (now.devs.length, m') ∧
    (∃ es, es.Perm (now.devs.map (rated iv.us before.devs)) ∧ Ordered es ∧
      ∀ j (h : j < es.length), getRate m' (T.out + j * rateSize) = es[j]) ∧
    ∀ w ∈ m'.wrote, T.out ≤ w.1 ∧ w.1 + w.2 ≤ T.out + snDevCap * rateSize

/-- The devices are in the order of their names. -/
def NamesOrdered (ds : List Dev) : Prop := ds.Pairwise fun a b => ¬ b.name < a.name

/-- After the first two entries were exchanged the sort goes on with the entry
whose number is a byte of a name, one less.  It ends there if there was no such
byte, or if that entry and the one before it, both behind the table, are in
order. -/
def Settles (T : RateTable) (bytes : Nat → UInt8) (x y : List UInt8) : Prop :=
  ∀ b, lastRead x y = some b → snDevCap + 2 ≤ b.toNat ∧
    ¬ (rateNameCmp ⟨bytes, []⟩ (rateAt T.out (b.toNat - 1))
      (rateBefore (rateAt T.out (b.toNat - 1))) (b.toNat - 1)).Below

/-- There is nothing to sort, the devices come in order, or only the first two
are out of order and the sort ends after them. -/
def SortsRight (T : RateTable) (bytes : Nat → UInt8) : List Dev → Prop
  | [] | [_] => True
  | d0 :: d1 :: ds =>
      if d1.name < d0.name then NamesOrdered (d1 :: d0 :: ds) ∧ Settles T bytes d1.name d0.name
      else NamesOrdered (d0 :: d1 :: ds)

/-- No name has a control character up to the number of the table's entries. -/
def Plain (ds : List Dev) : Prop := ∀ d ∈ ds, ∀ c ∈ d.name, snDevCap + 2 ≤ c.toNat

/-- The last byte read is one of the second name. -/
theorem mem_of_lastRead {x y : List UInt8} {b : UInt8} (h : lastRead x y = some b) : b ∈ y := by
  induction x generalizing y b with
  | nil => cases h
  | cons a x ih =>
      cases y with
      | nil => cases h
      | cons c y =>
          rw [lastRead] at h
          obtain rfl := Option.some.inj h
          split
          · cases hl : lastRead x y with
            | none => exact List.mem_cons_self
            | some d => exact List.mem_cons_of_mem c (ih hl)
          · exact List.mem_cons_self

section

variable {T : RateTable} {iv : Interval} {now before : DevTable} {bytes : Nat → UInt8}

/-- The entries of the current table, and memory after they were written. -/
def entries (iv : Interval) (now before : DevTable) : List Rate :=
  now.devs.map (rated iv.us before.devs)

theorem devRates_eq (k : Nat) (m : Mem) :
    devRates k T.out iv.us now.devs before.devs m =
      (sortRates T.out now.devs.length k (fillRates T.out 0 m (entries iv now before)) 1).map
        fun m => (now.devs.length, m) := by
  rw [devRates, rateDevs_eq iv.pos]
  rfl

theorem short_entries (iv : Interval) (now before : DevTable) : Short (entries iv now before) := by
  intro e he
  obtain ⟨d, -, rfl⟩ := List.mem_map.mp he
  exact d.fits

theorem length_entries (iv : Interval) (now before : DevTable) :
    (entries iv now before).length = now.devs.length := by
  simp [entries]

theorem ordered_map (ds : List Dev) : Ordered (ds.map (rated iv.us before.devs)) ↔
    NamesOrdered ds := by
  rw [Ordered, List.pairwise_map]
  rfl

/-- The sort of two entries or more: its first comparison. -/
theorem sortRates_two {m : Mem} {n k : Nat} {x y : Rate} (hx : HasRate m (T.out + 80) x)
    (hy : HasRate m T.out y) (h2 : 2 ≤ n) (hn : n ≤ snDevCap) :
    ∃ r, n ≤ (r + 1) % 2 ^ 64 ∧ sortRates T.out n (k + 2) m 1 =
      if x.name < y.name then
        (insertRate T.out k (swapRates m (T.out + 80) T.out) r
          ((((lastRead x.name y.name).map UInt8.toNat).getD 1 + (2 ^ 64 - 1)) % 2 ^ 64)).bind
            fun z => sortRates T.out n (k + 1) z.1 ((z.2 + 1) % 2 ^ 64)
      else some m := by
  have hr := rateNameCmp_r10 m (T.out + 80) T.out 1
  have hle := le_pointer (T := T) (i := 0) hn (by simpa using hr.1) (by simpa using hr.2) (by omega)
  refine ⟨_, hle, ?_⟩
  rw [sortRates, if_neg (by omega), insertRate_first hx hy]
  split
  · rfl
  · exact sortRates_short hle

/-- Where it settles the inner loop ends at its next test or comparison. -/
theorem Settles.stops {x y : List UInt8} (hs : Settles T bytes x y) {m : Mem} {n r10 : Nat}
    (k : Nat) (hm : ∀ a, T.out + snDevCap * rateSize ≤ a → m.bytes a = bytes a) (hn : n ≤ snDevCap)
    (hr : n ≤ (r10 + 1) % 2 ^ 64) :
    ∃ r, insertRate T.out (k + 1) m r10
        ((((lastRead x y).map UInt8.toNat).getD 1 + (2 ^ 64 - 1)) % 2 ^ 64) = some (m, r) ∧
      n ≤ (r + 1) % 2 ^ 64 := by
  have hcap : snDevCap = 16 := rfl
  have htop : T.out + snDevCap * rateSize = T.out + 1280 := rfl
  rw [htop] at hm
  cases hl : lastRead x y with
  | none => exact ⟨r10, rfl, hr⟩
  | some b =>
      obtain ⟨hb, hbelow⟩ := hs b hl
      have hlt := b.toNat_lt
      obtain ⟨i, hi⟩ : ∃ i, b.toNat = i + 2 := ⟨b.toNat - 2, by omega⟩
      have hdec : (i + 2 + (2 ^ 64 - 1)) % 2 ^ 64 = i + 1 := by omega
      have hsub : i + 2 - 1 = i + 1 := by omega
      rw [hi, hsub] at hbelow
      simp only [Option.map_some, Option.getD_some, hi, hdec]
      have hsi := rateAt_eq (T := T) (i := i + 1) (by omega)
      have hdi := rateBefore_eq (T := T) (i := i) (by omega)
      refine insertRate_stops (by omega) ?_ hn
      rwa [rateNameCmp_congr (m := ⟨bytes, []⟩) hm (by rw [hsi]; omega : T.out + 1280 ≤ _)
        (by rw [hdi]; omega)]

/-- Where it does not settle, at a byte that is no number of the table, the
sort writes behind the table. -/
theorem insertRate_outside {m m' : Mem} {k i r10 r : Nat}
    (h : insertRate T.out k m r10 (i + 1) = some (m', r)) (hi : i < 255)
    (hb : (rateNameCmp m (rateAt T.out (i + 1)) (rateBefore (rateAt T.out (i + 1)))
      (i + 1)).Below) : (T.out + (i + 1) * 80, 80) ∈ m'.wrote := by
  cases k with
  | zero => cases h
  | succ k =>
      rw [insertRate, if_neg (Nat.succ_ne_zero i)] at h
      simp only [if_pos hb] at h
      refine insertRate_wrote h _ ?_
      simp [swapRates, Mem.store, rateAt_eq (T := T) (i := i + 1) (by omega), rateSize]

/-- Memory with the entries written. -/
def filled (T : RateTable) (iv : Interval) (now before : DevTable) (bytes : Nat → UInt8) : Mem :=
  fillRates T.out 0 ⟨bytes, []⟩ (entries iv now before)

theorem filled_laid (T : RateTable) (iv : Interval) (now before : DevTable) (bytes : Nat → UInt8) :
    Laid (filled T iv now before bytes) T.out (entries iv now before) := by
  intro j hj
  have := fillRates_has T.out 0 ⟨bytes, []⟩ (short_entries iv now before) hj
  rwa [Nat.zero_add] at this

theorem filled_bytes {a : Nat} (h : T.out + snDevCap * rateSize ≤ a) :
    (filled T iv now before bytes).bytes a = bytes a := by
  have hlen := length_entries iv now before
  have hfits := now.fits
  refine fillRates_bytes (short_entries iv now before) (.inr ?_)
  have hsz : rateSize = 80 := rfl
  rw [hsz] at h ⊢
  omega

theorem filled_wrote (T : RateTable) (iv : Interval) (now before : DevTable)
    (bytes : Nat → UInt8) : ∀ w ∈ (filled T iv now before bytes).wrote,
    T.out ≤ w.1 ∧ w.1 + w.2 ≤ T.out + snDevCap * rateSize := by
  have hlen := length_entries iv now before
  have hfits := now.fits
  have hsz : rateSize = 80 := rfl
  intro w hw
  rcases fillRates_wrote (short_entries iv now before) w hw with h | h
  · cases h
  · rw [hsz] at h ⊢
    omega

/-- The table is right if the sort returns memory where the entries lie in
order, and wrote nothing else. -/
theorem devRatesGood_of {k : Nat} {m' : Mem} {es : List Rate}
    (hrun : sortRates T.out now.devs.length k (filled T iv now before bytes) 1 = some m')
    (hperm : es.Perm (entries iv now before)) (hord : Ordered es)
    (hhas : Laid m' T.out es)
    (hwrote : ∀ w ∈ m'.wrote, T.out ≤ w.1 ∧ w.1 + w.2 ≤ T.out + snDevCap * rateSize) :
    DevRatesGood T iv now before bytes := by
  refine ⟨k, m', ?_, ⟨es, hperm, hord, fun j h => (hhas j h).get⟩, hwrote⟩
  rw [devRates_eq]
  rw [filled] at hrun
  rw [hrun]
  rfl

/-- The entries that lie in a right table are in order. -/
theorem ordered_of_good {es : List Rate} {m' : Mem} (hlen : es.length = now.devs.length)
    (hhas : Laid m' T.out es)
    (hgood : ∃ es', es'.Perm (entries iv now before) ∧ Ordered es' ∧
      ∀ j (h : j < es'.length), getRate m' (T.out + j * rateSize) = es'[j]) : Ordered es := by
  obtain ⟨es', hperm, hord, hget⟩ := hgood
  have hsame : es' = es := by
    refine List.ext_getElem ?_ fun j h1 h2 => ?_
    · rw [hperm.length_eq, length_entries, hlen]
    · rw [← hget j h1, (hhas j h2).get]
  rwa [← hsame]

/-- The first two entries exchanged. -/
def swapped (T : RateTable) (m : Mem) : Mem := swapRates m (T.out + 80) T.out

theorem swapped_laid {m : Mem} {e0 e1 : Rate} {es : List Rate}
    (h : Laid m T.out (e0 :: e1 :: es)) : Laid (swapped T m) T.out (e1 :: e0 :: es) := by
  have hsz : rateSize = 80 := rfl
  obtain ⟨hs0, hs1⟩ := hasRate_swap h.second h.first (by omega)
  intro j hj
  match j, hj with
  | 0, _ => simpa [swapped] using hs1
  | 1, _ => simpa [swapped, hsz] using hs0
  | j + 2, hj =>
      refine (h (j + 2) hj).swap_other ?_ ?_
      · right; rw [hsz]; omega
      · right; rw [hsz]; omega

theorem swapped_bytes {m : Mem} {a : Nat} (h : T.out + snDevCap * rateSize ≤ a) :
    (swapped T m).bytes a = m.bytes a := by
  change T.out + 1280 ≤ a at h
  have hsz : rateSize = 80 := rfl
  exact swapRates_bytes (by rw [hsz]; omega)

theorem swapped_wrote {m : Mem}
    (h : ∀ w ∈ m.wrote, T.out ≤ w.1 ∧ w.1 + w.2 ≤ T.out + snDevCap * rateSize) :
    ∀ w ∈ (swapped T m).wrote, T.out ≤ w.1 ∧ w.1 + w.2 ≤ T.out + snDevCap * rateSize := by
  have htop : T.out + snDevCap * rateSize = T.out + 1280 := rfl
  intro w hw
  simp only [swapped, swapRates, Mem.store, List.mem_append, List.mem_singleton, length_load,
    rateSize] at hw
  rcases hw with (hw | rfl) | rfl
  · exact h w hw
  · rw [htop]; simp only; omega
  · rw [htop]; simp only; omega

end

section twoOrMore

variable {T : RateTable} {iv : Interval} {before : DevTable} {bytes : Nat → UInt8}
  {d0 d1 : Dev} {ds : List Dev} (hfits : (d0 :: d1 :: ds).length ≤ snDevCap)

/-- What the sort of two devices or more comes to. -/
theorem sort_entries (T : RateTable) (iv : Interval) (before : DevTable) (bytes : Nat → UInt8)
    (k : Nat) :
    ∃ r, (d0 :: d1 :: ds).length ≤ (r + 1) % 2 ^ 64 ∧
      sortRates T.out (d0 :: d1 :: ds).length (k + 2)
          (filled T iv ⟨d0 :: d1 :: ds, hfits⟩ before bytes) 1 =
        if d1.name < d0.name then
          (insertRate T.out k (swapped T (filled T iv ⟨d0 :: d1 :: ds, hfits⟩ before bytes)) r
            ((((lastRead d1.name d0.name).map UInt8.toNat).getD 1 + (2 ^ 64 - 1)) % 2 ^ 64)).bind
              fun z => sortRates T.out (d0 :: d1 :: ds).length (k + 1) z.1 ((z.2 + 1) % 2 ^ 64)
        else some (filled T iv ⟨d0 :: d1 :: ds, hfits⟩ before bytes) := by
  have hlaid : Laid (filled T iv ⟨d0 :: d1 :: ds, hfits⟩ before bytes) T.out
      (rated iv.us before.devs d0 :: rated iv.us before.devs d1 ::
        ds.map (rated iv.us before.devs)) := filled_laid _ _ _ _ _
  exact sortRates_two hlaid.second hlaid.first (by simp) hfits

theorem good_of_sortsRight
    (h : SortsRight T bytes (d0 :: d1 :: ds)) :
    DevRatesGood T iv ⟨d0 :: d1 :: ds, hfits⟩ before bytes := by
  obtain ⟨r, hr, hrun⟩ := sort_entries hfits T iv before bytes 1
  have hlaid := filled_laid T iv ⟨d0 :: d1 :: ds, hfits⟩ before bytes
  have hwrote := filled_wrote T iv ⟨d0 :: d1 :: ds, hfits⟩ before bytes
  rw [SortsRight] at h
  by_cases hlt : d1.name < d0.name
  · rw [if_pos hlt] at h hrun
    obtain ⟨hord, hset⟩ := h
    obtain ⟨r', hin, hr'⟩ := hset.stops
      (m := swapped T (filled T iv ⟨d0 :: d1 :: ds, hfits⟩ before bytes)) 0
      (fun a ha => (swapped_bytes ha).trans (filled_bytes ha)) hfits hr
    rw [hin, Option.bind_some, sortRates_short hr'] at hrun
    exact devRatesGood_of hrun (List.Perm.swap _ _ _) ((ordered_map (d1 :: d0 :: ds)).mpr hord)
      (swapped_laid hlaid) (swapped_wrote hwrote)
  · rw [if_neg hlt] at h hrun
    exact devRatesGood_of hrun (List.Perm.refl _) ((ordered_map _).mpr h) hlaid hwrote

/-- Names without low control characters: a sort that goes on writes behind
the table. -/
theorem sortsRight_of_good (hplain : Plain (d0 :: d1 :: ds))
    (h : DevRatesGood T iv ⟨d0 :: d1 :: ds, hfits⟩ before bytes) :
    SortsRight T bytes (d0 :: d1 :: ds) := by
  obtain ⟨k, m', hrun, hes, hwrote⟩ := h
  rw [devRates_eq] at hrun
  obtain ⟨z, hsort, hz⟩ := Option.map_eq_some_iff.mp hrun
  obtain rfl : z = m' := (Prod.mk.inj hz).2
  have hlaid := filled_laid T iv ⟨d0 :: d1 :: ds, hfits⟩ before bytes
  match k, hsort with
  | k + 2, hsort =>
      obtain ⟨r, hr, hrun'⟩ := sort_entries hfits T iv before bytes k
      rw [SortsRight]
      have hsort' := hrun'.symm.trans hsort
      by_cases hlt : d1.name < d0.name
      · rw [if_pos hlt] at hsort' ⊢
        obtain ⟨⟨m1, r1⟩, hin, hrest⟩ := Option.bind_eq_some_iff.mp hsort'
        have hset : Settles T bytes d1.name d0.name := by
          intro b hb
          have h18 := hplain d0 List.mem_cons_self b (mem_of_lastRead hb)
          refine ⟨h18, fun hbelow => ?_⟩
          have hlt' := b.toNat_lt
          have hcap : snDevCap = 16 := rfl
          obtain ⟨i, hi⟩ : ∃ i, b.toNat = i + 2 := ⟨b.toNat - 2, by omega⟩
          have hdec : (i + 2 + (2 ^ 64 - 1)) % 2 ^ 64 = i + 1 := by omega
          have hsub : i + 2 - 1 = i + 1 := by omega
          rw [hb, Option.map_some, Option.getD_some, hi, hdec] at hin
          rw [hi, hsub] at hbelow
          have hsi := rateAt_eq (T := T) (i := i + 1) (by omega)
          have hdi := rateBefore_eq (T := T) (i := i) (by omega)
          have hout := insertRate_outside hin (by omega) (by
            rwa [rateNameCmp_congr (m := ⟨bytes, []⟩)
              (fun a ha => (swapped_bytes ha).trans (filled_bytes ha) :
                ∀ a, T.out + 1280 ≤ a → _) (by rw [hsi]; omega) (by rw [hdi]; omega)])
          have := hwrote _ (sortRates_wrote hrest _ hout)
          change T.out ≤ _ ∧ T.out + (i + 1) * 80 + 80 ≤ T.out + 1280 at this
          omega
        refine ⟨?_, hset⟩
        cases k with
        | zero =>
            rw [insertRate] at hin
            cases hin
        | succ k =>
            obtain ⟨r', hin', hr'⟩ := hset.stops
              (m := swapped T (filled T iv ⟨d0 :: d1 :: ds, hfits⟩ before bytes)) k
              (fun a ha => (swapped_bytes ha).trans (filled_bytes ha)) hfits hr
            obtain ⟨rfl, rfl⟩ := Prod.mk.inj (Option.some.inj (hin'.symm.trans hin))
            rw [sortRates_short hr'] at hrest
            obtain rfl := Option.some.inj hrest
            have hord := ordered_of_good (by simp) (swapped_laid hlaid) hes
            exact (ordered_map (d1 :: d0 :: ds)).mp hord
      · rw [if_neg hlt] at hsort' ⊢
        obtain rfl := Option.some.inj hsort'
        exact (ordered_map (d0 :: d1 :: ds)).mp (ordered_of_good (by simp) hlaid hes)

end twoOrMore

/-- The rate table is right where there is nothing to sort, where the devices
come in order, and where only the first two do not and the sort ends after
them; for names without low control characters it is right there only. -/
theorem devRates_good_iff (T : RateTable) (iv : Interval) (now before : DevTable)
    (bytes : Nat → UInt8) :
    (SortsRight T bytes now.devs → DevRatesGood T iv now before bytes) ∧
      (Plain now.devs → DevRatesGood T iv now before bytes → SortsRight T bytes now.devs) := by
  obtain ⟨devs, hfits⟩ := now
  match devs, hfits with
  | [], hfits =>
      refine ⟨fun _ => ?_, fun _ _ => trivial⟩
      exact devRatesGood_of (sortRates_short (k := 0) (Nat.zero_le 1)) (List.Perm.refl _)
        List.Pairwise.nil (filled_laid _ _ _ _ _) (filled_wrote _ _ _ _ _)
  | [d], hfits =>
      refine ⟨fun _ => ?_, fun _ _ => trivial⟩
      exact devRatesGood_of (sortRates_short (k := 0) (Nat.le_refl 1)) (List.Perm.refl _)
        (List.pairwise_singleton _ _) (filled_laid _ _ _ _ _) (filled_wrote _ _ _ _ _)
  | d0 :: d1 :: ds, hfits =>
      exact ⟨good_of_sortsRight hfits, sortsRight_of_good hfits⟩

/-! ## three interfaces -/

def netDev (name : List UInt8) (h : name.length < devNameCap) : Dev := ⟨name, 0, 0, h⟩

/-- Interfaces as they come: eth0, mic0, lo. -/
def threeNets : DevTable where
  devs := [netDev [101, 116, 104, 48] (by decide), netDev [109, 105, 99, 48] (by decide),
    netDev [108, 111] (by decide)]
  fits := by decide

/-- The first two are in order, and the sort is over before it looks at the
third. -/
theorem unsorted_nets : ¬ DevRatesGood ⟨4096, by decide, by decide⟩ ⟨1000000, by decide⟩ threeNets
    threeNets fun _ => 0 := by
  intro h
  have hs := sortsRight_of_good threeNets.fits (by simp [Plain, netDev, snDevCap]) h
  rw [SortsRight, if_neg (by decide)] at hs
  revert hs
  unfold NamesOrdered
  decide

end Phi.Top
