import Phi.Lib.Circular
import Phi.Lib.Reader

/-!
# Phi.Lib.Walk

Walks over memory that check nothing.

Where a format was checked before, a program walks over it again with a bare
cursor: it loads at displacements from the cursor, moves it on, and builds
something as it goes.  A `Walk` is such a program, and it keeps account of how
far up it has loaded.  `Follows d d' s w r Q` says that the walk does what the
checked reader `r` does: where `r` succeeds on what lies `d` bytes before the
cursor, the walk ends with its cursor `d'` bytes short of what `r` left, has
loaded nothing from behind the last byte, and `Q` holds of the reader's value,
the walk's and what was built.  Its rules take the reader apart field by field.
-/

namespace Phi

/-- The cursor, and the end of the highest byte loaded. -/
structure Cursor where
  pos : Nat
  high : Nat

/-- A walk: memory and the cursor, and what it builds. -/
def Walk (σ α : Type) : Type := (Nat → UInt8) → Cursor → σ → α × Cursor × σ

namespace Walk

variable {σ α β γ δ : Type}

/-! ## the walks -/

instance : Monad (Walk σ) where
  pure a := fun _ c s => (a, c, s)
  bind w k := fun m c s => let (a, c, s) := w m c s; k a m c s

theorem bind_pure_walk (w : Walk σ α) : (w >>= pure) = w := rfl

/-- The `n` bytes at displacement `d`. -/
def peek (d n : Nat) : Walk σ (List UInt8) := fun m c s =>
  (Circular.read m (c.pos + d) n, { c with high := max c.high (c.pos + d + n) }, s)

/-- The cursor moved on. -/
def move (n : Nat) : Walk σ Unit := fun _ c s => ((), { c with pos := c.pos + n }, s)

/-- What is built, read. -/
def built : Walk σ σ := fun _ c s => (s, c, s)

/-- What is built, changed. -/
def build (f : σ → σ) : Walk σ Unit := fun _ c s => ((), c, f s)

/-- `w` for each number from `i` on, `n` times. -/
def loop (w : Nat → Walk σ Unit) : Nat → Nat → Walk σ Unit
  | _, 0 => pure ()
  | i, n + 1 => do
      w i
      loop w (i + 1) n

/-! ## following a reader -/

/-- The walk does what the reader does. -/
def Follows (d d' : Nat) (s : σ) (w : Walk σ α) (r : Reader β) (Q : β → α → σ → Prop) : Prop :=
  ∀ (m : Nat → UInt8) (c : Cursor) (bs left : List UInt8) (b : β), r bs = some (b, left) →
    Circular.read m (c.pos + d) bs.length = bs → c.high ≤ c.pos + d + bs.length →
      ∃ a c' s', w m c s = (a, c', s') ∧ Q b a s' ∧
        c'.pos + d' + left.length = c.pos + d + bs.length ∧
        Circular.read m (c'.pos + d') left.length = left ∧
        c'.high ≤ c.pos + d + bs.length

theorem Follows.mono {d d' : Nat} {s : σ} {w : Walk σ α} {r : Reader β} {Q R : β → α → σ → Prop}
    (h : Follows d d' s w r Q) (hQR : ∀ b a t, Q b a t → R b a t) : Follows d d' s w r R := by
  intro m c bs left b hr hm hhigh
  obtain ⟨a, c', s', hw, hQ, hrest⟩ := h m c bs left b hr hm hhigh
  exact ⟨a, c', s', hw, hQR b a s' hQ, hrest⟩

theorem follows_pure {d : Nat} {s : σ} {a : α} {b : β} {Q : β → α → σ → Prop} (h : Q b a s) :
    Follows d d s (pure a) (pure b) Q := by
  intro m c bs left b' hr hm hhigh
  cases hr
  exact ⟨a, c, s, rfl, h, rfl, hm, hhigh⟩

/-- **Field by field.** -/
theorem Follows.bind {d d₁ d' : Nat} {s : σ} {w : Walk σ α} {k : α → Walk σ γ} {r : Reader β}
    {f : β → Reader δ} {P : β → α → σ → Prop} {Q : δ → γ → σ → Prop}
    (h : Follows d d₁ s w r P)
    (hk : ∀ b a t, P b a t → Follows d₁ d' t (k a) (f b) Q) :
    Follows d d' s (w >>= k) (r >>= f) Q := by
  intro m c bs left x hr hm hhigh
  obtain ⟨⟨b, mid⟩, hfirst, hsecond⟩ := Option.bind_eq_some_iff.mp hr
  obtain ⟨a, c₁, t, hw, hP, hpos, hmid, hhigh₁⟩ := h m c bs mid b hfirst hm hhigh
  obtain ⟨y, c', s', hw', hQ, hpos', hleft, hhigh'⟩ :=
    hk b a t hP m c₁ mid left x hsecond hmid (by omega)
  refine ⟨y, c', s', ?_, hQ, by omega, hleft, by omega⟩
  show (let (a, c, s) := w m c s; k a m c s) = _
  rw [hw]
  exact hw'

/-- A step of the walk that the reader does not see. -/
theorem Follows.before {d d₁ d' : Nat} {s : σ} {w : Walk σ α} {k : α → Walk σ γ} {r : Reader δ}
    {P : Unit → α → σ → Prop} {Q : δ → γ → σ → Prop}
    (h : Follows d d₁ s w (pure () : Reader Unit) P)
    (hk : ∀ a t, P () a t → Follows d₁ d' t (k a) r Q) :
    Follows d d' s (w >>= k) r Q :=
  h.bind (f := fun _ => r) fun _ a t hP => hk a t hP

/-- A field that the walk does not look at. -/
theorem Follows.unseen {d d₁ d' : Nat} {s : σ} {w : Walk σ γ} {r : Reader β} {f : β → Reader δ}
    {P : β → Unit → σ → Prop} {Q : δ → γ → σ → Prop}
    (h : Follows d d₁ s (pure () : Walk σ Unit) r P)
    (hk : ∀ b t, P b () t → Follows d₁ d' t w (f b) Q) :
    Follows d d' s w (r >>= f) Q :=
  h.bind (k := fun _ => w) fun b _ t hP => hk b t hP

/-- A step of the walk behind the last field. -/
theorem Follows.after {d d₁ d' : Nat} {s : σ} {w : Walk σ α} {k : α → Walk σ γ} {r : Reader β}
    {P : β → α → σ → Prop} {Q : β → γ → σ → Prop}
    (h : Follows d d₁ s w r P)
    (hk : ∀ b a t, P b a t → Follows d₁ d' t (k a) (pure b : Reader β) Q) :
    Follows d d' s (w >>= k) r Q := by
  rw [← bind_pure r]
  exact h.bind hk

/-- The reader makes something of its last field. -/
theorem Follows.map {d d' : Nat} {s : σ} {w : Walk σ α} {r : Reader β} {f : β → δ}
    {P : β → α → σ → Prop} {Q : δ → α → σ → Prop} (h : Follows d d' s w r P)
    (hPQ : ∀ b a t, P b a t → Q (f b) a t) :
    Follows d d' s w (do let b ← r; pure (f b)) Q := by
  rw [← bind_pure_walk w]
  exact h.bind fun b a t hP => follows_pure (hPQ b a t hP)

theorem follows_move {d n : Nat} {s : σ} (b : β) :
    Follows (n + d) d s (move n) (pure b : Reader β) fun x _ t => x = b ∧ t = s := by
  intro m c bs left b' hr hm hhigh
  cases hr
  refine ⟨(), { c with pos := c.pos + n }, s, rfl, ⟨rfl, rfl⟩, ?_, ?_, hhigh⟩
  · simp only [Nat.add_assoc]
  · rwa [Nat.add_assoc]

/-- The cursor moved to where the reader is, behind a step. -/
theorem Follows.moved {d n : Nat} {s : σ} {w : Walk σ Unit} {r : Reader β} {P : β → σ → Prop}
    (h : Follows d n s w r fun b _ t => P b t) :
    Follows d 0 s (do w; move n) r fun b _ t => P b t :=
  h.after fun b _ t hP => Follows.mono (follows_move (d := 0) (n := n) b) fun x _ u hx => by
    rw [hx.1, hx.2]
    exact hP

/-- The cursor moved to where the reader is, before a step. -/
theorem Follows.move_before {n d : Nat} {s : σ} {w : Walk σ γ} {r : Reader δ}
    {Q : δ → γ → σ → Prop} (h : Follows 0 d s w r Q) : Follows n d s (do move n; w) r Q :=
  Follows.before (follows_move (d := 0) (n := n) ()) fun _ t ht => by
    rw [ht.2]
    exact h

theorem follows_build {d : Nat} {s : σ} (f : σ → σ) (b : β) :
    Follows d d s (build f) (pure b : Reader β) fun x _ t => x = b ∧ t = f s := by
  intro m c bs left b' hr hm hhigh
  cases hr
  exact ⟨(), c, f s, rfl, ⟨rfl, rfl⟩, rfl, hm, hhigh⟩

theorem follows_built {d : Nat} {s : σ} (b : β) :
    Follows d d s (built : Walk σ σ) (pure b : Reader β) fun x a t => x = b ∧ a = s ∧ t = s := by
  intro m c bs left b' hr hm hhigh
  cases hr
  exact ⟨s, c, s, rfl, ⟨rfl, rfl, rfl⟩, rfl, hm, hhigh⟩

/-- What the reader takes, and what it leaves where. -/
theorem take_inv {n : Nat} {bs left b : List UInt8} {m : Nat → UInt8} {p : Nat}
    (h : Reader.take n bs = some (b, left)) (hm : Circular.read m p bs.length = bs) :
    n ≤ bs.length ∧ b = bs.take n ∧ left.length = bs.length - n ∧
      Circular.read m p n = b ∧ Circular.read m (p + n) left.length = left := by
  unfold Reader.take at h
  split at h
  · next hn =>
      obtain ⟨rfl, rfl⟩ := Prod.mk.inj (Option.some.inj h)
      refine ⟨hn, rfl, List.length_drop, ?_, ?_⟩
      · rw [← Circular.take_read m hn, hm]
      · rw [List.length_drop, ← Circular.drop_read, hm]
  · exact nomatch h

/-- The first `k` of the bytes the reader takes. -/
theorem follows_peek {d k n : Nat} {s : σ} (hk : k ≤ n) :
    Follows d (d + n) s (peek d k) (Reader.take n) fun b a t =>
      b.length = n ∧ a = b.take k ∧ t = s := by
  intro m c bs left b hr hm hhigh
  obtain ⟨hn, hb, hlen, hread, hleft⟩ := take_inv hr hm
  refine ⟨Circular.read m (c.pos + d) k,
    { c with high := max c.high (c.pos + d + k) }, s, rfl, ⟨?_, ?_, rfl⟩, ?_, ?_, ?_⟩
  · rw [hb, List.length_take, Nat.min_eq_left hn]
  · rw [← hread, Circular.take_read m hk]
  · dsimp only
    omega
  · rwa [← Nat.add_assoc]
  · dsimp only
    omega

/-- A word loaded as the reader takes it. -/
theorem follows_word {d n : Nat} {s : σ} (f : List UInt8 → β) :
    Follows d (d + n) s (peek d n) (do let b ← Reader.take n; pure (f b))
      fun v a t => a.length = n ∧ v = f a ∧ t = s :=
  (follows_peek (Nat.le_refl n)).map fun b a t ⟨hlen, ha, ht⟩ => by
    rw [← hlen, List.take_length] at ha
    exact ⟨ha ▸ hlen, ha ▸ rfl, ht⟩

/-- Bytes that the walk leaves out. -/
theorem follows_skip {d n : Nat} {s : σ} :
    Follows d (d + n) s (pure () : Walk σ Unit) (Reader.take n) fun b _ t =>
      b.length = n ∧ t = s := by
  intro m c bs left b hr hm hhigh
  obtain ⟨hn, hb, hlen, -, hleft⟩ := take_inv hr hm
  refine ⟨(), c, s, rfl, ⟨?_, rfl⟩, ?_, ?_, hhigh⟩
  · rw [hb, List.length_take, Nat.min_eq_left hn]
  · omega
  · rwa [← Nat.add_assoc]

theorem follows_check {d : Nat} {s : σ} (x : Option β) :
    Follows d d s (pure () : Walk σ Unit) (Reader.check x) fun b _ t => x = some b ∧ t = s := by
  intro m c bs left b hr hm hhigh
  obtain ⟨y, hy, hpair⟩ := Option.map_eq_some_iff.mp hr
  obtain ⟨rfl, rfl⟩ := Prod.mk.inj hpair
  exact ⟨(), c, s, rfl, ⟨hy, rfl⟩, rfl, hm, hhigh⟩

/-- A value of a fixed length that the walk leaves out. -/
theorem follows_unread {d k : Nat} {s : σ} {r : Reader β} (h : Reader.forget r = Reader.skip k) :
    Follows d (d + k) s (pure () : Walk σ Unit) r fun _ _ t => t = s := by
  intro m c bs left b hr hm hhigh
  have hforget : Reader.forget r bs = some ((), left) := by
    show Option.bind (r bs) (fun x => some ((), x.2)) = _
    rw [hr]
    rfl
  rw [h] at hforget
  unfold Reader.skip at hforget
  split at hforget
  · next hk =>
      obtain ⟨-, rfl⟩ := Prod.mk.inj (Option.some.inj hforget)
      refine ⟨(), c, s, rfl, rfl, ?_, ?_, hhigh⟩
      · rw [List.length_drop]
        omega
      · rw [List.length_drop, ← Nat.add_assoc, ← Circular.drop_read, hm]
  · exact nomatch hforget

/-- **Item by item**: what every step of the loop keeps. -/
theorem follows_loop {d : Nat} {w : Nat → Walk σ Unit} {r : Reader β}
    (Inv : List β → σ → Prop)
    (h : ∀ bs s, Inv bs s → Follows d d s (w bs.length) r fun b _ t => Inv (bs ++ [b]) t)
    (n : Nat) (done : List β) {s : σ} (hs : Inv done s) :
    Follows d d s (loop w done.length n) (Reader.many r n)
      fun bs _ t => bs.length = n ∧ Inv (done ++ bs) t := by
  induction n generalizing done s with
  | zero => exact follows_pure ⟨rfl, by simpa using hs⟩
  | succ n ih =>
      refine (h done s hs).bind fun b _ t ht => ?_
      have hrest := ih (done ++ [b]) ht
      rw [List.length_append, List.length_singleton] at hrest
      exact hrest.map fun bs _ u ⟨hlen, hu⟩ => ⟨congrArg (· + 1) hlen, by simpa using hu⟩

end Walk

end Phi
