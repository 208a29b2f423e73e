import Phi.Lib.Run
import Phi.Ring.Copy

/-!
# Phi.Ring.Link

One ring shared by a producer and a consumer that run at the same time.

Each end of a ring is held by the host (`ring_push`, `ring_pop`, which read
both index words from the header) or by the card (`knc_rpc_write`,
`knc_rpc_read`, which keep their own index privately and read only the other
one).  An operation is three steps: the indices are read and the byte count
fixed, the bytes are copied, the index is published.  Between any two steps of
one end the other may take any number of its own, so a count is always fixed
on a view that may be stale by the time the bytes are copied.

The abstract model of a ring is the queue of the bytes in it: what was pushed
is what was popped followed by what is still there.  `Link.Inv` ties the words
and the area to that queue.
-/

namespace Phi.Ring

open Circular Phi.Modular

/-! ## the two ends -/

/-- Who holds an end of the ring. -/
inductive Side where
  | host
  | card
deriving DecidableEq, Repr

/-- Where the producer is: between operations, with its own index and the
bytes to copy fixed, or with the bytes copied and the head not yet published. -/
inductive Producer where
  | idle
  | loaded (head : W32) (bs : List UInt8)
  | copied (head : W32) (bs : List UInt8)

/-- Where the consumer is: between operations, about to set the tail to an
inconsistent head, with its own index and count fixed, or with the bytes
copied out and the tail not yet published. -/
inductive Consumer where
  | idle
  | resync (head : W32)
  | loaded (tail : W32) (n : Nat)
  | copied (tail : W32) (bs : List UInt8)

/-- A ring in use.  `txHead` and `rxTail` are the private copies of a card
end; `pushed` and `popped` record the bytes of all published operations. -/
structure Link where
  head : W32
  tail : W32
  data : Nat → UInt8
  txHead : W32
  rxTail : W32
  producer : Producer
  consumer : Consumer
  pushed : List UInt8
  popped : List UInt8

/-- The steps of the two ends.  A fault is a card copy from or to user memory
that fails, which ends the operation with nothing moved. -/
inductive Action where
  | pushLoad (bs : List UInt8)
  | pushFault
  | pushCopy
  | pushPublish
  | popLoad (cap : Nat)
  | popFault
  | popCopy
  | popPublish

section machine

variable (g : Geometry) (prod cons : Side)

/-- The head a producer goes by: the header's, or the card's own. -/
def Link.ownHead (s : Link) : W32 :=
  match prod with
  | .host => s.head
  | .card => s.txHead

/-- The tail a consumer goes by: the header's, or the card's own. -/
def Link.ownTail (s : Link) : W32 :=
  match cons with
  | .host => s.tail
  | .card => s.rxTail

/-- The producer reads the indices and fixes what it will copy.  The host
leaves at once when nothing fits. -/
def Link.pushLoad (s : Link) (bs : List UInt8) : Link :=
  let head := s.ownHead prod
  match prod with
  | .host =>
      let n := pushCount g.size head s.tail bs.length
      { s with producer := if n = 0 then .idle else .loaded head (bs.take n) }
  | .card =>
      let n := kncWriteCount g.size head s.tail bs.length
      { s with producer := .loaded head (bs.take n) }

/-- The consumer reads the indices and fixes how much it will copy. -/
def Link.popLoad (s : Link) (cap : Nat) : Link :=
  let tail := s.ownTail cons
  match cons with
  | .host => match popCount g.size s.head tail cap with
    | none => { s with consumer := .resync s.head }
    | some n => { s with consumer := if n = 0 then .idle else .loaded tail n }
  | .card => { s with consumer := .loaded tail (kncReadCount s.head tail cap) }

/-- One step of one end; a step that does not fit the phase does nothing. -/
def Link.step (s : Link) : Action → Link
  | .pushLoad bs => match s.producer with
    | .idle => s.pushLoad g prod bs
    | _ => s
  | .pushFault => match prod, s.producer with
    | .card, .loaded _ _ => { s with producer := .idle }
    | _, _ => s
  | .pushCopy => match s.producer with
    | .loaded head bs =>
        { s with data := copyIn g.size head s.data bs, producer := .copied head bs }
    | _ => s
  | .pushPublish => match s.producer with
    | .copied head bs =>
        let head' := head + BitVec.ofNat 32 bs.length
        { s with head := head', txHead := head', producer := .idle, pushed := s.pushed ++ bs }
    | _ => s
  | .popLoad cap => match s.consumer with
    | .idle => s.popLoad g cons cap
    | _ => s
  | .popFault => match cons, s.consumer with
    | .card, .copied _ _ => { s with consumer := .idle }
    | _, _ => s
  | .popCopy => match s.consumer with
    | .loaded tail n => { s with consumer := .copied tail (copyOut g.size tail s.data n) }
    | _ => s
  | .popPublish => match s.consumer with
    | .copied tail bs =>
        let tail' := tail + BitVec.ofNat 32 bs.length
        { s with tail := tail', rxTail := tail', consumer := .idle, popped := s.popped ++ bs }
    | .resync head => { s with tail := head, rxTail := head, consumer := .idle }
    | _ => s

end machine

/-- A ring as both ends find it when they attach: indices of any value that
obey the index law, and whatever the area holds. -/
structure Start (g : Geometry) where
  head : W32
  tail : W32
  data : Nat → UInt8
  law : head - tail ≤ g.size

/-- The link at the start: the bytes already in the ring count as pushed. -/
def Start.link {g : Geometry} (st : Start g) : Link where
  head := st.head
  tail := st.tail
  data := st.data
  txHead := st.head
  rxTail := st.tail
  producer := .idle
  consumer := .idle
  pushed := copyOut g.size st.tail st.data (st.head - st.tail).toNat
  popped := []

/-! ## the invariant -/

/-- What the producer's phase says about the queue `live` that starts at the
true tail index `T`. -/
def Producer.Ok (g : Geometry) (data : Nat → UInt8) (T : Nat) (live : List UInt8) :
    Producer → Prop
  | .idle => Holds data g.size.toNat T live
  | .loaded head bs =>
      Holds data g.size.toNat T live ∧ head = BitVec.ofNat 32 (T + live.length) ∧
        live.length + bs.length ≤ g.size.toNat
  | .copied head bs =>
      Holds data g.size.toNat T (live ++ bs) ∧ head = BitVec.ofNat 32 (T + live.length) ∧
        live.length + bs.length ≤ g.size.toNat

/-- What the consumer's phase says about the queue. -/
def Consumer.Ok (T : Nat) (live : List UInt8) : Consumer → Prop
  | .idle => True
  | .resync _ => False
  | .loaded tail n => tail = BitVec.ofNat 32 T ∧ n ≤ live.length
  | .copied tail bs => tail = BitVec.ofNat 32 T ∧ bs <+: live

/-- The words and the area hold the queue `live` from the true index `T` on. -/
structure Link.Tied (g : Geometry) (s : Link) (T : Nat) (live : List UInt8) : Prop where
  tail_eq : s.tail = BitVec.ofNat 32 T
  head_eq : s.head = BitVec.ofNat 32 (T + live.length)
  rxTail_eq : s.rxTail = s.tail
  txHead_eq : s.txHead = s.head
  fits : live.length ≤ g.size.toNat
  pushed_eq : s.pushed = s.popped ++ live
  producer_ok : s.producer.Ok g s.data T live
  consumer_ok : s.consumer.Ok T live

/-- The invariant of a ring in use: it holds some queue. -/
def Link.Inv (g : Geometry) (s : Link) : Prop := ∃ T live, s.Tied g T live

/-- Whatever the producer is doing, the bytes not yet popped are in the area. -/
theorem Producer.Ok.holds {g : Geometry} {data : Nat → UInt8} {T : Nat} {live : List UInt8}
    {p : Producer} (h : p.Ok g data T live) : Holds data g.size.toNat T live := by
  cases p with
  | idle => exact h
  | loaded head bs => exact h.1
  | copied head bs => exact h.1.left

/-- Bytes taken from the front of the queue leave the producer's phase right. -/
theorem Producer.Ok.drop {g : Geometry} {data : Nat → UInt8} {T n : Nat} {live : List UInt8}
    {p : Producer} (h : p.Ok g data T live) (hn : n ≤ live.length) :
    p.Ok g data (T + n) (live.drop n) := by
  have hlen : T + n + (live.drop n).length = T + live.length := by
    rw [List.length_drop]; omega
  cases p with
  | idle => exact Holds.drop h
  | loaded head bs =>
      obtain ⟨hh, hhead, hfit⟩ := h
      exact ⟨hh.drop, by rw [hlen]; exact hhead, by rw [List.length_drop]; omega⟩
  | copied head bs =>
      obtain ⟨hh, hhead, hfit⟩ := h
      refine ⟨?_, by rw [hlen]; exact hhead, by rw [List.length_drop]; omega⟩
      rw [← List.drop_append_of_le_length hn]
      exact hh.drop

/-- Bytes appended to the queue leave the consumer's phase right. -/
theorem Consumer.Ok.append {T : Nat} {live : List UInt8} {c : Consumer} (h : c.Ok T live)
    (bs : List UInt8) : c.Ok T (live ++ bs) := by
  cases c with
  | idle => trivial
  | resync head => exact h
  | loaded tail n =>
      obtain ⟨htail, hn⟩ := h
      exact ⟨htail, by rw [List.length_append]; omega⟩
  | copied tail cs =>
      obtain ⟨htail, hpre⟩ := h
      exact ⟨htail, hpre.trans (List.prefix_append live bs)⟩

/-! ## the steps keep it -/

section steps

variable {g : Geometry} {s : Link} {T : Nat} {live : List UInt8}

theorem Link.Tied.ownHead (h : s.Tied g T live) (prod : Side) :
    s.ownHead prod = BitVec.ofNat 32 (T + live.length) := by
  cases prod with
  | host => exact h.head_eq
  | card => exact h.txHead_eq.trans h.head_eq

theorem Link.Tied.ownTail (h : s.Tied g T live) (cons : Side) :
    s.ownTail cons = BitVec.ofNat 32 T := by
  cases cons with
  | host => exact h.tail_eq
  | card => exact h.rxTail_eq.trans h.tail_eq

/-- Loading fixes at most the free bytes. -/
theorem Link.Tied.pushLoad (h : s.Tied g T live) (prod : Side) (bs : List UInt8) :
    (s.pushLoad g prod bs).Tied g T live := by
  have hown := h.ownHead prod
  have hholds := h.producer_ok.holds
  cases prod with
  | host =>
      have hcount := pushCount_le g (T := T) h.fits bs.length
      refine { h with producer_ok := ?_ }
      simp only [Link.pushLoad, hown, h.tail_eq]
      split
      · exact hholds
      · exact ⟨hholds, rfl, by rw [List.length_take]; omega⟩
  | card =>
      have hcount := kncWriteCount_le g (T := T) h.fits bs.length
      refine { h with producer_ok := ?_ }
      simp only [Link.pushLoad, hown, h.tail_eq]
      exact ⟨hholds, rfl, by rw [List.length_take]; omega⟩

/-- Loading never finds the indices inconsistent, and fixes at most what is there. -/
theorem Link.Tied.popLoad (h : s.Tied g T live) (cons : Side) (cap : Nat) :
    (s.popLoad g cons cap).Tied g T live := by
  have hown := h.ownTail cons
  cases cons with
  | host =>
      have hcount : popCount g.size s.head (s.ownTail .host) cap = some (min live.length cap) := by
        rw [hown, h.head_eq]
        exact popCount_eq g h.fits cap
      simp only [Link.popLoad, hcount]
      refine { h with consumer_ok := ?_ }
      dsimp only
      split
      · trivial
      · exact ⟨hown, by omega⟩
  | card =>
      have hcount := kncReadCount_le g (T := T) h.fits cap
      refine { h with consumer_ok := ⟨hown, ?_⟩ }
      rw [hown, h.head_eq]
      exact hcount

/-- The copy in lands past the queue and leaves it alone. -/
theorem Link.Tied.pushCopy (h : s.Tied g T live) {head : W32} {bs : List UInt8}
    (hp : s.producer = .loaded head bs) :
    Link.Tied g { s with data := copyIn g.size head s.data bs, producer := .copied head bs }
      T live := by
  obtain ⟨hh, hhead, hfit⟩ : (Producer.loaded head bs).Ok g s.data T live := hp ▸ h.producer_ok
  have hcopy := hh.writeWrap hfit
  rw [← copyIn_eq_writeWrap, ← hhead] at hcopy
  exact { h with producer_ok := ⟨hcopy, hhead, hfit⟩ }

/-- Publishing the head appends the copied bytes to the queue. -/
theorem Link.Tied.pushPublish (h : s.Tied g T live) {head : W32} {bs : List UInt8}
    (hp : s.producer = .copied head bs) :
    Link.Tied g { s with
      head := head + BitVec.ofNat 32 bs.length, txHead := head + BitVec.ofNat 32 bs.length,
      producer := .idle, pushed := s.pushed ++ bs } T (live ++ bs) := by
  obtain ⟨hh, hhead, hfit⟩ : (Producer.copied head bs).Ok g s.data T live := hp ▸ h.producer_ok
  have hnew : head + BitVec.ofNat 32 bs.length = BitVec.ofNat 32 (T + (live ++ bs).length) := by
    rw [hhead, ← BitVec.ofNat_add, List.length_append, Nat.add_assoc]
  exact { tail_eq := h.tail_eq
          head_eq := hnew
          rxTail_eq := h.rxTail_eq
          txHead_eq := rfl
          fits := by rw [List.length_append]; exact hfit
          pushed_eq := by rw [← List.append_assoc, ← h.pushed_eq]
          producer_ok := hh
          consumer_ok := h.consumer_ok.append bs }

/-- The copy out reads the front of the queue. -/
theorem Link.Tied.popCopy (h : s.Tied g T live) {tail : W32} {n : Nat}
    (hc : s.consumer = .loaded tail n) :
    Link.Tied g { s with consumer := .copied tail (copyOut g.size tail s.data n) } T live := by
  obtain ⟨htail, hn⟩ : (Consumer.loaded tail n).Ok T live := hc ▸ h.consumer_ok
  have hfits := h.fits
  have hread := h.producer_ok.holds.readWrap g.size_pos hn (by omega)
  rw [← copyOut_eq_readWrap, ← htail] at hread
  exact { h with consumer_ok := ⟨htail, by rw [hread]; exact List.take_prefix n live⟩ }

/-- Publishing the tail takes the copied bytes from the front of the queue. -/
theorem Link.Tied.popPublish (h : s.Tied g T live) {tail : W32} {bs : List UInt8}
    (hc : s.consumer = .copied tail bs) :
    Link.Tied g { s with
      tail := tail + BitVec.ofNat 32 bs.length, rxTail := tail + BitVec.ofNat 32 bs.length,
      consumer := .idle, popped := s.popped ++ bs } (T + bs.length) (live.drop bs.length) := by
  obtain ⟨htail, hpre⟩ : (Consumer.copied tail bs).Ok T live := hc ▸ h.consumer_ok
  have hle := hpre.length_le
  have hsplit : bs ++ live.drop bs.length = live := List.prefix_iff_eq_append.mp hpre
  have hfits := h.fits
  exact { tail_eq := by rw [htail, ← BitVec.ofNat_add]
          head_eq := by
            rw [h.head_eq, List.length_drop]
            congr 1
            omega
          rxTail_eq := rfl
          txHead_eq := h.txHead_eq
          fits := by rw [List.length_drop]; omega
          pushed_eq := by rw [List.append_assoc, hsplit]; exact h.pushed_eq
          producer_ok := h.producer_ok.drop hle
          consumer_ok := trivial }

end steps

/-- **One step of either end keeps the invariant.** -/
theorem Link.step_inv (g : Geometry) (prod cons : Side) (s : Link) (a : Action) (h : s.Inv g) :
    (s.step g prod cons a).Inv g := by
  obtain ⟨T, live, ht⟩ := h
  cases a with
  | pushLoad bs =>
      cases hp : s.producer <;> simp only [Link.step, hp]
      case idle => exact ⟨T, live, ht.pushLoad prod bs⟩
      all_goals exact ⟨T, live, ht⟩
  | pushFault =>
      cases prod <;> cases hp : s.producer <;> simp only [Link.step, hp]
      case card.loaded => exact ⟨T, live, { ht with producer_ok := ht.producer_ok.holds }⟩
      all_goals exact ⟨T, live, ht⟩
  | pushCopy =>
      cases hp : s.producer <;> simp only [Link.step, hp]
      case loaded => exact ⟨T, live, ht.pushCopy hp⟩
      all_goals exact ⟨T, live, ht⟩
  | pushPublish =>
      cases hp : s.producer <;> simp only [Link.step, hp]
      case copied head bs => exact ⟨T, live ++ bs, ht.pushPublish hp⟩
      all_goals exact ⟨T, live, ht⟩
  | popLoad cap =>
      cases hc : s.consumer <;> simp only [Link.step, hc]
      case idle => exact ⟨T, live, ht.popLoad cons cap⟩
      all_goals exact ⟨T, live, ht⟩
  | popFault =>
      cases cons <;> cases hc : s.consumer <;> simp only [Link.step, hc]
      case card.copied => exact ⟨T, live, { ht with consumer_ok := trivial }⟩
      all_goals exact ⟨T, live, ht⟩
  | popCopy =>
      cases hc : s.consumer <;> simp only [Link.step, hc]
      case loaded => exact ⟨T, live, ht.popCopy hc⟩
      all_goals exact ⟨T, live, ht⟩
  | popPublish =>
      cases hc : s.consumer <;> simp only [Link.step, hc]
      case copied tail bs => exact ⟨_, _, ht.popPublish hc⟩
      case resync head =>
        have hfalse : (Consumer.resync head).Ok T live := hc ▸ ht.consumer_ok
        exact hfalse.elim
      all_goals exact ⟨T, live, ht⟩

/-- A ring that obeys the index law starts in the invariant. -/
theorem Start.inv {g : Geometry} (st : Start g) : st.link.Inv g := by
  have hlaw : (st.head - st.tail).toNat ≤ g.size.toNat := st.law
  have htail : st.tail = BitVec.ofNat 32 st.tail.toNat := by
    rw [BitVec.ofNat_toNat, BitVec.setWidth_eq]
  have hlen : (copyOut g.size st.tail st.data (st.head - st.tail).toNat).length =
      (st.head - st.tail).toNat := by
    rw [htail]
    exact length_copyOut g _ _ _
  have hholds : Holds st.data g.size.toNat st.tail.toNat
      (copyOut g.size st.tail st.data (st.head - st.tail).toNat) := by
    have h : Holds st.data g.size.toNat st.tail.toNat
        (readWrap st.data g.size.toNat st.tail.toNat (st.head - st.tail).toNat) :=
      holds_readWrap st.data g.size_pos hlaw
    rwa [← copyOut_eq_readWrap, ← htail] at h
  refine ⟨st.tail.toNat, copyOut g.size st.tail st.data (st.head - st.tail).toNat, ?_⟩
  exact { tail_eq := htail
          head_eq := by
            rw [hlen]
            have h := eq_ofNat_add_toNat_sub 32 st.tail.toNat st.head
            rwa [← htail] at h
          rxTail_eq := rfl
          txHead_eq := rfl
          fits := by rw [hlen]; exact hlaw
          pushed_eq := rfl
          producer_ok := hholds
          consumer_ok := trivial }

/-- Every reachable state of a ring in use satisfies the invariant. -/
theorem Start.run_inv {g : Geometry} (st : Start g) (prod cons : Side) (acts : List Action) :
    (run (Link.step g prod cons) st.link acts).Inv g :=
  run_inv_all (fun s a => Link.step_inv g prod cons s a) st.inv acts

/-! ## the ring is a queue -/

/-- **The ring is a FIFO**: whoever holds its ends and however their steps
interleave, the bytes popped are a prefix of the bytes pushed, `head - tail`
stays within the size, and the cells from `tail` to `head` still carry the
bytes pushed and not yet popped, so none was overwritten before it was
consumed. -/
theorem ring_fifo (g : Geometry) (prod cons : Side) (st : Start g) (acts : List Action) :
    let s := run (Link.step g prod cons) st.link acts
    s.popped <+: s.pushed ∧
      s.head - s.tail ≤ g.size ∧
      s.pushed = s.popped ++ copyOut g.size s.tail s.data (s.head - s.tail).toNat := by
  obtain ⟨T, live, h⟩ := st.run_inv prod cons acts
  have hfits := h.fits
  have hsz := g.size.isLt
  have hused : ((run (Link.step g prod cons) st.link acts).head -
      (run (Link.step g prod cons) st.link acts).tail).toNat = live.length := by
    rw [h.head_eq, h.tail_eq, toNat_ofNat_sub 32 (by omega) (by omega)]
    omega
  refine ⟨?_, ?_, ?_⟩
  · rw [h.pushed_eq]
    exact List.prefix_append _ _
  · rw [BitVec.le_def, hused]
    exact hfits
  · rw [hused, h.tail_eq, copyOut_eq_readWrap,
      h.producer_ok.holds.readWrap g.size_pos (Nat.le_refl _) hfits, List.take_length]
    exact h.pushed_eq

end Phi.Ring
