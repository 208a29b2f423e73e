import Phi.Disk.Memory

/-!
# Phi.Disk.Reference

The disk the service is for.

A reference disk applies one record after the other to a store and to the
card's memory, and answers each at once.  The service keeps to it: what the
store and the card's memory are once the copies still out are made is what the
reference disk has for the records popped, whichever path the bytes take, and
every answer has the status the reference disk gives.
-/

namespace Phi.Disk

open Phi.Ring Blk Circular

/-! ## the reference disk -/

structure RefDisk where
  store : Nat → UInt8
  card : Nat → UInt8

/-- A read or write the disk has the sectors for. -/
def fits (capacity : Nat) (r : Record) : Prop :=
  0 < r.len.toNat ∧ r.len.toNat ≤ maxLen ∧ r.len.toNat % 512 = 0 ∧
    r.sector.toNat + r.len.toNat / 512 ≤ capacity

instance (capacity : Nat) (r : Record) : Decidable (fits capacity r) :=
  inferInstanceAs (Decidable (_ ∧ _))

/-- What a record does: a read or write that fits moves its bytes. -/
def RefDisk.apply (capacity : Nat) (m : RefDisk) (r : Record) : RefDisk :=
  if fits capacity r then
    if r.op = opRead then
      { m with
        card := write m.card r.phys.toNat (read m.store (r.sector.toNat * 512) r.len.toNat) }
    else if r.op = opWrite then
      { m with
        store := write m.store (r.sector.toNat * 512) (read m.card r.phys.toNat r.len.toNat) }
    else m
  else m

/-- What a record is answered. -/
def refStatus (capacity : Nat) (r : Record) : W32 :=
  if r.op = opIdent then BitVec.ofNat 32 (min capacity 0xffffffff)
  else if r.op = opFlush then 0#32
  else if opWrite < r.op then statusEopnotsupp
  else if fits capacity r then 0#32
  else statusEinval

theorem checkRecord_eq (capacity : Nat) (hcap : capacity < 2 ^ 64) (r : Record) :
    checkRecord capacity r = if fits capacity r then some r.len.toNat else none := by
  have hiff := checkRecord_isSome_iff capacity r
  have hfits : fits capacity r ↔ (checkRecord capacity r).isSome = true := by
    rw [hiff]
    unfold fits
    omega
  have hval : ∀ len, checkRecord capacity r = some len → len = r.len.toNat := by
    intro len hlen
    unfold checkRecord at hlen
    dsimp only at hlen
    split at hlen
    · cases hlen
    · split at hlen
      · cases hlen
      · split at hlen
        · cases hlen
        · split at hlen
          · cases hlen
          · split at hlen
            · cases hlen
            · cases hlen
              rfl
  by_cases hf : fits capacity r
  · obtain ⟨len, hlen⟩ := Option.isSome_iff_exists.mp (hfits.mp hf)
    rw [if_pos hf, hlen, hval len hlen]
  · rw [if_neg hf]
    exact Option.not_isSome_iff_eq_none.mp fun h => hf (hfits.mpr h)

/-! ## where things lie -/

/-- The record's data is in the card's memory, on whole lines. -/
def InCard (cardLen : Nat) (r : Record) : Prop :=
  r.phys.toNat % 64 = 0 ∧ r.phys.toNat + r.len.toNat ≤ cardLen

instance (cardLen : Nat) (r : Record) : Decidable (InCard cardLen r) :=
  inferInstanceAs (Decidable (_ ∧ _))

/-- The card's memory lies in the aperture and below the host's buffers, which
hold what the service puts there. -/
structure System.Laid (cardLen : Nat) (d : System) : Prop where
  gddr : cardLen ≤ gddrBytes
  aper : cardLen ≤ d.aperLen
  capacity : d.serv.capacity * 512 < 2 ^ 63
  window : d.serv.backend = .ram → smptBase ≤ d.serv.ramCard.toNat ∧
    d.serv.ramCard.toNat % 64 = 0 ∧ d.serv.ramCard.toNat + d.serv.capacity * 512 ≤ 2 ^ 40
  staging : d.serv.backend = .file → d.serv.path = .dma → smptBase ≤ d.serv.staging.toNat ∧
    d.serv.staging.toNat % 64 = 0 ∧ d.serv.staging.toNat + maxLen ≤ 2 ^ 40

/-- The memory once every copy submitted is made. -/
def System.settled (d : System) : Nat → UInt8 := d.queue.foldl Move.apply d.bus

/-- The byte of the store, in host memory or in the file. -/
def System.storeByte (m file : Nat → UInt8) (d : System) (i : Nat) : UInt8 :=
  match d.serv.backend with
  | .ram => m (d.serv.ramCard.toNat + i)
  | .file => file i

/-- The memory `m` and the file are what the reference disk has. -/
structure System.Matches (cardLen : Nat) (m file : Nat → UInt8) (d : System) (ref : RefDisk) :
    Prop where
  store : ∀ i < d.serv.capacity * 512, d.storeByte m file i = ref.store i
  card : ∀ a < cardLen, m a = ref.card a

/-! ## what the reference disk does, at the system's addresses -/

section memory

variable {cardLen : Nat} {m file : Nat → UInt8} {d : System} {ref : RefDisk}

theorem gddrBytes_lt : gddrBytes < smptBase := by decide

theorem smptBase_lt : smptBase < 2 ^ 40 := by decide

/-- Bytes into the card's memory leave the store. -/
theorem System.Matches.toCard (h : d.Matches cardLen m file ref) (hl : d.Laid cardLen) {a : Nat}
    {bs : List UInt8} (ha : a + bs.length ≤ cardLen) :
    d.Matches cardLen (write m a bs) file { ref with card := write ref.card a bs } where
  store i hi := by
    rw [← h.store i hi]
    unfold System.storeByte
    split
    · next hram =>
        have hwin := (hl.window hram).1
        have hgddr := hl.gddr
        have hlt := gddrBytes_lt
        exact write_of_not_mem _ (.inr (by omega))
    · rfl
  card := write_congr h.card a bs

/-- Bytes into host memory above the card's that is no part of a store. -/
theorem System.Matches.scratch (h : d.Matches cardLen m file ref) (hl : d.Laid cardLen)
    (hfile : d.serv.backend = .file) {a : Nat} (ha : smptBase ≤ a) (bs : List UInt8) :
    d.Matches cardLen (write m a bs) file ref where
  store i hi := by
    rw [← h.store i hi]
    unfold System.storeByte
    rw [hfile]
  card i hi := by
    rw [← h.card i hi]
    have hgddr := hl.gddr
    have hlt := gddrBytes_lt
    exact write_of_not_mem _ (.inl (by omega))

/-- Bytes into the window of host memory. -/
theorem System.Matches.toWindow (h : d.Matches cardLen m file ref) (hl : d.Laid cardLen)
    (hram : d.serv.backend = .ram) {off : Nat} (bs : List UInt8) :
    d.Matches cardLen (write m (d.serv.ramCard.toNat + off) bs) file
      { ref with store := write ref.store off bs } where
  store i hi := by
    have hold := h.store i hi
    unfold System.storeByte at hold ⊢
    rw [hram] at hold ⊢
    dsimp only at hold ⊢
    rw [write_apply, write_apply, hold, Nat.add_sub_add_left]
    congr 1
    simp only [eq_iff_iff]
    omega
  card i hi := by
    rw [← h.card i hi]
    have hwin := (hl.window hram).1
    have hgddr := hl.gddr
    have hlt := gddrBytes_lt
    exact write_of_not_mem _ (.inl (by omega))

/-- Bytes into the file. -/
theorem System.Matches.toFile (h : d.Matches cardLen m file ref) (hfile : d.serv.backend = .file)
    (off : Nat) (bs : List UInt8) :
    d.Matches cardLen m (write file off bs) { ref with store := write ref.store off bs } where
  store := by
    have hold := h.store
    unfold System.storeByte at hold ⊢
    rw [hfile] at hold ⊢
    exact write_congr hold off bs
  card := h.card

theorem System.Matches.readCard (h : d.Matches cardLen m file ref) {a len : Nat}
    (ha : a + len ≤ cardLen) : read m a len = read ref.card a len :=
  read_congr fun k hk => h.card (a + k) (by omega)

theorem System.Matches.readWindow (h : d.Matches cardLen m file ref)
    (hram : d.serv.backend = .ram) {off len : Nat} (hoff : off + len ≤ d.serv.capacity * 512) :
    read m (d.serv.ramCard.toNat + off) len = read ref.store off len := by
  unfold Circular.read
  refine List.map_congr_left fun k hk => ?_
  have hlt := List.mem_range.mp hk
  have hbyte := h.store (off + k) (by omega)
  unfold System.storeByte at hbyte
  rw [hram] at hbyte
  dsimp only at hbyte
  rw [Nat.add_assoc, hbyte]

theorem System.Matches.readFile (h : d.Matches cardLen m file ref)
    (hfile : d.serv.backend = .file) {off len : Nat} (hoff : off + len ≤ d.serv.capacity * 512) :
    read file off len = read ref.store off len := by
  refine read_congr fun k hk => ?_
  have hbyte := h.store (off + k) (by omega)
  unfold System.storeByte at hbyte
  rwa [hfile] at hbyte

/-! ## records that fit -/

theorem op_eq_write {op : W32} (h : op ≤ opWrite) (hread : op ≠ opRead) : op = opWrite := by
  unfold opWrite at h ⊢
  unfold opRead at hread
  bv_omega

theorem refStatus_of_le {capacity : Nat} {r : Record} (h : r.op ≤ opWrite) :
    refStatus capacity r = if fits capacity r then 0#32 else statusEinval := by
  unfold refStatus
  rw [if_neg, if_neg, if_neg (by bv_omega)]
  · intro heq
    rw [heq] at h
    exact absurd h (by decide)
  · intro heq
    rw [heq] at h
    exact absurd h (by decide)

theorem RefDisk.apply_read {capacity : Nat} {r : Record} (h : fits capacity r)
    (hop : r.op = opRead) : ref.apply capacity r =
      { ref with
        card := write ref.card r.phys.toNat
          (Circular.read ref.store (r.sector.toNat * 512) r.len.toNat) } := by
  unfold RefDisk.apply
  rw [if_pos h, if_pos hop]

theorem RefDisk.apply_write {capacity : Nat} {r : Record} (h : fits capacity r)
    (hop : r.op = opWrite) : ref.apply capacity r =
      { ref with
        store := write ref.store (r.sector.toNat * 512)
          (Circular.read ref.card r.phys.toNat r.len.toNat) } := by
  unfold RefDisk.apply
  rw [if_pos h, if_neg (by rw [hop]; decide), if_pos hop]

/-- **A record the check rejects changes nothing.** -/
theorem RefDisk.apply_of_not_fits {capacity : Nat} {r : Record} (h : ¬ fits capacity r) :
    ref.apply capacity r = ref := by
  unfold RefDisk.apply
  rw [if_neg h]

theorem RefDisk.apply_of_lt {capacity : Nat} {r : Record} (h : opWrite < r.op) :
    ref.apply capacity r = ref := by
  unfold RefDisk.apply
  rw [if_neg (c := r.op = opRead), if_neg (c := r.op = opWrite), ite_self]
  · intro heq
    rw [heq] at h
    exact absurd h (by decide)
  · intro heq
    rw [heq] at h
    exact absurd h (by decide)

theorem fits.inStore {capacity : Nat} {r : Record} (h : fits capacity r) :
    r.sector.toNat * 512 + r.len.toNat ≤ capacity * 512 := by
  obtain ⟨-, -, hmod, hcap⟩ := h
  omega

theorem System.offset_eq {capacity : Nat} {r : Record} (h : fits capacity r)
    (hcap : capacity * 512 < 2 ^ 63) : System.offset r = r.sector.toNat * 512 := by
  have hin := h.inStore
  unfold System.offset
  rw [BitVec.toNat_shiftLeft, Nat.shiftLeft_eq]
  omega

theorem System.window_eq {r : Record} (h : fits d.serv.capacity r) (hl : d.Laid cardLen)
    (hram : d.serv.backend = .ram) :
    (d.serv.window r).toNat = d.serv.ramCard.toNat + r.sector.toNat * 512 := by
  have hin := h.inStore
  have hoff := System.offset_eq h hl.capacity
  have hwin := (hl.window hram).2.2
  unfold System.offset at hoff
  unfold Service.window
  rw [BitVec.toNat_add, hoff, Nat.mod_eq_of_lt (by omega), Nat.add_comm]

theorem granular_iff {src dst : W64} {len : Nat} : granular src dst len = true ↔
    len ≠ 0 ∧ len % 64 = 0 ∧ src.toNat % 64 = 0 ∧ dst.toNat % 64 = 0 ∧ len < 2 ^ 20 := by
  unfold granular
  rw [decide_eq_true_iff]

/-- A record that fits is of a length the engine takes. -/
theorem fits.granular {capacity : Nat} {r : Record} (h : fits capacity r) {src dst : W64}
    (hsrc : src.toNat % 64 = 0) (hdst : dst.toNat % 64 = 0) :
    granular src dst r.len.toNat = true := by
  obtain ⟨hpos, hmax, hmod, -⟩ := h
  unfold maxLen at hmax
  exact granular_iff.mpr ⟨by omega, by omega, hsrc, hdst, by omega⟩

end memory

/-! ## looks at the engine -/

/-- What looks at the engine change: the channel's counts, and how many of the
copies are made. -/
structure System.Looks (d d' : System) : Prop where
  serv : ∃ c : Chan, d'.serv = { d.serv with chan := c } ∧ c.Ok ∧
    c.submitted = d.serv.chan.submitted ∧ c.completed ≤ d'.made
  settled : d'.settled = d.settled
  counted : d'.made + d'.queue.length = d.made + d.queue.length
  made : d.made ≤ d'.made
  file : d'.file = d.file
  aperLen : d'.aperLen = d.aperLen
  exited : d'.exited = d.exited
  failed : d'.failed = false → d.failed = false

/-- The counts of a system the engine keeps in step with. -/
structure System.InStep (d : System) : Prop where
  chan : d.serv.chan.Ok
  counted : d.made + d.queue.length = d.serv.chan.submitted
  completed : d.serv.chan.completed ≤ d.made

/-- A look reports no more than the status words show. -/
theorem dmaPoll_le {c c' : Chan} {r : Reading} {res : Option Nat} {n : Nat}
    (hp : dmaPoll r c = (c', res)) (hc : c.completed ≤ n) (hhost : r.hostWord ≤ n)
    (hcard : r.cardWord ≤ n) : c'.completed ≤ n := by
  unfold dmaPoll at hp
  dsimp only at hp
  split at hp
  · cases hp
    exact hc
  · generalize hword : (if c.pending ≤ r.hostWord ∨ r.cardWord ≤ r.hostWord then r.hostWord
      else r.cardWord) = word at hp
    have hle : word ≤ n := by
      rw [← hword]
      split
      · exact hhost
      · exact hcard
    split at hp
    · cases hp
      exact hc
    · split at hp
      · split at hp
        · cases hp
          exact hc
        · cases hp
          exact hc
      · cases hp
        exact hle

section looks

variable {d d' d'' : System}

theorem System.InStep.looks (h : d.InStep) (hl : d.Looks d') : d'.InStep := by
  obtain ⟨c, hserv, hok, hsub, hcomp⟩ := hl.serv
  refine ⟨by rw [hserv]; exact hok, ?_, by rw [hserv]; exact hcomp⟩
  rw [hl.counted, h.counted, hserv]
  exact hsub.symm

theorem System.Looks.refl (h : d.InStep) : d.Looks d :=
  ⟨⟨d.serv.chan, rfl, h.chan, rfl, h.completed⟩, rfl, rfl, Nat.le_refl _, rfl, rfl, rfl, id⟩

theorem System.Looks.trans (h : d.Looks d') (h' : d'.Looks d'') : d.Looks d'' where
  serv := by
    obtain ⟨c, hserv, -, hsub, -⟩ := h.serv
    obtain ⟨c', hserv', hok', hsub', hcomp'⟩ := h'.serv
    refine ⟨c', ?_, hok', ?_, hcomp'⟩
    · rw [hserv', hserv]
    · rw [hsub', hserv]
      exact hsub
  settled := h'.settled.trans h.settled
  counted := h'.counted.trans h.counted
  made := Nat.le_trans h.made h'.made
  file := h'.file.trans h.file
  aperLen := h'.aperLen.trans h.aperLen
  exited := h'.exited.trans h.exited
  failed hf := h.failed (h'.failed hf)

theorem System.looks_make (h : d.InStep) : d.Looks d.make := by
  unfold System.make
  split
  · exact .refl h
  · next q qs hq =>
      refine ⟨⟨d.serv.chan, rfl, h.chan, rfl, ?_⟩, ?_, ?_, Nat.le_succ _, rfl, rfl, rfl, id⟩
      · exact Nat.le_succ_of_le h.completed
      · unfold System.settled
        rw [hq]
        rfl
      · rw [hq, List.length_cons]
        dsimp only
        omega

theorem System.looks_makes (h : d.InStep) (n : Nat) : d.Looks (d.makes n) := by
  induction n generalizing d with
  | zero => exact .refl h
  | succ n ih =>
      have hone := System.looks_make h
      exact hone.trans (ih (h.looks hone))

/-- A look that finds nothing failing reports copies that are made. -/
theorem System.looks_dmaPoll (h : d.InStep) {l : Peek} {res : Option Nat}
    (hp : d.dmaPoll l = (d', res)) :
    d.Looks d' ∧ (res = none → d'.failed = true) ∧
      ∀ done, res = some done → done = d'.serv.chan.completed ∧ done ≤ d'.made := by
  have hmakes := System.looks_makes h l.progress
  have hstep := h.looks hmakes
  unfold System.dmaPoll at hp
  generalize d.makes l.progress = e at hp hmakes hstep
  dsimp only at hp
  have hlook : ∀ c res, Phi.Disk.dmaPoll (e.reading l) e.serv.chan = (c, res) →
      c.Ok ∧ c.submitted = e.serv.chan.submitted ∧ c.completed ≤ e.made ∧
        ∀ done, res = some done → done = c.completed := by
    intro c res hc
    obtain ⟨hok, hsub, hdone⟩ := dmaPoll_spec hstep.chan hc
    exact ⟨hok, hsub, dmaPoll_le hc hstep.completed (Nat.min_le_right _ _) (Nat.min_le_right _ _),
      hdone⟩
  split at hp
  · next c hc =>
      cases hp
      obtain ⟨hok, hsub, hcomp, -⟩ := hlook c none hc
      exact ⟨hmakes.trans ⟨⟨c, rfl, hok, hsub, hcomp⟩, rfl, rfl, Nat.le_refl _, rfl, rfl, rfl,
        by simp⟩, by simp, by simp⟩
  · next c done hc =>
      cases hp
      obtain ⟨hok, hsub, hcomp, hdone⟩ := hlook c (some done) hc
      refine ⟨hmakes.trans ⟨⟨c, rfl, hok, hsub, hcomp⟩, rfl, rfl, Nat.le_refl _, rfl, rfl, rfl,
        id⟩, by simp, fun done' heq => ?_⟩
      cases heq
      have hd := hdone done rfl
      exact ⟨hd, by rw [hd]; exact hcomp⟩

theorem System.looks_waitRoom {ls : List Peek} (h : d.InStep) {ok : Bool}
    (hw : d.waitRoom ls = some (d', ok)) :
    d.Looks d' ∧ (ok = false → d'.failed = true) ∧
      (ok = true → d'.serv.chan.inFlight < maxInFlight) := by
  induction ls generalizing d with
  | nil =>
      unfold System.waitRoom at hw
      split at hw
      · next hroom =>
          cases hw
          exact ⟨.refl h, by simp, fun _ => hroom⟩
      · cases hw
  | cons l ls ih =>
      unfold System.waitRoom at hw
      split at hw
      · next hroom =>
          cases hw
          exact ⟨.refl h, by simp, fun _ => hroom⟩
      · split at hw
        · next hp =>
            cases hw
            obtain ⟨hl, hf, -⟩ := System.looks_dmaPoll h hp
            exact ⟨hl, fun _ => hf rfl, by simp⟩
        · next hp =>
            obtain ⟨hl, -, -⟩ := System.looks_dmaPoll h hp
            obtain ⟨hl', hf, hroom⟩ := ih (h.looks hl) hw
            exact ⟨hl.trans hl', hf, hroom⟩

theorem System.looks_dmaWait {seq : Nat} {ls : List Peek} (h : d.InStep) {ok : Bool}
    (hw : d.dmaWait seq ls = some (d', ok)) :
    d.Looks d' ∧ (ok = false → d'.failed = true) ∧ (ok = true → seq ≤ d'.made) := by
  induction ls generalizing d with
  | nil => cases hw
  | cons l ls ih =>
      unfold System.dmaWait at hw
      split at hw
      · next hp =>
          cases hw
          obtain ⟨hl, hf, -⟩ := System.looks_dmaPoll h hp
          exact ⟨hl, fun _ => hf rfl, by simp⟩
      · next done hp =>
          obtain ⟨hl, -, hdone⟩ := System.looks_dmaPoll h hp
          split at hw
          · next hle =>
              cases hw
              exact ⟨hl, by simp, fun _ => Nat.le_trans hle (hdone done rfl).2⟩
          · obtain ⟨hl', hf, hmade⟩ := ih (h.looks hl) hw
            exact ⟨hl.trans hl', hf, hmade⟩

/-- A submission: looks for room, and the copy joins the queue. -/
theorem System.looks_dmaSubmit {ls : List Peek} {now src dst : W64} {len : Nat} (h : d.InStep)
    (hgran : granular src dst len = true) {res : Option Nat}
    (hs : d.dmaSubmit ls now src dst len = some (d', res)) :
    (res = none ∧ d'.failed = true) ∨
      ∃ e, d.Looks e ∧ e.serv.chan.inFlight < maxInFlight ∧ d' = e.enqueue now src dst len ∧
        res = some (d.serv.chan.submitted + 1) := by
  unfold System.dmaSubmit at hs
  rw [if_neg (by simp [hgran])] at hs
  split at hs
  · cases hs
  · next hw =>
      cases hs
      exact .inl ⟨rfl, (System.looks_waitRoom h hw).2.1 rfl⟩
  · next e hw =>
      cases hs
      obtain ⟨hl, -, hroom⟩ := System.looks_waitRoom h hw
      obtain ⟨c, hserv, -, hsub, -⟩ := hl.serv
      refine .inr ⟨e, hl, hroom rfl, rfl, ?_⟩
      rw [hserv]
      show some (c.submitted + 1) = _
      rw [hsub]

end looks

end Phi.Disk
