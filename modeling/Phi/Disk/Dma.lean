import Phi.Ring.Copy

/-!
# Phi.Disk.Dma

The card's copy engine as the host drives it (`dma.S`).

Copies are numbered as they are submitted and the engine writes the number of
the last finished one into a status word.  Two counts are all the host keeps of
them; they are 64 bits wide, and natural numbers here.
-/

namespace Phi.Disk

open Phi.Ring

/-! ## constants -/

/-- `MAX_IN_FLIGHT`: four descriptors a copy in a ring of 256, less one. -/
def maxInFlight : Nat := 256 / 4 - 1
def copyTimeoutMs : Nat := 2000
/-- Card addresses from here on are host memory. -/
def smptBase : Nat := 0x80 <<< 32

/-! ## the channel -/

/-- A channel: copies submitted and completed, the last one into card memory
not yet seen to finish, and the time of the last progress. -/
structure Chan where
  submitted : Nat
  completed : Nat
  pending : Nat
  progress : W64
deriving DecidableEq, Repr

/-- What one look at the engine finds: its status words in host and in card
memory, and the clock. -/
structure Reading where
  hostWord : Nat
  cardWord : Nat
  now : W64
deriving DecidableEq, Repr

/-- `dma_in_flight`. -/
def Chan.inFlight (c : Chan) : Nat := c.submitted - c.completed

/-- `dma_poll`: the last completed copy, none when the engine stalls or counts
copies it was never given. -/
def dmaPoll (r : Reading) (c : Chan) : Chan × Option Nat :=
  if c.inFlight = 0 then ({ c with progress := r.now }, some c.completed)
  else
    let word := if c.pending ≤ r.hostWord ∨ r.cardWord ≤ r.hostWord then r.hostWord else r.cardWord
    if c.submitted < word then (c, none)
    else if word ≤ c.completed then
      if copyTimeoutMs < (r.now - c.progress).toNat then (c, none) else (c, some c.completed)
    else
      ({ c with
          completed := word
          progress := r.now
          pending := if word < c.pending then c.pending else 0 }, some word)

/-- The wait of `dma_submit` for room: no result while the engine is full and
the readings last. -/
def waitRoom : List Reading → Chan → Option (Chan × Bool)
  | [], c => if c.inFlight < maxInFlight then some (c, true) else none
  | r :: rs, c =>
      if c.inFlight < maxInFlight then some (c, true)
      else match dmaPoll r c with
        | (c, none) => some (c, false)
        | (c, some _) => waitRoom rs c

/-- A copy the engine can make: whole lines, under a megabyte. -/
def granular (src dst : W64) (len : Nat) : Bool :=
  len ≠ 0 ∧ len % 64 = 0 ∧ src.toNat % 64 = 0 ∧ dst.toNat % 64 = 0 ∧ len < 2 ^ 20

/-- `dma_submit`: the number of the copy, none when it was refused. -/
def dmaSubmit (rs : List Reading) (now : W64) (src dst : W64) (len : Nat) (c : Chan) :
    Option (Chan × Option Nat) :=
  if granular src dst len = false then some (c, none)
  else match waitRoom rs c with
    | none => none
    | some (c, false) => some (c, none)
    | some (c, true) =>
        let seq := c.submitted + 1
        some ({ c with
          progress := if c.inFlight = 0 then now else c.progress
          submitted := seq
          pending := if dst.toNat < smptBase then seq else c.pending }, some seq)

/-- `dma_wait`: whether the copy completed, no result while it is out. -/
def dmaWait (seq : Nat) : List Reading → Chan → Option (Chan × Bool)
  | [], _ => none
  | r :: rs, c => match dmaPoll r c with
      | (c, none) => some (c, false)
      | (c, some done) => if seq ≤ done then some (c, true) else dmaWait seq rs c

/-- `dma_copy`: a copy submitted and waited for. -/
def dmaCopy (room rs : List Reading) (now : W64) (src dst : W64) (len : Nat) (c : Chan) :
    Option (Chan × Bool) :=
  match dmaSubmit room now src dst len c with
  | none => none
  | some (c, none) => some (c, false)
  | some (c, some seq) => dmaWait seq rs c

/-! ## the counts keep together -/

/-- Completed copies were submitted, and no more are out than the ring takes. -/
structure Chan.Ok (c : Chan) : Prop where
  completed_le : c.completed ≤ c.submitted
  submitted_le : c.submitted ≤ c.completed + maxInFlight

section spec

variable {c c' : Chan} {rs : List Reading}

/-- All that one look can do: nothing is out; the engine fails; it goes on; or
it finished copies up to `word`. -/
theorem dmaPoll_cases {r : Reading} {res : Option Nat} (hp : dmaPoll r c = (c', res)) :
    (c.inFlight = 0 ∧ c' = { c with progress := r.now } ∧ res = some c.completed) ∨
    (c' = c ∧ res = none) ∨
    (c.inFlight ≠ 0 ∧ c' = c ∧ res = some c.completed ∧
      (r.now - c.progress).toNat ≤ copyTimeoutMs) ∨
    ∃ word, c.completed < word ∧ word ≤ c.submitted ∧ c'.completed = word ∧
      c'.submitted = c.submitted ∧ res = some word := by
  unfold dmaPoll at hp
  dsimp only at hp
  split at hp
  · next hidle =>
      cases hp
      exact .inl ⟨hidle, rfl, rfl⟩
  · next hbusy =>
      generalize (if c.pending ≤ r.hostWord ∨ r.cardWord ≤ r.hostWord then r.hostWord
        else r.cardWord) = word at hp
      split at hp
      · cases hp
        exact .inr (.inl ⟨rfl, rfl⟩)
      · split at hp
        · split at hp
          · cases hp
            exact .inr (.inl ⟨rfl, rfl⟩)
          · cases hp
            exact .inr (.inr (.inl ⟨hbusy, rfl, rfl, by omega⟩))
        · cases hp
          exact .inr (.inr (.inr ⟨word, by omega, by omega, rfl, rfl, rfl⟩))

theorem dmaPoll_spec {r : Reading} {res : Option Nat} (h : c.Ok) (hp : dmaPoll r c = (c', res)) :
    c'.Ok ∧ c'.submitted = c.submitted ∧ ∀ done, res = some done → done = c'.completed := by
  obtain ⟨hle, hwin⟩ := h
  obtain ⟨-, rfl, rfl⟩ | ⟨rfl, rfl⟩ | ⟨-, rfl, rfl, -⟩ | ⟨word, hlt, hgiven, hcomp, hsub, rfl⟩ :=
    dmaPoll_cases hp
  · exact ⟨⟨hle, hwin⟩, rfl, by simp⟩
  · exact ⟨⟨hle, hwin⟩, rfl, by simp⟩
  · exact ⟨⟨hle, hwin⟩, rfl, by simp⟩
  · exact ⟨⟨by omega, by omega⟩, hsub, by simp [hcomp]⟩

theorem waitRoom_spec {ok : Bool} (h : c.Ok) (hw : waitRoom rs c = some (c', ok)) :
    c'.Ok ∧ c'.submitted = c.submitted ∧ (ok = true → c'.inFlight < maxInFlight) := by
  induction rs generalizing c with
  | nil =>
      unfold waitRoom at hw
      split at hw
      · next hroom =>
          cases hw
          exact ⟨h, rfl, fun _ => hroom⟩
      · cases hw
  | cons r rs ih =>
      unfold waitRoom at hw
      split at hw
      · next hroom =>
          cases hw
          exact ⟨h, rfl, fun _ => hroom⟩
      · split at hw
        · next hp =>
            cases hw
            obtain ⟨hok, hsub, -⟩ := dmaPoll_spec h hp
            exact ⟨hok, hsub, by simp⟩
        · next hp =>
            obtain ⟨hok, hsub, -⟩ := dmaPoll_spec h hp
            obtain ⟨hok', hsub', hroom⟩ := ih hok hw
            exact ⟨hok', by rw [hsub', hsub], hroom⟩

/-- A submitted copy gets the next number. -/
theorem dmaSubmit_spec {now src dst : W64} {len : Nat} {res : Option Nat} (h : c.Ok)
    (hs : dmaSubmit rs now src dst len c = some (c', res)) :
    c'.Ok ∧ c.submitted ≤ c'.submitted ∧
      ∀ seq, res = some seq → seq = c.submitted + 1 ∧ c'.submitted = seq := by
  unfold dmaSubmit at hs
  split at hs
  · cases hs
    exact ⟨h, Nat.le_refl _, by simp⟩
  · split at hs
    · cases hs
    · next hw =>
        cases hs
        obtain ⟨hok, hsub, -⟩ := waitRoom_spec h hw
        exact ⟨hok, by omega, by simp⟩
    · next c1 hw =>
        cases hs
        obtain ⟨⟨hle, hwin⟩, hsub, hroom⟩ := waitRoom_spec h hw
        have hlt := hroom rfl
        unfold Chan.inFlight at hlt
        refine ⟨⟨?_, ?_⟩, ?_, ?_⟩
        · dsimp only
          omega
        · dsimp only
          omega
        · dsimp only
          omega
        · intro seq hseq
          cases hseq
          exact ⟨by omega, rfl⟩

theorem dmaWait_spec {seq : Nat} {ok : Bool} (h : c.Ok) (hw : dmaWait seq rs c = some (c', ok)) :
    c'.Ok ∧ c'.submitted = c.submitted := by
  induction rs generalizing c with
  | nil => cases hw
  | cons r rs ih =>
      unfold dmaWait at hw
      split at hw
      · next hp =>
          cases hw
          obtain ⟨hok, hsub, -⟩ := dmaPoll_spec h hp
          exact ⟨hok, hsub⟩
      · next hp =>
          obtain ⟨hok, hsub, -⟩ := dmaPoll_spec h hp
          split at hw
          · cases hw
            exact ⟨hok, hsub⟩
          · obtain ⟨hok', hsub'⟩ := ih hok hw
            exact ⟨hok', by rw [hsub', hsub]⟩

theorem dmaCopy_spec {room : List Reading} {now src dst : W64} {len : Nat} {ok : Bool} (h : c.Ok)
    (hc : dmaCopy room rs now src dst len c = some (c', ok)) :
    c'.Ok ∧ c.submitted ≤ c'.submitted := by
  unfold dmaCopy at hc
  split at hc
  · cases hc
  · next hs =>
      cases hc
      obtain ⟨hok, hsub, -⟩ := dmaSubmit_spec h hs
      exact ⟨hok, hsub⟩
  · next hs =>
      obtain ⟨hok, hsub, -⟩ := dmaSubmit_spec h hs
      obtain ⟨hok', hsub'⟩ := dmaWait_spec hok hc
      exact ⟨hok', by omega⟩

end spec

/-! ## the counts move on -/

/-- A look that finds no copy done and the time not up. -/
def Chan.Still (c : Chan) (r : Reading) : Prop :=
  c.inFlight ≠ 0 ∧ dmaPoll r c = (c, some c.completed)

instance (c : Chan) (r : Reading) : Decidable (c.Still r) := inferInstanceAs (Decidable (_ ∧ _))

/-- The looks at the engine that are not still. -/
def moved : List Reading → Chan → Nat
  | [], _ => 0
  | r :: rs, c => (if c.Still r then 0 else 1) + moved rs (dmaPoll r c).1

section progress

variable {c c' : Chan} {rs : List Reading}

theorem dmaPoll_completed {r : Reading} {res : Option Nat} (hp : dmaPoll r c = (c', res)) :
    c.completed ≤ c'.completed := by
  obtain ⟨-, rfl, -⟩ | ⟨rfl, -⟩ | ⟨-, rfl, -⟩ | ⟨word, hlt, -, hcomp, -⟩ := dmaPoll_cases hp
  · exact Nat.le_refl _
  · exact Nat.le_refl _
  · exact Nat.le_refl _
  · omega

theorem waitRoom_completed {ok : Bool} (hw : waitRoom rs c = some (c', ok)) :
    c.completed ≤ c'.completed := by
  induction rs generalizing c with
  | nil =>
      unfold waitRoom at hw
      split at hw
      · cases hw
        exact Nat.le_refl _
      · cases hw
  | cons r rs ih =>
      unfold waitRoom at hw
      split at hw
      · cases hw
        exact Nat.le_refl _
      · split at hw
        · next hp =>
            cases hw
            exact dmaPoll_completed hp
        · next hp => exact Nat.le_trans (dmaPoll_completed hp) (ih hw)

theorem dmaSubmit_completed {now src dst : W64} {len : Nat} {res : Option Nat}
    (hs : dmaSubmit rs now src dst len c = some (c', res)) : c.completed ≤ c'.completed := by
  unfold dmaSubmit at hs
  split at hs
  · cases hs
    exact Nat.le_refl _
  · split at hs
    · cases hs
    · next hw =>
        cases hs
        exact waitRoom_completed hw
    · next c1 hw =>
        have hle := waitRoom_completed hw
        cases hs
        exact hle

theorem dmaWait_completed {seq : Nat} {ok : Bool} (hw : dmaWait seq rs c = some (c', ok)) :
    c.completed ≤ c'.completed := by
  induction rs generalizing c with
  | nil => cases hw
  | cons r rs ih =>
      unfold dmaWait at hw
      split at hw
      · next hp =>
          cases hw
          exact dmaPoll_completed hp
      · next hp =>
          split at hw
          · cases hw
            exact dmaPoll_completed hp
          · exact Nat.le_trans (dmaPoll_completed hp) (ih hw)

theorem dmaCopy_completed {room : List Reading} {now src dst : W64} {len : Nat} {ok : Bool}
    (hc : dmaCopy room rs now src dst len c = some (c', ok)) : c.completed ≤ c'.completed := by
  unfold dmaCopy at hc
  split at hc
  · cases hc
  · next hs =>
      cases hc
      exact dmaSubmit_completed hs
  · next hs => exact Nat.le_trans (dmaSubmit_completed hs) (dmaWait_completed hc)

/-- More than two seconds after the last progress no look is still. -/
theorem Chan.not_still_of_late {r : Reading} (h : copyTimeoutMs < (r.now - c.progress).toNat) :
    ¬ c.Still r := by
  rintro ⟨hbusy, hp⟩
  obtain ⟨hidle, -⟩ | ⟨-, hfail⟩ | ⟨-, -, -, hearly⟩ | ⟨word, hlt, -, -, -, hword⟩ :=
    dmaPoll_cases hp
  · exact hbusy hidle
  · cases hfail
  · omega
  · cases hword
    exact Nat.lt_irrefl _ hlt

/-- A look that is not still finds all copies done, or one more than before,
or the engine failing. -/
theorem dmaPoll_moved {r : Reading} {done : Nat} (h : c.Ok) (hmove : ¬ c.Still r)
    (hp : dmaPoll r c = (c', some done)) : done = c'.submitted ∨ c.completed < done := by
  obtain ⟨hle, hwin⟩ := h
  obtain ⟨hidle, rfl, hdone⟩ | ⟨-, hfail⟩ | ⟨hbusy, rfl, hdone, -⟩ | ⟨word, hlt, -, -, -, hword⟩ :=
    dmaPoll_cases hp
  · cases hdone
    unfold Chan.inFlight at hidle
    dsimp only
    left
    omega
  · cases hfail
  · cases hdone
    exact absurd ⟨hbusy, hp⟩ hmove
  · cases hword
    exact .inr hlt

theorem waitRoom_of_room (h : c.inFlight < maxInFlight) (rs : List Reading) :
    waitRoom rs c = some (c, true) := by
  cases rs with
  | nil => exact if_pos h
  | cons r rs => exact if_pos h

/-- The wait for room ends as soon as the engine moves on. -/
theorem waitRoom_ends (h : c.Ok) (hm : 0 < moved rs c) : (waitRoom rs c).isSome = true := by
  induction rs generalizing c with
  | nil => exact absurd hm (Nat.lt_irrefl 0)
  | cons r rs ih =>
      unfold waitRoom
      split
      · rfl
      · next hfull =>
          cases hp : dmaPoll r c with
          | mk c1 res =>
              obtain ⟨hok, hsub, hdone⟩ := dmaPoll_spec h hp
              cases res with
              | none => rfl
              | some done =>
                  by_cases hstill : c.Still r
                  · have hsame : c1 = c := congrArg Prod.fst (hp.symm.trans hstill.2)
                    subst hsame
                    refine ih h ?_
                    unfold moved at hm
                    rw [if_pos hstill, hp] at hm
                    dsimp only at hm
                    omega
                  · have hroom : c1.inFlight < maxInFlight := by
                      have hd := hdone done rfl
                      have hwin := h.submitted_le
                      have hle := hok.completed_le
                      unfold Chan.inFlight
                      obtain hall | hmore := dmaPoll_moved h hstill hp
                      · rw [← hd, hall, Nat.sub_self]
                        decide
                      · omega
                    dsimp only
                    rw [waitRoom_of_room hroom]
                    rfl

/-- The wait for a copy ends once the engine moved on as often as copies are
out up to it. -/
theorem dmaWait_ends {seq : Nat} (h : c.Ok) (hseq : seq ≤ c.submitted)
    (hm : seq - c.completed ≤ moved rs c) (hpos : 0 < moved rs c) :
    (dmaWait seq rs c).isSome = true := by
  induction rs generalizing c with
  | nil => exact absurd hpos (Nat.lt_irrefl 0)
  | cons r rs ih =>
      unfold dmaWait
      cases hp : dmaPoll r c with
      | mk c1 res =>
          obtain ⟨hok, hsub, hdone⟩ := dmaPoll_spec h hp
          cases res with
          | none => rfl
          | some done =>
              dsimp only
              split
              · rfl
              · next hearly =>
                  have hd := hdone done rfl
                  unfold moved at hm hpos
                  rw [hp] at hm hpos
                  dsimp only at hm hpos
                  by_cases hstill : c.Still r
                  · have hsame : c1 = c := congrArg Prod.fst (hp.symm.trans hstill.2)
                    subst hsame
                    rw [if_pos hstill] at hm hpos
                    exact ih h hseq (by omega) (by omega)
                  · rw [if_neg hstill] at hm
                    obtain hall | hmore := dmaPoll_moved h hstill hp
                    · omega
                    · exact ih hok (by omega) (by omega) (by omega)

end progress

end Phi.Disk
