import Phi.Top.Poll

/-!
# Phi.Top.Message

The message of a poll that fails, and what putting it leaves of the slot.

Every exit writes the same message in pieces (`request_eq`): what is shown is
its first 400 bytes, and what lies behind its 432nd byte is stored over the
derived record (`derived_errorPut_iff`).  The one message that quotes the
socket's path reads the path while it writes: `exit_none` is the path that runs
into the message's room.
-/

namespace Phi.Top

open Rpc Serve Utf8

/-! ## what is shown -/

/-- The message of a request that fails. -/
def Ends.message (path : List UInt8) : Ends → Option (List UInt8)
  | .socket errno => some (bytes "socket" ++ bytes ": " ++ oserr errno)
  | .connect errno => some (bytes "connecting to " ++ path ++
      bytes " (is phictl boot --serve running?): " ++ oserr errno)
  | .write => some (bytes "writing the request")
  | .timeout => some (bytes "waiting for the daemon's reply: timed out")
  | .badframe => some (bytes "the daemon sent a frame phi-rpc rejects")
  | .closed => some (bytes "the daemon closed the connection")
  | .read errno => some (bytes "waiting for the daemon's reply" ++ bytes ": " ++ oserr errno)
  | .reply _ _ => none

def cardMessage (body : List UInt8) : List UInt8 :=
  bytes "card: " ++ (body.drop 2).take (ofLe (body.take 2))

def unexpectedMessage (tag : UInt8) : Option (List UInt8) :=
  (Tag.ofByte tag).map fun t => bytes "unexpected reply " ++ bytes (msgName t)

/-- The message of the second half. -/
def failureTraffic (path : List UInt8) : Ends → Option (List UInt8)
  | .reply tag _ => if tag = Tag.toByte .trafficReply then none else unexpectedMessage tag
  | e => e.message path

/-- The message of a poll that does not take the sample. -/
def failure (path : List UInt8) : Ends → Ends → Option (List UInt8)
  | .reply tag body, e =>
      if tag = Tag.toByte .statReply then failureTraffic path e
      else if tag = Tag.toByte .error then some (cardMessage body) else unexpectedMessage tag
  | e, _ => e.message path

/-- The message fits in front of the derived record, or says what stands there. -/
def SlotMem.Spares (s : SlotMem) (bs : List UInt8) : Prop :=
  ∀ i < dvSize, ∀ h : 432 + i < bs.length, bs[432 + i] = s.mem (slDerived + i)

/-- What a poll leaves is right: the model as it was and the message shown, or
the sample taken and no message. -/
def Polled.Right (s : SlotMem) (m : Option (List UInt8)) : Option Polled → Prop
  | none => False
  | some (.kept t) => (t.derived = s.derived ∧ t.prev = s.prev ∧ t.seen = s.seen) ∧
      ∃ bs, m = some bs ∧ t.errorText = bs.take 400
  | some (.taken u) => m = none ∧ ∀ t, u = .ok t → t.errorText = []

/-! ## pens -/

theorem Pen.put_put (p : Pen) (bs cs : List UInt8) : (p.put bs).put cs = p.put (bs ++ cs) := by
  unfold Pen.put
  rw [Circular.write_append, List.length_append, Nat.add_assoc]

/-- The path behind what was written: it ends in front of the pen, or the copy never ends. -/
theorem Pen.cstr_eq {p : Pen} {mapped src : Nat} {xs : List UInt8} (h : Cstr p.mem src xs)
    (hapart : src + xs.length < p.wp) (hroom : p.wp + xs.length ≤ mapped) :
    p.cstr mapped src = some (p.put xs) := by
  unfold Pen.cstr
  rw [CString.copyText_eq h hapart (by omega)]
  rfl

namespace SlotMem

variable {s : SlotMem} {path : List UInt8}

theorem errorCut_le (n : Nat) : errorCut n ≤ 400 := by
  unfold errorCut
  split <;> omega

theorem errorCut_eq (n : Nat) : errorCut n = min 400 n := by
  unfold errorCut
  split <;> omega

theorem errorPut_mem_eq (s : SlotMem) (bs : List UInt8) : (s.errorPut bs).mem =
    Circular.write (Circular.write (Circular.write s.mem slError bs) slErrorLen
      (leBytes 8 (errorCut bs.length))) (slError + errorCut bs.length) [0] := by
  unfold errorPut errorEnd Pen.put errorBegin
  dsimp only
  rw [Nat.add_sub_cancel_left]

@[simp] theorem errorPut_prev (s : SlotMem) (bs : List UInt8) : (s.errorPut bs).prev = s.prev := by
  unfold errorPut errorEnd
  rfl

@[simp] theorem errorPut_seen (s : SlotMem) (bs : List UInt8) : (s.errorPut bs).seen = s.seen := by
  unfold errorPut errorEnd
  rfl

/-- The derived record is behind the first 432 bytes. -/
theorem errorPut_mem (s : SlotMem) (bs : List UInt8) {i : Nat} (h : slDerived ≤ i) :
    (s.errorPut bs).mem i = Circular.write s.mem slError bs i := by
  have hcut := errorCut_le bs.length
  unfold slDerived at h
  rw [errorPut_mem_eq, Circular.write_of_not_mem, Circular.write_of_not_mem]
  · right
    rw [length_leBytes]
    unfold slErrorLen
    omega
  · right
    rw [List.length_singleton]
    unfold slError
    omega

theorem errorLen_errorPut (s : SlotMem) (bs : List UInt8) :
    (s.errorPut bs).errorLen = errorCut bs.length := by
  have hcut := errorCut_le bs.length
  have hlen : (leBytes 8 (errorCut bs.length)).length = 8 := length_leBytes _ _
  unfold errorLen
  rw [errorPut_mem_eq, Circular.read_write_before _ (by unfold slErrorLen slError; omega)]
  have hread := Circular.read_write (Circular.write s.mem slError bs) slErrorLen
    (leBytes 8 (errorCut bs.length))
  rw [hlen] at hread
  rw [hread]
  exact ofLe_leBytes (Nat.lt_of_le_of_lt hcut (by decide))

/-- **What is shown is the first 400 bytes.** -/
theorem errorText_errorPut (s : SlotMem) (bs : List UInt8) :
    (s.errorPut bs).errorText = bs.take 400 := by
  have hcut := errorCut_eq bs.length
  unfold errorText
  rw [errorLen_errorPut, errorPut_mem_eq, Circular.read_write_before _ (Nat.le_refl _)]
  have hlen : (leBytes 8 (errorCut bs.length)).length = 8 := length_leBytes _ _
  have hsame : Circular.read (Circular.write (Circular.write s.mem slError bs) slErrorLen
        (leBytes 8 (errorCut bs.length))) slError (errorCut bs.length)
      = Circular.read (Circular.write s.mem slError bs) slError (errorCut bs.length) :=
    Circular.read_congr fun k _ => Circular.write_of_not_mem _ (by
      right
      rw [hlen]
      unfold slErrorLen slError
      omega)
  rw [hsame, ← Circular.take_read _ (show errorCut bs.length ≤ bs.length by omega),
    Circular.read_write, hcut, List.take_eq_take_iff]
  omega

theorem derived_errorPut_iff (s : SlotMem) (bs : List UInt8) :
    (s.errorPut bs).derived = s.derived ↔ s.Spares bs := by
  have hat : ∀ i, (s.errorPut bs).mem (slDerived + i)
      = Circular.write s.mem slError bs (slError + (432 + i)) := fun i => by
    rw [errorPut_mem s bs (Nat.le_add_right _ _), ← Nat.add_assoc]
    rfl
  unfold derived
  constructor
  · intro h i hi hlen
    have hi' := congrArg (·[i]?) h
    rw [Circular.getElem?_read _ hi, Circular.getElem?_read _ hi, hat,
      Circular.write_of_mem _ hlen] at hi'
    exact Option.some.inj hi'
  · intro h
    refine Circular.read_congr fun i hi => ?_
    rw [hat]
    by_cases hlen : 432 + i < bs.length
    · rw [Circular.write_of_mem _ hlen]
      exact h i hi hlen
    · rw [Circular.write_of_not_mem _ (by right; omega), ← Nat.add_assoc]
      rfl

/-! ## requests -/

/-- The string is in front of `sockaddr`. -/
theorem reach (s : SlotMem) : slSeen + 131072 ≤ s.sockaddr := by
  have hsize : slSeen + 131072 ≤ slSize := by decide
  have hn := s.inTable
  unfold sockaddr
  exact Nat.le_trans hsize (Nat.le_mul_of_pos_left _ (by omega))

/-- The path copied out, where a socket was had. -/
def sent (s : SlotMem) (path : List UInt8) (a : Answers) : SlotMem :=
  if a.socket.isNone then
    { s with mem := Circular.write s.mem (s.sockaddr + 2) (path ++ [0]) }
  else s

/-- The path is the slot's socket, as long as an argument at the most. -/
structure Named (s : SlotMem) (path : List UInt8) : Prop where
  cstr : Cstr s.mem slSocket path
  short : path.length < 131072

theorem sent_eq (hpath : s.Named path) (a : Answers) :
    (if a.socket.isNone then s.addressed else some s) = some (s.sent path a) := by
  have hreach := s.reach
  have hroom := s.room
  have hshort := hpath.short
  have hsocket : slSocket + path.length < s.sockaddr + 2 := by
    unfold slSeen slDerived at hreach
    unfold slSocket
    omega
  have hmapped : path.length < s.mapped - (s.sockaddr + 2) := by
    change s.sockaddr + Rpc.maxFrame ≤ s.mapped at hroom
    have : Rpc.maxFrame = 1048576 := rfl
    omega
  unfold sent addressed
  split
  · rw [CString.copyString_eq hpath.cstr hsocket hmapped]
    rfl
  · rfl

/-- The record stays as it was. -/
theorem sent_mem (s : SlotMem) (path : List UInt8) (a : Answers) {i : Nat}
    (h : i < slSeen + 131072) : (s.sent path a).mem i = s.mem i := by
  have hreach := s.reach
  unfold sent
  split
  · exact Circular.write_of_not_mem _ (by left; omega)
  · rfl

theorem sent_same (s : SlotMem) (path : List UInt8) (a : Answers) :
    (s.sent path a).seen = s.seen ∧ (s.sent path a).prev = s.prev ∧
      (s.sent path a).mapped = s.mapped ∧ (s.sent path a).number = s.number := by
  unfold sent
  split <;> exact ⟨rfl, rfl, rfl, rfl⟩

theorem Named.sent (hpath : s.Named path) (a : Answers) : (s.sent path a).Named path := by
  have hshort := hpath.short
  have hfar : slSocket + path.length < slSeen + 131072 := by
    unfold slSeen slDerived slSocket
    omega
  refine ⟨⟨fun k hk => ?_, hpath.cstr.nonzero, ?_⟩, hshort⟩
  · rw [sent_mem s path a (by omega)]
    exact hpath.cstr.bytes k hk
  · rw [sent_mem s path a (by omega)]
    exact hpath.cstr.nul

theorem spares_sent (s : SlotMem) (path : List UInt8) (a : Answers) (bs : List UInt8) :
    (s.sent path a).Spares bs ↔ s.Spares bs := by
  have hat : ∀ i < dvSize, (s.sent path a).mem (slDerived + i) = s.mem (slDerived + i) :=
    fun i hi => sent_mem s path a (by unfold slSeen; omega)
  exact forall₂_congr fun i hi => by rw [hat i hi]

/-- What a request leaves of the slot. -/
def told (s : SlotMem) (m : Option (List UInt8)) : SlotMem :=
  match m with
  | some bs => s.errorPut bs
  | none => s

/-- The pieces of a message make the message. -/
theorem exit_eq (hpath : s.Named path) {e : Ends}
    (hfits : ∀ errno, e = .connect errno → path.length < 512) :
    s.exit e = some (s.told (e.message path)) := by
  cases e with
  | connect errno =>
      have hlen := hfits errno rfl
      have htext : (bytes "connecting to ").length = 14 := by decide
      have hcstr : Cstr (s.errorBegin.put (bytes "connecting to ")).mem slSocket path :=
        hpath.cstr.write (.inr (by
          show slSocket + path.length < slError
          unfold slSocket slError
          omega))
      have hroom : (s.errorBegin.put (bytes "connecting to ")).wp + path.length ≤ s.mapped := by
        have := s.reach
        have := s.room
        change s.sockaddr + Rpc.maxFrame ≤ s.mapped at this
        show slError + (bytes "connecting to ").length + path.length ≤ s.mapped
        unfold slSeen slDerived slError at *
        omega
      have hapart : slSocket + path.length < (s.errorBegin.put (bytes "connecting to ")).wp := by
        show slSocket + path.length < slError + (bytes "connecting to ").length
        unfold slSocket slError
        omega
      unfold exit
      rw [Pen.cstr_eq hcstr hapart hroom]
      show some (s.errorEnd _) = _
      simp only [Pen.put_put, Ends.message, told, errorPut, List.append_assoc]
  | socket errno =>
      unfold exit errorOs
      simp only [Pen.put_put, Ends.message, told, errorPut]
  | read errno =>
      unfold exit errorOs
      simp only [Pen.put_put, Ends.message, told, errorPut]
  | write => rfl
  | timeout => rfl
  | badframe => rfl
  | closed => rfl
  | reply tag body => rfl

/-- A path that runs into the room of the message has no end any more. -/
theorem exit_none (hpath : s.Named path) (errno : Errno) (hlong : 512 ≤ path.length) :
    s.exit (.connect errno) = none := by
  have htext : (bytes "connecting to ").length = 14 := by decide
  have hnul : ∀ k, ∀ h : k < (bytes "connecting to ").length,
      (bytes "connecting to ")[k] ≠ 0 := by decide
  have hchase : CString.copyText (s.mapped - (s.errorBegin.put (bytes "connecting to ")).wp)
      (s.errorBegin.put (bytes "connecting to ")).mem slSocket
      (s.errorBegin.put (bytes "connecting to ")).wp = none := by
    refine CString.copyText_chases (fun i hi hlt => ?_) ?_
    · change i < slError + (bytes "connecting to ").length at hlt
      show Circular.write s.mem slError (bytes "connecting to ") i ≠ 0
      by_cases hat : i < slError
      · rw [Circular.write_of_not_mem _ (.inl hat)]
        obtain ⟨k, rfl⟩ : ∃ k, i = slSocket + k := ⟨i - slSocket, by omega⟩
        have hk : k < path.length := by
          unfold slSocket slError at hat
          omega
        rw [hpath.cstr.bytes k hk]
        exact fun h0 => hpath.cstr.nonzero (h0 ▸ List.getElem_mem hk)
      · obtain ⟨k, rfl⟩ : ∃ k, i = slError + k := ⟨i - slError, by omega⟩
        have hk : k < (bytes "connecting to ").length := by omega
        rw [Circular.write_of_mem _ hk]
        exact hnul k hk
    · show slSocket < slError + (bytes "connecting to ").length
      unfold slSocket slError
      omega
  unfold exit Pen.cstr
  rw [hchase]
  rfl

/-- What a request does. -/
theorem request_eq (hpath : s.Named path) {a : Answers}
    (hfits : ∀ errno, a.ends = .connect errno → path.length < 512) :
    s.request a = some ((s.sent path a).told (a.ends.message path)) := by
  unfold request
  rw [sent_eq hpath, Option.bind_some]
  exact exit_eq (hpath.sent a) hfits

theorem request_none (hpath : s.Named path) {a : Answers} {errno : Errno}
    (ha : a.ends = .connect errno) (hlong : 512 ≤ path.length) : s.request a = none := by
  unfold request
  rw [sent_eq hpath, Option.bind_some, ha]
  exact exit_none (hpath.sent a) errno hlong

end SlotMem

end Phi.Top
