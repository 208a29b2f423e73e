import Phi.Lib.Window
import Phi.Rpc.Stream
import Phi.Rpc.Validate

/-!
# Phi.Rpc.Decoders

The three decoders of the frame stream.

The host daemon and the card's agent cut frames out of a flat buffer that they
move to the front before a read; `phi-rpc` drains a growing vector.  On what is
buffered all three do the same: `cut` is that common turn, and each decoder
refines it.
-/

namespace Phi.Rpc

open Circular

/-! ## constants -/

def readChunk : Nat := 65536
/-- `DECCAP`, and the agent's `RXCAP`. -/
def decCap : Nat := 4 + maxFrame + readChunk

/-! ## what is reported -/

/-- A frame that decodes, or why it does not. -/
inductive Outcome where
  | frame (tag : UInt8) (body : List UInt8)
  | length (n : Nat)
  | tag (t : UInt8)
  | malformed
deriving DecidableEq

/-- The outcome for `validate`'s answer. -/
def Outcome.of (t : UInt8) (body : List UInt8) : Nat → Outcome
  | 0 => .frame t body
  | 1 => .tag t
  | _ => .malformed

/-- The same frame, or the same error. -/
def Outcome.Agrees : Outcome → Except DecodeError Msg → Prop
  | .frame t body, r => ∃ m, decodeBody t body = .ok m ∧ r = .ok m
  | .length n, r => r = .error (.length n)
  | .tag t, r => r = .error (.tag t)
  | .malformed, r => r = .error .malformed

theorem outcome_of_frame {t tag : UInt8} {b body : List UInt8} {v : Nat}
    (h : Outcome.of t b v = .frame tag body) : v = 0 ∧ t = tag ∧ b = body := by
  match v with
  | 0 =>
      cases h
      exact ⟨rfl, rfl, rfl⟩
  | 1 => cases h
  | v + 2 => cases h

/-! ## the host's decoder -/

/-- A decoder: its buffer and the capacity of it. -/
structure Dec where
  win : Window UInt8
  cap : Nat

/-- `dec_init`. -/
def Dec.init (cells : Nat → UInt8) : Dec := ⟨⟨cells, 0, 0⟩, decCap⟩

/-- `dec_space`. -/
def Dec.space (d : Dec) : Nat := d.cap - d.win.tail + d.win.head

/-- `dec_room`: what is buffered moved to the front when it does not start
there. -/
def Dec.room (d : Dec) : Dec := if d.win.head = 0 then d else { d with win := d.win.compact }

/-- `dec_push`: bytes read into the room, and `dec_advance`. -/
def Dec.push (d : Dec) (chunk : List UInt8) : Dec :=
  { d.room with win := d.room.win.append chunk }

/-- `dec_next`. -/
def Dec.next (d : Dec) : Option (Outcome × Dec) :=
  if d.win.size < 4 then none
  else
    let len := ofLe (Circular.read d.win.cells d.win.head 4)
    if len = 0 ∨ maxFrame < len then some (.length len, { d with win := d.win.clear })
    else if d.win.size < 4 + len then none
    else
      let tag := d.win.cells (d.win.head + 4)
      let body := Circular.read d.win.cells (d.win.head + 5) (len - 1)
      some (.of tag body (validate tag body), { d with win := d.win.advance (4 + len) })

/-! ## the agent's reader -/

/-- `fill`: what is buffered moved to the front, then one read appended. -/
def rxFill (w : Window UInt8) (chunk : List UInt8) : Window UInt8 :=
  let w := if w.size = 0 then w.clear else if w.head = 0 then w else w.compact
  w.append chunk

/-- One turn of the loop of `next_frame`. -/
def rxTurn (w : Window UInt8) : Option (Outcome × Window UInt8) :=
  if w.size < 4 then none
  else
    let len := ofLe (Circular.read w.cells w.head 4)
    if len = 0 ∨ maxFrame < len then some (.length len, w.clear)
    else if w.size < 4 + len then none
    else
      let tag := w.cells (w.head + 4)
      let body := Circular.read w.cells (w.head + 5) (len - 1)
      some (.of tag body (validate tag body), w.advance (4 + len))

/-- `next_frame`: frames that do not decode are logged and passed over; the
frame found, if any, and what is left. -/
def nextRxFrame : Nat → Window UInt8 →
    List (Outcome × List UInt8) × Option (UInt8 × List UInt8) × Window UInt8
  | 0, w => ([], none, w)
  | n + 1, w => match rxTurn w with
      | none => ([], none, w)
      | some (.frame tag body, w) => ([], some (tag, body), w)
      | some (o, w) =>
          let (log, found, left) := nextRxFrame n w
          ((o, w.content) :: log, found, left)

/-- Calls of `next_frame` until it finds no frame, each outcome with the bytes
buffered after it. -/
def rxFrames : Nat → Window UInt8 → List (Outcome × List UInt8) × Window UInt8
  | 0, w => ([], w)
  | n + 1, w => match nextRxFrame w.size w with
      | (log, none, left) => (log, left)
      | (log, some (tag, body), left) =>
          let (more, last) := rxFrames n left
          (log ++ (.frame tag body, left.content) :: more, last)

/-! ## the common turn -/

/-- What any of the decoders does with the bytes it has buffered. -/
def cut (bs : List UInt8) : Option (Outcome × List UInt8) :=
  if bs.length < 4 then none
  else
    let len := ofLe (bs.take 4)
    if len = 0 ∨ maxFrame < len then some (.length len, [])
    else if bs.length < 4 + len then none
    else
      let tag := bs.getD 4 0
      let body := (bs.take (4 + len)).drop 5
      some (.of tag body (validate tag body), bs.drop (4 + len))

/-- The turn of a flat buffer is the common one on what it holds. -/
theorem rxTurn_content (w : Window UInt8) :
    (rxTurn w).map (fun x => (x.1, x.2.content)) = cut w.content := by
  unfold rxTurn cut
  rw [w.length_content]
  by_cases h4 : w.size < 4
  · rw [if_pos h4, if_pos h4]
    rfl
  · have hlen : w.content.take 4 = Circular.read w.cells w.head 4 := take_read _ (by omega)
    rw [if_neg h4, if_neg h4, hlen]
    dsimp only
    generalize hn : ofLe (Circular.read w.cells w.head 4) = len
    by_cases hbad : len = 0 ∨ maxFrame < len
    · rw [if_pos hbad, if_pos hbad]
      rfl
    · rw [if_neg hbad, if_neg hbad]
      by_cases hshort : w.size < 4 + len
      · rw [if_pos hshort, if_pos hshort]
        rfl
      · have htag : w.content.getD 4 0 = w.cells (w.head + 4) := by
          unfold Window.content
          rw [List.getD_eq_getElem?_getD, getElem?_read _ (by omega)]
          rfl
        have hbody : (w.content.take (4 + len)).drop 5 =
            Circular.read w.cells (w.head + 5) (len - 1) := by
          unfold Window.content
          rw [take_read _ (by omega), drop_read]
          congr 1
          omega
        rw [if_neg hshort, if_neg hshort, htag, hbody]
        simp

/-- The host's decoder takes the same turn. -/
theorem Dec.next_eq (d : Dec) :
    d.next = (rxTurn d.win).map fun x => (x.1, { d with win := x.2 }) := by
  unfold Dec.next rxTurn
  dsimp only
  split
  · rfl
  · split
    · rfl
    · split
      · rfl
      · rfl

/-- `phi-rpc` takes the common turn, and makes a message of each frame. -/
theorem decoderNext_cut (bs : List UInt8) :
    (cut bs = none ∧ decoderNext bs = none) ∨ ∃ o rest r, cut bs = some (o, rest) ∧
      decoderNext bs = some (r, rest) ∧ o.Agrees r := by
  unfold cut
  by_cases h4 : bs.length < 4
  · rw [if_pos h4]
    exact .inl ⟨rfl, decoderNext_short h4⟩
  · rw [if_neg h4]
    dsimp only
    by_cases hbad : ofLe (bs.take 4) = 0 ∨ maxFrame < ofLe (bs.take 4)
    · rw [if_pos hbad]
      exact .inr ⟨_, _, _, rfl, decoderNext_badLength (by omega) hbad, rfl⟩
    · rw [if_neg hbad, decoderNext_eq rfl (by omega) (by omega) (by omega)]
      by_cases hshort : bs.length < 4 + ofLe (bs.take 4)
      · rw [if_pos hshort, if_pos hshort]
        exact .inl ⟨rfl, rfl⟩
      · rw [if_neg hshort, if_neg hshort]
        refine .inr ⟨_, _, _, rfl, rfl, ?_⟩
        generalize bs.getD 4 0 = tag
        generalize (bs.take (4 + ofLe (bs.take 4))).drop 5 = body
        obtain ⟨hv, m, hm⟩ | ⟨hv, hm⟩ | ⟨hv, hm⟩ := decodeBody_of_validate tag body
        · rw [hv]
          exact ⟨m, hm, hm⟩
        · rw [hv]
          exact hm
        · rw [hv]
          exact hm

/-- A turn takes bytes off. -/
theorem cut_shrinks {bs rest : List UInt8} {o : Outcome} (h : cut bs = some (o, rest)) :
    rest.length < bs.length := by
  unfold cut at h
  split at h
  · cases h
  · dsimp only at h
    split at h
    · cases h
      rw [List.length_nil]
      omega
    · split at h
      · cases h
      · cases h
        rw [List.length_drop]
        omega

/-- What is left when no frame is whole is less than one. -/
theorem length_of_cut_none {bs : List UInt8} (h : cut bs = none) : bs.length < 4 + maxFrame := by
  unfold cut at h
  split at h
  · omega
  · dsimp only at h
    split at h
    · cases h
    · next hgood =>
        split at h
        · omega
        · cases h

/-! ## the bytes that arrive -/

/-- Each outcome comes with the bytes buffered after it. -/
def hostIntake : Intake Dec (Outcome × List UInt8) UInt8 where
  push := Dec.push
  next d := d.next.map fun x => ((x.1, x.2.win.content), x.2)
  size d := d.win.size

def rxIntake : Intake (Window UInt8) (Outcome × List UInt8) UInt8 where
  push := rxFill
  next w := (rxTurn w).map fun x => ((x.1, x.2.content), x.2)
  size w := w.size

def rustIntake : Intake (List UInt8) (Except DecodeError Msg × List UInt8) UInt8 :=
  listIntake fun bs => (decoderNext bs).map fun x => (x, x.2)

/-- The agent between two reads: calls of `next_frame` until none is found,
then the next read. -/
def rxFeed : Window UInt8 → List (List UInt8) → List (Outcome × List UInt8) × Window UInt8
  | w, [] => ([], w)
  | w, c :: cs =>
      let (es, left) := rxFrames (rxFill w c).size (rxFill w c)
      let (fs, last) := rxFeed left cs
      (es ++ fs, last)

/-! ## the three together -/

theorem rxIntake_next {w : Window UInt8} :
    rxIntake.next w = none ↔ cut w.content = none := by
  rw [← rxTurn_content]
  show Option.map _ (rxTurn w) = none ↔ Option.map _ (rxTurn w) = none
  rw [Option.map_eq_none_iff, Option.map_eq_none_iff]

theorem rxIntake_next_some {w w' : Window UInt8} {e : Outcome × List UInt8}
    (h : rxIntake.next w = some (e, w')) :
    rxTurn w = some (e.1, w') ∧ e.2 = w'.content ∧ cut w.content = some (e.1, w'.content) := by
  obtain ⟨⟨o, v⟩, hturn, heq⟩ := Option.map_eq_some_iff.mp h
  cases heq
  refine ⟨hturn, rfl, ?_⟩
  rw [← rxTurn_content, hturn]
  rfl

theorem rxIntake_shrinks : rxIntake.Shrinks := by
  intro w e w' h
  have hcut := cut_shrinks (rxIntake_next_some h).2.2
  rwa [Window.length_content, Window.length_content] at hcut

/-- The head never passes the tail. -/
theorem rxTurn_ordered {w w' : Window UInt8} {o : Outcome} (hw : w.head ≤ w.tail)
    (h : rxTurn w = some (o, w')) : w'.head ≤ w'.tail := by
  unfold rxTurn at h
  split at h
  · cases h
  · dsimp only at h
    split at h
    · cases h
      exact Nat.le_refl 0
    · split at h
      · cases h
      · next hwhole =>
          cases h
          show w.head + _ ≤ w.tail
          unfold Window.size at hwhole
          omega

/-- The host's decoder cuts what the common turn does. -/
theorem decNext_of_cut {d : Dec} {o : Outcome} {rest : List UInt8}
    (h : cut d.win.content = some (o, rest)) :
    ∃ d', d.next = some (o, d') ∧ d'.win.content = rest ∧ d'.cap = d.cap := by
  rw [← rxTurn_content] at h
  obtain ⟨⟨o', w⟩, hturn, heq⟩ := Option.map_eq_some_iff.mp h
  cases heq
  exact ⟨{ d with win := w }, by rw [Dec.next_eq, hturn]; rfl, rfl, rfl⟩

/-- The head of the host's decoder never passes the tail. -/
theorem decNext_ordered {d d' : Dec} {o : Outcome} (hd : d.win.head ≤ d.win.tail)
    (h : d.next = some (o, d')) : d'.win.head ≤ d'.win.tail := by
  rw [Dec.next_eq] at h
  obtain ⟨⟨o', w⟩, hturn, heq⟩ := Option.map_eq_some_iff.mp h
  cases heq
  exact rxTurn_ordered hd hturn

/-- The tail never moves on. -/
theorem rxTurn_tail {w w' : Window UInt8} {o : Outcome} (h : rxTurn w = some (o, w')) :
    w'.tail ≤ w.tail := by
  unfold rxTurn at h
  split at h
  · cases h
  · dsimp only at h
    split at h
    · cases h
      exact Nat.zero_le _
    · split at h
      · cases h
      · cases h
        exact Nat.le_refl _

/-- A frame cut leaves the window behind it. -/
theorem rxTurn_frame {w w' : Window UInt8} {tag : UInt8} {body : List UInt8}
    (h : rxTurn w = some (.frame tag body, w')) : w' = w.advance (body.length + 5) := by
  unfold rxTurn at h
  split at h
  · cases h
  · dsimp only at h
    split at h
    · cases h
    · next hgood =>
        split at h
        · cases h
        · obtain ⟨hof, hw⟩ := Prod.mk.inj (Option.some.inj h)
          obtain ⟨-, -, hbody⟩ := outcome_of_frame hof
          rw [← hw, ← hbody, Circular.length_read]
          congr 1
          omega

theorem rxFill_content {w : Window UInt8} (hw : w.head ≤ w.tail) (chunk : List UInt8) :
    (rxFill w chunk).content = w.content ++ chunk ∧
      (rxFill w chunk).head ≤ (rxFill w chunk).tail := by
  have happend : ∀ v : Window UInt8, v.head ≤ v.tail →
      (v.append chunk).content = v.content ++ chunk ∧
        (v.append chunk).head ≤ (v.append chunk).tail := by
    intro v hv
    refine ⟨Window.content_append hv chunk, ?_⟩
    show v.head ≤ v.tail + chunk.length
    omega
  unfold rxFill
  by_cases hempty : w.size = 0
  · rw [if_pos hempty]
    have h := happend w.clear (Nat.le_refl 0)
    rwa [Window.content_clear, ← Window.content_eq_nil_iff.mpr hempty] at h
  · rw [if_neg hempty]
    by_cases hhead : w.head = 0
    · rw [if_pos hhead]
      exact happend w hw
    · rw [if_neg hhead]
      have h := happend w.compact (Nat.zero_le _)
      rwa [Window.content_compact] at h

theorem Dec.push_content {d : Dec} (hd : d.win.head ≤ d.win.tail) (chunk : List UInt8) :
    (d.push chunk).win.content = d.win.content ++ chunk ∧
      (d.push chunk).win.head ≤ (d.push chunk).win.tail := by
  have hroom : d.room.win.content = d.win.content ∧ d.room.win.head ≤ d.room.win.tail := by
    unfold Dec.room
    split
    · exact ⟨rfl, hd⟩
    · exact ⟨Window.content_compact _, Nat.zero_le _⟩
  unfold Dec.push
  refine ⟨?_, ?_⟩
  · rw [← hroom.1]
    exact Window.content_append hroom.2 chunk
  · have h := hroom.2
    show d.room.win.head ≤ d.room.win.tail + chunk.length
    omega

/-- What is buffered when no frame is whole. -/
theorem Dec.size_lt_of_next_none {d : Dec} (h : d.next = none) : d.win.size < 4 + maxFrame := by
  rw [Dec.next_eq, Option.map_eq_none_iff] at h
  have hcut : cut d.win.content = none := by
    rw [← rxTurn_content, h]
    rfl
  have hlt := length_of_cut_none hcut
  rwa [Window.length_content] at hlt

theorem Dec.push_tail {d : Dec} (hd : d.win.head ≤ d.win.tail) (chunk : List UInt8) :
    (d.push chunk).win.tail = d.win.size + chunk.length := by
  unfold Dec.push Dec.room Window.append
  split
  · next hhead =>
      unfold Window.size
      dsimp only
      omega
  · rfl

/-- A read of at most `readChunk` bytes never passes the end of the buffer. -/
theorem Dec.push_fits {d : Dec} (hd : d.win.head ≤ d.win.tail) (hnone : d.next = none)
    {chunk : List UInt8} (hc : chunk.length ≤ readChunk) : (d.push chunk).win.tail ≤ decCap := by
  have hlt := Dec.size_lt_of_next_none hnone
  rw [Dec.push_tail hd]
  unfold decCap
  omega

theorem rxFill_fits {w : Window UInt8} (hw : w.head ≤ w.tail) (hnone : rxTurn w = none)
    {chunk : List UInt8} (hc : chunk.length ≤ readChunk) : (rxFill w chunk).tail ≤ decCap := by
  have hlt : w.size < 4 + maxFrame :=
    Dec.size_lt_of_next_none (d := ⟨w, decCap⟩) (by rw [Dec.next_eq, hnone]; rfl)
  have htail : (rxFill w chunk).tail = w.size + chunk.length := by
    unfold rxFill Window.append
    split
    · next hempty =>
        rw [hempty]
        rfl
    · split
      · next hhead =>
          unfold Window.size
          dsimp only
          omega
      · rfl
  rw [htail]
  unfold decCap
  omega

/-- A call of `next_frame` takes the turns up to a frame, or all of them. -/
theorem drain_nextRxFrame {n : Nat} {w : Window UInt8} (h : w.size ≤ n) :
    rxIntake.drain w = match nextRxFrame n w with
      | (log, none, left) => (log, left)
      | (log, some (tag, body), left) =>
          (log ++ (.frame tag body, left.content) :: (rxIntake.drain left).1,
            (rxIntake.drain left).2) := by
  induction n generalizing w with
  | zero =>
      have hnone : rxIntake.next w = none := by
        cases hnext : rxIntake.next w with
        | none => rfl
        | some x =>
            have hlt : x.2.size < w.size := rxIntake_shrinks w x.1 x.2 hnext
            omega
      rw [Intake.drain_of_none hnone]
      rfl
  | succ n ih =>
      unfold nextRxFrame
      cases hturn : rxTurn w with
      | none =>
          have hnone : rxIntake.next w = none := congrArg (Option.map _) hturn
          rw [Intake.drain_of_none hnone]
      | some x =>
          obtain ⟨o, v⟩ := x
          have hsome : rxIntake.next w = some ((o, v.content), v) := congrArg (Option.map _) hturn
          have hlt : v.size < w.size := rxIntake_shrinks w _ v hsome
          rw [Intake.drain_of_some rxIntake_shrinks hsome]
          have hmore := ih (w := v) (by omega)
          cases o with
          | frame tag body => rfl
          | length _ | tag _ | malformed =>
              dsimp only
              rw [hmore]
              generalize nextRxFrame n v = r
              obtain ⟨log, found | ⟨tag, body⟩, left⟩ := r
              · rfl
              · rfl

theorem nextRxFrame_shrinks {n : Nat} {w left : Window UInt8} {log : List (Outcome × List UInt8)}
    {f : UInt8 × List UInt8} (h : nextRxFrame n w = (log, some f, left)) : left.size < w.size := by
  induction n generalizing w log with
  | zero => cases h
  | succ n ih =>
      unfold nextRxFrame at h
      cases hturn : rxTurn w with
      | none =>
          rw [hturn] at h
          cases h
      | some x =>
          obtain ⟨o, v⟩ := x
          have hlt : v.size < w.size :=
            rxIntake_shrinks w (o, v.content) v (congrArg (Option.map _) hturn)
          rw [hturn] at h
          cases o with
          | frame tag body =>
              cases h
              exact hlt
          | length _ | tag _ | malformed =>
              dsimp only at h
              generalize hr : nextRxFrame n v = r at h
              obtain ⟨log', found, left'⟩ := r
              cases h
              exact Nat.lt_trans (ih hr) hlt

/-- The agent's calls of `next_frame` take the turns one by one. -/
theorem rxFrames_eq {n : Nat} {w : Window UInt8} (h : w.size ≤ n) :
    rxFrames n w = rxIntake.drain w := by
  induction n generalizing w with
  | zero =>
      have hdrain := drain_nextRxFrame h
      rw [hdrain]
      rfl
  | succ n ih =>
      unfold rxFrames
      rw [drain_nextRxFrame (Nat.le_refl w.size)]
      cases hr : nextRxFrame w.size w with
      | mk log r =>
          obtain ⟨_ | ⟨tag, body⟩, left⟩ := r
          · rfl
          · have hlt := nextRxFrame_shrinks hr
            dsimp only
            rw [ih (by omega)]

theorem rxFeed_eq (w : Window UInt8) (chunks : List (List UInt8)) :
    rxFeed w chunks = rxIntake.feed w chunks := by
  induction chunks generalizing w with
  | nil => rfl
  | cons c cs ih =>
      unfold rxFeed Intake.feed
      rw [rxFrames_eq (Nat.le_refl _)]
      dsimp only
      rw [ih]
      rfl

/-! ## each refines the common turn -/

/-- The common turn, over the bytes themselves. -/
def cutIntake : Intake (List UInt8) (Outcome × List UInt8) UInt8 :=
  listIntake fun bs => (cut bs).map fun x => (x, x.2)

theorem cutIntake_shrinks : cutIntake.Shrinks := by
  intro bs e rest h
  obtain ⟨⟨o, r⟩, hcut, heq⟩ := Option.map_eq_some_iff.mp h
  cases heq
  exact cut_shrinks hcut

theorem rustIntake_shrinks : rustIntake.Shrinks := by
  intro bs e rest h
  obtain ⟨⟨r, left⟩, hnext, heq⟩ := Option.map_eq_some_iff.mp h
  cases heq
  exact decoder_shrinks bs r left hnext

/-- What a window holds, in order. -/
def Holds (w : Window UInt8) (bs : List UInt8) : Prop := w.content = bs ∧ w.head ≤ w.tail

theorem rx_simulates : Intake.Simulates rxIntake cutIntake Holds Eq fun _ => True where
  push := by
    rintro w bs c ⟨rfl, hw⟩ - -
    exact rxFill_content hw c
  idle := by
    rintro w bs ⟨rfl, hw⟩ hnone
    exact congrArg (Option.map _) (rxIntake_next.mp hnone)
  item := by
    rintro w bs e w' ⟨rfl, hw⟩ hsome
    obtain ⟨hturn, hleft, hcut⟩ := rxIntake_next_some hsome
    refine ⟨(e.1, w'.content), w'.content, congrArg (Option.map _) hcut, ?_, rfl,
      rxTurn_ordered hw hturn⟩
    rw [← hleft]

theorem host_simulates :
    Intake.Simulates hostIntake cutIntake (fun d => Holds d.win) Eq fun _ => True where
  push := by
    rintro d bs c ⟨rfl, hd⟩ - -
    exact Dec.push_content hd c
  idle := by
    intro d bs hd hnone
    refine rx_simulates.idle hd ?_
    have hnext := Option.map_eq_none_iff.mp hnone
    rw [Dec.next_eq, Option.map_eq_none_iff] at hnext
    exact congrArg (Option.map _) hnext
  item := by
    intro d bs e d' hd hsome
    obtain ⟨⟨o, d''⟩, hnext, heq⟩ := Option.map_eq_some_iff.mp hsome
    cases heq
    rw [Dec.next_eq] at hnext
    obtain ⟨⟨o', v⟩, hturn, heq⟩ := Option.map_eq_some_iff.mp hnext
    cases heq
    exact rx_simulates.item hd (congrArg (Option.map _) hturn)

theorem hostIntake_shrinks : hostIntake.Shrinks := by
  intro d e d' h
  obtain ⟨⟨o, d''⟩, hnext, heq⟩ := Option.map_eq_some_iff.mp h
  cases heq
  rw [Dec.next_eq] at hnext
  obtain ⟨⟨o', v⟩, hturn, heq⟩ := Option.map_eq_some_iff.mp hnext
  cases heq
  exact rxIntake_shrinks d.win _ v (congrArg (Option.map _) hturn)

/-- The same frame or error, with the same bytes left. -/
def Same (e : Outcome × List UInt8) (f : Except DecodeError Msg × List UInt8) : Prop :=
  e.1.Agrees f.1 ∧ e.2 = f.2

theorem rust_simulates : Intake.Simulates cutIntake rustIntake Eq Same fun _ => True where
  push := by
    rintro bs _ c rfl - -
    rfl
  idle := by
    rintro bs _ rfl hnone
    obtain ⟨-, hrust⟩ | ⟨o, rest, r, hcut, -⟩ := decoderNext_cut bs
    · exact congrArg (Option.map _) hrust
    · have hno := Option.map_eq_none_iff.mp hnone
      rw [hcut] at hno
      cases hno
  item := by
    rintro bs _ e bs' rfl hsome
    obtain ⟨⟨o, rest⟩, hcut, heq⟩ := Option.map_eq_some_iff.mp hsome
    cases heq
    obtain ⟨hnone, -⟩ | ⟨o', rest', r, hcut', hrust, hagree⟩ := decoderNext_cut bs
    · rw [hnone] at hcut
      cases hcut
    · rw [hcut'] at hcut
      cases hcut
      exact ⟨(r, rest), rest, congrArg (Option.map _) hrust, ⟨hagree, rfl⟩, rfl⟩

/-- **The three decoders agree**, whatever the bytes and however they are cut:
the same frames and errors in the same places, each after the same bytes. -/
theorem decoders_agree (cells rxCells : Nat → UInt8) (chunks : List (List UInt8)) :
    (hostIntake.feed (Dec.init cells) chunks).1 = (rxFeed ⟨rxCells, 0, 0⟩ chunks).1 ∧
      List.Forall₂ Same (hostIntake.feed (Dec.init cells) chunks).1
        (rustIntake.feed [] chunks).1 ∧
      (hostIntake.feed (Dec.init cells) chunks).2.win.content =
        (rxFeed ⟨rxCells, 0, 0⟩ chunks).2.content ∧
      (hostIntake.feed (Dec.init cells) chunks).2.win.content = (rustIntake.feed [] chunks).2 := by
  have hempty : cutIntake.next [] = none := rfl
  obtain ⟨hhost, hhostLeft, -⟩ := host_simulates.feed hostIntake_shrinks cutIntake_shrinks
    (s := Dec.init cells) (t := []) ⟨rfl, Nat.le_refl 0⟩ rfl
    fun c (_ : c ∈ chunks) => trivial
  obtain ⟨hrx, hrxLeft, -⟩ := rx_simulates.feed rxIntake_shrinks cutIntake_shrinks
    (s := ⟨rxCells, 0, 0⟩) (t := []) ⟨rfl, Nat.le_refl 0⟩ rfl
    fun c (_ : c ∈ chunks) => trivial
  obtain ⟨hrust, hrustLeft⟩ := rust_simulates.feed cutIntake_shrinks rustIntake_shrinks
    (s := []) (t := []) rfl hempty
    fun c (_ : c ∈ chunks) => trivial
  rw [List.forall₂_eq_eq_eq] at hhost hrx
  rw [rxFeed_eq, hhost, hrx, hhostLeft, hrxLeft]
  exact ⟨rfl, hrust, rfl, hrustLeft⟩

end Phi.Rpc
