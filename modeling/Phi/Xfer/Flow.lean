import Phi.Xfer.Standing

/-!
# Phi.Xfer.Flow

What the client has sent, what it is owed, and what its session left on the
card.

The frames a client sends are those of one put or one get, as far as it has
come.  `Mine` follows them to the card and the frames of the session back, in
six stages: before the session is let in, on the way to the agent, in the
agent's loop, ended on the card, ended for the daemon.
-/

namespace Phi.Xfer

open Rpc Card Serve

/-! ## one transfer -/

def Verb.kind : Verb → Kind
  | .put .. => .put
  | .get .. => .get

/-- The name of the file on the card, as the agent reads it. -/
def Verb.path : Verb → String
  | .put _ dst _ => clipped dst
  | .get src _ => clipped src

/-- The frames of a transfer that a client has sent. -/
inductive Sent (bytes : List UInt8) : Verb → List Msg → Prop where
  | nothing {v} : Sent bytes v []
  | part {src dst o mode} (datas : List (List UInt8)) :
      Sent bytes (.put src dst o) (.putOpen dst mode :: datas.map .putData)
  | whole {src dst o mode} {datas : List (List UInt8)} : datas.flatten = bytes →
      Sent bytes (.put src dst o) (.putOpen dst mode :: (datas.map .putData ++ [.putClose]))
  | asked {src dst} : Sent bytes (.get src dst) [.get src]

/-- The bytes of the GetData frames. -/
def dataOf : List Msg → List UInt8
  | [] => []
  | .getData data :: ms => data ++ dataOf ms
  | _ :: ms => dataOf ms

@[simp] theorem dataOf_append (ms ns : List Msg) : dataOf (ms ++ ns) = dataOf ms ++ dataOf ns := by
  induction ms with
  | nil => rfl
  | cons m ms ih => cases m <;> simp [dataOf, ih]

/-- The frames other than `Stat`. -/
def ins (ms : List Msg) : List Msg := ms.filter fun m => m ≠ .stat

/-- How the last frame of the session and the card agree: an Error when a system
call failed, and else what the transfer is for. -/
def Result (v : Verb) (bytes : List UInt8) (t : Msg) (c : CardSide) : Prop :=
  (∃ text, t = .error text) ∧ c.failed = true ∨
  c.failed = false ∧ match v with
    | .put .. => t = .exit 0 ∧ c.files v.path = bytes
    | .get .. => t = .getEnd (UInt64.ofNat c.fetched.length)

/-- The client has not exited. -/
def Client.Live (x : Client) : Prop := ∀ r, x.stage ≠ .exited r

/-- What a get has written to the local file. -/
def Client.got (x : Client) : List UInt8 := x.dst.getD []

/-- The agent, unless it ended itself. -/
def System.Alive (s : System) : Prop := s.card.agent.phase ≠ .dead

/-- The agent in the loop of the session, which has taken these frames of it
after the first. -/
def Serving (v : Verb) (c : CardSide) (l : List Msg) : Prop :=
  c.failed = false ∧ match v with
    | .put .. => c.agent.phase = .put v.path ∧
        ∃ datas : List (List UInt8), l = datas.map .putData ∧ c.files v.path = datas.flatten
    | .get .. => c.agent.phase = .get v.path (UInt64.ofNat c.fetched.length)

/-- What a get has read is with the client, owed to it, or on its way. -/
def Balanced (v : Verb) (x : Client) (owed os : List Msg) (c : CardSide) : Prop :=
  v.kind = .get → c.fetched = x.got ++ dataOf owed ++ dataOf os

/-- Frames of the session before its last, each no longer than a frame may be. -/
def Own (v : Verb) (os : List Msg) : Prop :=
  ∀ o ∈ os, v.kind.own o = true ∧ o.body.length ≤ Rpc.maxFrame

/-- The stages of the session. -/
inductive Mine (v : Verb) (bytes : List UInt8) (s : System) (ms sent owed : List Msg) : Prop where
  | before (hadm : s.admitted = false) (hnone : s.ended = none)
      (hhold : ∀ k, s.holder ≠ some (true, k)) (hsent : sent = s.up)
      (hflow : s.client.Live → owed = [] ∧ s.client.dst = none)
  | asked {p q : List Msg} {m : Msg} (hadm : s.admitted = true) (hnone : s.ended = none)
      (hhold : s.holder = some (true, v.kind)) (hms : ms = p ++ m :: q)
      (hpre : Quiet p) (hpost : Quiet q) (hsent : sent = m :: (ins q ++ s.up))
      (hpend : s.pend = []) (hidle : s.Alive → s.card.agent.phase = .idle)
      (hflow : s.client.Live → owed = [] ∧ s.client.dst = none)
  | running {l : List Msg} {m : Msg} (hadm : s.admitted = true) (hnone : s.ended = none)
      (hhold : s.holder = some (true, v.kind)) (hquiet : Quiet ms)
      (hsent : sent = m :: (l ++ (ins ms ++ s.up))) (hown : Own v s.pend)
      (hserving : s.Alive → Serving v s.card l)
      (hflow : s.client.Live → Own v owed ∧ (s.Alive → Balanced v s.client owed s.pend s.card))
  | finished {l q : List Msg} {m t : Msg} (hadm : s.admitted = true) (hnone : s.ended = none)
      (hhold : s.holder = some (true, v.kind)) (hquiet : Quiet ms) (hsent : sent = m :: (l ++ s.up))
      (hpend : s.pend = q ++ [t]) (hown : Own v q) (hends : v.kind.ends t = true)
      (hresult : Result v bytes t s.card) (hidle : s.Alive → s.card.agent.phase = .idle)
      (hflow : s.client.Live → Own v owed ∧ Balanced v s.client owed q s.card)
  | after {t : Msg} {c : CardSide} (hadm : s.admitted = true) (hended : s.ended = some (t, c))
      (hhold : ∀ k, s.holder ≠ some (true, k)) (hends : v.kind.ends t = true)
      (hresult : Result v bytes t c)
      (hflow : s.client.Live → ∃ os, owed = os ++ [t] ∧ Own v os ∧ Balanced v s.client os [] c)

/-- Bytes on their way to the client are whole frames. -/
structure Owes (x : Client) (down : List UInt8) (owed : List Msg) : Prop where
  ordered : x.dec.win.head ≤ x.dec.win.tail
  fits : ∀ m ∈ owed, m.body.length ≤ Rpc.maxFrame
  carries : Carries x.dec.win down owed

/-- The client before it exits: what it has read of the file is what it sent. -/
def Stands (bytes : List UInt8) (x : Client) (sent : List Msg) : Prop :=
  match x.stage with
  | .opening => sent = [] ∧ x.file = bytes
  | .sending total => ∃ src dst o mode, ∃ datas : List (List UInt8), x.verb = .put src dst o ∧
      sent = .putOpen dst mode :: datas.map .putData ∧ datas.flatten ++ x.file = bytes ∧
      total = UInt64.ofNat datas.flatten.length
  | .waiting total => (∃ src dst o, x.verb = .put src dst o) ∧ total = UInt64.ofNat bytes.length
  | .receiving => ∃ src dst, x.verb = .get src dst
  | .exited _ => True

/-- What a client that exited says is so. -/
def Exited (v : Verb) (bytes : List UInt8) (s : System) (r : Report) : Prop :=
  match r with
  | .done total => ∃ t c, s.ended = some (t, c) ∧ c.failed = false ∧ match v with
      | .put .. => c.files v.path = bytes ∧ total = UInt64.ofNat bytes.length
      | .get .. => s.client.dst = some c.fetched ∧ total = UInt64.ofNat c.fetched.length
  | .error text => ∃ t c, s.ended = some (t, c) ∧ c.failed = true ∧ t.normal = .error text
  | .failed .. => True
  | .status _ | .unexpected _ => False

/-- What every state reached keeps. -/
structure Exact (v : Verb) (bytes : List UInt8) (s : System) (ms sent owed : List Msg) : Prop where
  base : Base s ms
  verb : s.client.verb = v
  frames : Sent bytes v sent
  fits : ∀ m ∈ s.up, m.body.length ≤ Rpc.maxFrame
  stands : Stands bytes s.client sent
  mine : Mine v bytes s ms sent owed
  owes : s.client.Live → Owes s.client s.down owed
  exited : ∀ r, s.client.stage = .exited r → Exited v bytes s r

/-! ## the frames sent -/

section

variable {v : Verb} {bytes : List UInt8} {sent l : List Msg} {m : Msg}

theorem Sent.first (h : Sent bytes v (m :: l)) :
    (∃ src dst o mode, v = .put src dst o ∧ m = .putOpen dst mode) ∨
      ∃ src dst, v = .get src dst ∧ m = .get src := by
  cases h with
  | part _ => exact .inl ⟨_, _, _, _, rfl, rfl⟩
  | whole _ => exact .inl ⟨_, _, _, _, rfl, rfl⟩
  | asked => exact .inr ⟨_, _, rfl, rfl⟩

/-- The first frame opens the session. -/
theorem Sent.opens (h : Sent bytes v (m :: l)) : opens m = some v.kind := by
  cases h <;> rfl

/-- The others open none, and are not `Stat`. -/
theorem Sent.tail (h : Sent bytes v (m :: l)) : ∀ x ∈ l, Card.opens x = none ∧ x ≠ .stat := by
  intro x hx
  cases h with
  | part datas =>
      obtain ⟨data, -, rfl⟩ := List.mem_map.mp hx
      exact ⟨rfl, nofun⟩
  | whole _ =>
      simp only [List.mem_append, List.mem_map, List.mem_singleton] at hx
      obtain ⟨data, -, rfl⟩ | rfl := hx
      · exact ⟨rfl, nofun⟩
      · exact ⟨rfl, nofun⟩
  | asked => cases hx

/-- After the data of a put comes more of it, or its end. -/
theorem Sent.next {src dst : String} {o : Option UInt32} {datas : List (List UInt8)} {x : Msg}
    (h : Sent bytes (.put src dst o) (m :: (datas.map .putData ++ x :: l))) :
    (∃ data, x = .putData data) ∨ x = .putClose ∧ l = [] ∧ datas.flatten = bytes := by
  generalize hall : datas.map Msg.putData ++ x :: l = all at h
  cases h with
  | part all =>
      left
      obtain ⟨data, -, hx⟩ := List.mem_map.mp (hall ▸ List.mem_append_right _ List.mem_cons_self)
      exact ⟨data, hx.symm⟩
  | @whole _ _ _ _ all hbytes =>
      induction datas generalizing all bytes with
      | nil =>
          cases all with
          | nil =>
              cases hall
              exact .inr ⟨rfl, rfl, hbytes⟩
          | cons d all =>
              cases hall
              exact .inl ⟨d, rfl⟩
      | cons d datas ih =>
          cases all with
          | nil => cases hall
          | cons d' all =>
              obtain ⟨hd, hrest⟩ := List.cons.inj hall
              cases hd
              obtain hdata | ⟨hx, hl, hflat⟩ := ih rfl hrest
              · exact .inl hdata
              · refine .inr ⟨hx, hl, ?_⟩
                rw [← hbytes, List.flatten_cons, List.flatten_cons, hflat]

theorem Own.append {os : List Msg} (h : Own v os) (hm : v.kind.own m = true)
    (hfit : m.body.length ≤ Rpc.maxFrame) : Own v (os ++ [m]) := by
  intro x hx
  simp only [List.mem_append, List.mem_singleton] at hx
  obtain hx | rfl := hx
  · exact h x hx
  · exact ⟨hm, hfit⟩

theorem Own.tail (h : Own v (m :: l)) : Own v l := fun x hx => h x (List.mem_cons_of_mem _ hx)

end

end Phi.Xfer
