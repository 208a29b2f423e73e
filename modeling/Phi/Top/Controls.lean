import Phi.Lib.Run

/-!
# Phi.Top.Controls

The controls of `phitop` (`interactive` of `main.S`): the interval between
samples, the card in focus and the time the next sample is due.

The loop takes one turn after another.  A turn reads the clock; if the next
sample is due it polls the cards and sets the time of the one after, else it
waits for a key.  Words are 64 bits wide, and the sums of the handler are
clamped once they are made.
-/

namespace Phi.Top

/-! ## the loop -/

/-- What `interactive` keeps, with the kernel's clock in nanoseconds. -/
structure Controls where
  interval : UInt64
  nslots : UInt64
  focus : UInt64
  haveFocus : Bool
  sortMem : Bool
  showKthreads : Bool
  next : UInt64
  clock : Nat

/-- `now_ms`, of seconds and nanoseconds. -/
def nowMs (ns : Nat) : UInt64 :=
  UInt64.ofNat (ns % 1000000000) / 1000000 + UInt64.ofNat (ns / 1000000000) * 1000

/-- The interval clamped to 0.2 .. 60 s. -/
def clampInterval (interval : UInt64) : UInt64 :=
  let interval := if 200 ≤ interval then interval else 200
  if interval ≤ 60000 then interval else 60000

/-- `poll_all` and `draw` up to the time `after`, and the time of the next sample. -/
def Controls.sample (c : Controls) (after : Nat) : Controls :=
  let next := c.next + c.interval
  { c with clock := after, next := if nowMs after ≤ next then next else nowMs after }

/-- `_start` with the options read, and `interactive` before its first sample. -/
def Controls.start (interval nslots : UInt64) (showKthreads : Bool) (now : Nat) : Controls where
  interval := clampInterval interval
  nslots := nslots
  focus := 0
  haveFocus := nslots == 1
  sortMem := false
  showKthreads := showKthreads
  next := nowMs now
  clock := now

/-- The byte of a key. -/
def code (key : Char) : UInt8 := UInt8.ofNat key.toNat

/-- What a key does; `none` where the loop is left. -/
def Controls.press (c : Controls) (key : UInt8) : Option Controls :=
  if key = code 'q' ∨ key = 3 then none
  else if key = code 'c' then some { c with sortMem := false }
  else if key = code 'm' then some { c with sortMem := true }
  else if key = code 'k' then some { c with showKthreads := !c.showKthreads }
  else if key = code '+' ∨ key = code '=' then
    let interval := c.interval + 500
    some { c with interval := if interval ≤ 60000 then interval else 60000 }
  else if key = code '-' then
    let interval := c.interval - 500
    some { c with interval := if 250 ≤ interval then interval else 250 }
  else if c.nslots ≤ 1 then some c
  else if key = code 'n' then
    if c.haveFocus = false then some { c with focus := 0, haveFocus := true }
    else
      let focus := c.focus + 1
      some { c with focus := if focus < c.nslots then focus else 0 }
  else if key = code 'p' then
    if c.haveFocus = false then some { c with focus := c.nslots - 1, haveFocus := true }
    else some { c with focus := (if c.focus ≠ 0 then c.focus else c.nslots) - 1 }
  else if key = code 'a' then some { c with haveFocus := false }
  else some c

/-- What a turn of the loop meets: a signal that stops it, the clock before and
after a sample, and the key that comes while it waits. -/
structure Turn where
  stop : Bool
  now : Nat
  after : Nat
  key : Option UInt8

/-- One turn of the loop; `none` where it is left. -/
def Controls.turn (c : Controls) (t : Turn) : Option Controls :=
  if t.stop = true then none
  else if c.next ≤ nowMs t.now then some (c.sample t.after)
  else
    match t.key with
    | none => some { c with clock := t.now }
    | some key => { c with clock := t.now }.press key

/-- A turn of a loop that may have been left. -/
def turns (s : Option Controls) (t : Turn) : Option Controls := s.bind fun c => c.turn t

/-! ## in range -/

/-- The interval and the focus are in range. -/
structure Controls.InRange (c : Controls) : Prop where
  least : 200 ≤ c.interval.toNat
  most : c.interval.toNat ≤ 60000
  focus : c.focus.toNat < c.nslots.toNat

theorem clampInterval_range (interval : UInt64) :
    200 ≤ (clampInterval interval).toNat ∧ (clampInterval interval).toNat ≤ 60000 := by
  unfold clampInterval
  dsimp only
  split <;> split <;> simp_all [UInt64.le_iff_toNat_le] <;> omega

/-- Half a second more stays in range. -/
theorem raise_range {interval : UInt64} (hleast : 200 ≤ interval.toNat)
    (hmost : interval.toNat ≤ 60000) :
    200 ≤ (if interval + 500 ≤ 60000 then interval + 500 else 60000).toNat ∧
      (if interval + 500 ≤ 60000 then interval + 500 else 60000).toNat ≤ 60000 := by
  have hsum : (interval + 500).toNat = interval.toNat + 500 := by
    rw [UInt64.toNat_add]
    exact Nat.mod_eq_of_lt (by simp; omega)
  split
  · next h =>
      have hle : (interval + 500).toNat ≤ 60000 := UInt64.le_iff_toNat_le.mp h
      omega
  · exact ⟨by decide, by decide⟩

/-- Half a second less stays in range exactly where there is half a second to
take: below, the difference wraps and is not seen to be small. -/
theorem lower_range_iff {interval : UInt64} (hmost : interval.toNat ≤ 60000) :
    (200 ≤ (if 250 ≤ interval - 500 then interval - 500 else 250).toNat ∧
      (if 250 ≤ interval - 500 then interval - 500 else 250).toNat ≤ 60000) ↔
      500 ≤ interval.toNat := by
  have hdiff : (interval - 500).toNat = (2 ^ 64 - 500 + interval.toNat) % 2 ^ 64 :=
    UInt64.toNat_sub ..
  by_cases hfive : 500 ≤ interval.toNat
  · refine iff_of_true ?_ hfive
    split
    · next h =>
        have hle : 250 ≤ (interval - 500).toNat := UInt64.le_iff_toNat_le.mp h
        omega
    · exact ⟨by decide, by decide⟩
  · refine iff_of_false (fun h => ?_) hfive
    have hbig : 250 ≤ interval - 500 := UInt64.le_iff_toNat_le.mpr (by
      show 250 ≤ (interval - 500).toNat
      omega)
    rw [if_pos hbig] at h
    omega

/-- The focus that 'n' and 'p' set. -/
theorem next_focus (focus : UInt64) {nslots : UInt64} (hmany : ¬ nslots ≤ 1) :
    (if focus + 1 < nslots then focus + 1 else 0).toNat < nslots.toNat := by
  split
  · next h => exact UInt64.lt_iff_toNat_lt.mp h
  · have hlt : 1 < nslots.toNat := Nat.lt_of_not_le fun hle =>
      hmany (UInt64.le_iff_toNat_le.mpr hle)
    show 0 < nslots.toNat
    omega

theorem previous_focus (focus : UInt64) {nslots : UInt64} (h : focus.toNat < nslots.toNat) :
    ((if focus ≠ 0 then focus else nslots) - 1).toNat < nslots.toNat := by
  have hpred : ∀ {n : UInt64}, n ≠ 0 → (n - 1).toNat < n.toNat := fun {n} hn => by
    have hpos : 0 < n.toNat := Nat.pos_of_ne_zero fun hzero => hn (UInt64.toNat_inj.mp hzero)
    have hone : (1 : UInt64) ≤ n := UInt64.le_iff_toNat_le.mpr hpos
    rw [UInt64.toNat_sub_of_le _ _ hone]
    exact Nat.sub_lt hpos Nat.one_pos
  split
  · next hne => exact Nat.lt_trans (hpred hne) h
  · exact hpred fun hzero => by simp [hzero] at h

/-- The interval is `interval`, the focus one of the slots, and the times are as
they were. -/
def Controls.Changed (c : Controls) (interval : UInt64) (d : Controls) : Prop :=
  ∃ focus haveFocus sortMem showKthreads,
    d = { c with interval, focus, haveFocus, sortMem, showKthreads } ∧
      focus.toNat < c.nslots.toNat

theorem changed {c d : Controls} {interval focus : UInt64} {haveFocus sortMem showKthreads : Bool}
    (hlt : focus.toNat < c.nslots.toNat)
    (h : some { c with interval, focus, haveFocus, sortMem, showKthreads } = some d) :
    c.Changed interval d :=
  ⟨focus, haveFocus, sortMem, showKthreads, (Option.some.inj h).symm, hlt⟩

theorem Controls.Changed.inRange_iff {c d : Controls} {interval : UInt64}
    (h : c.Changed interval d) :
    d.InRange ↔ 200 ≤ interval.toNat ∧ interval.toNat ≤ 60000 := by
  obtain ⟨focus, haveFocus, sortMem, showKthreads, rfl, hlt⟩ := h
  exact ⟨fun hd => ⟨hd.least, hd.most⟩, fun hd => ⟨hd.1, hd.2, hlt⟩⟩

/-- What a key changes. -/
theorem press_cases {c d : Controls} {key : UInt8} (hfocus : c.focus.toNat < c.nslots.toNat)
    (h : c.press key = some d) :
    (key ≠ code '-' ∧ c.Changed c.interval d) ∨
      (key ≠ code '-' ∧
        c.Changed (if c.interval + 500 ≤ 60000 then c.interval + 500 else 60000) d) ∨
      (key = code '-' ∧
        c.Changed (if 250 ≤ c.interval - 500 then c.interval - 500 else 250) d) := by
  have hsome : 0 < c.nslots.toNat := Nat.lt_of_le_of_lt (Nat.zero_le _) hfocus
  rw [Controls.press] at h
  by_cases hq : key = code 'q' ∨ key = 3
  · rw [if_pos hq] at h
    exact nomatch h
  rw [if_neg hq] at h
  by_cases hc : key = code 'c'
  · rw [if_pos hc] at h
    exact .inl ⟨by rw [hc]; decide, changed hfocus h⟩
  rw [if_neg hc] at h
  by_cases hm : key = code 'm'
  · rw [if_pos hm] at h
    exact .inl ⟨by rw [hm]; decide, changed hfocus h⟩
  rw [if_neg hm] at h
  by_cases hk : key = code 'k'
  · rw [if_pos hk] at h
    exact .inl ⟨by rw [hk]; decide, changed hfocus h⟩
  rw [if_neg hk] at h
  by_cases hplus : key = code '+' ∨ key = code '='
  · rw [if_pos hplus] at h
    have hminus : key ≠ code '-' := by rcases hplus with hkey | hkey <;> rw [hkey] <;> decide
    exact .inr (.inl ⟨hminus, changed hfocus h⟩)
  rw [if_neg hplus] at h
  by_cases hminus : key = code '-'
  · rw [if_pos hminus] at h
    exact .inr (.inr ⟨hminus, changed hfocus h⟩)
  rw [if_neg hminus] at h
  by_cases hone : c.nslots ≤ 1
  · rw [if_pos hone] at h
    exact .inl ⟨hminus, changed hfocus h⟩
  rw [if_neg hone] at h
  by_cases hn : key = code 'n'
  · rw [if_pos hn] at h
    by_cases hall : c.haveFocus = false
    · rw [if_pos hall] at h
      have hzero : (0 : UInt64).toNat < c.nslots.toNat := hsome
      exact .inl ⟨hminus, changed hzero h⟩
    · rw [if_neg hall] at h
      exact .inl ⟨hminus, changed (next_focus c.focus hone) h⟩
  rw [if_neg hn] at h
  by_cases hp : key = code 'p'
  · rw [if_pos hp] at h
    by_cases hall : c.haveFocus = false
    · rw [if_pos hall] at h
      exact .inl ⟨hminus, changed (previous_focus 0 hsome) h⟩
    · rw [if_neg hall] at h
      exact .inl ⟨hminus, changed (previous_focus c.focus hfocus) h⟩
  rw [if_neg hp] at h
  by_cases ha : key = code 'a'
  · rw [if_pos ha] at h
    exact .inl ⟨hminus, changed hfocus h⟩
  · rw [if_neg ha] at h
    exact .inl ⟨hminus, changed hfocus h⟩

/-- A key keeps the controls in range unless it takes half a second from less. -/
theorem press_inRange_iff {c d : Controls} {key : UInt8} (hr : c.InRange)
    (h : c.press key = some d) :
    d.InRange ↔ (key = code '-' → 500 ≤ c.interval.toNat) := by
  obtain ⟨hkey, hd⟩ | ⟨hkey, hd⟩ | ⟨hkey, hd⟩ := press_cases hr.focus h
  · rw [hd.inRange_iff]
    exact iff_of_true ⟨hr.least, hr.most⟩ fun hminus => absurd hminus hkey
  · rw [hd.inRange_iff]
    exact iff_of_true (raise_range hr.least hr.most) fun hminus => absurd hminus hkey
  · rw [hd.inRange_iff, lower_range_iff hr.most]
    exact ⟨fun hfive _ => hfive, fun hfive => hfive hkey⟩

/-! ## in time -/

/-- The kernel's clock counts nanoseconds in 63 bits. -/
theorem nowMs_toNat {ns : Nat} (h : ns < 2 ^ 63) : (nowMs ns).toNat = ns / 1000000 := by
  have hsec : (UInt64.ofNat (ns / 1000000000)).toNat = ns / 1000000000 :=
    UInt64.toNat_ofNat_of_lt' (by show _ < 2 ^ 64; omega)
  have hnsec : (UInt64.ofNat (ns % 1000000000)).toNat = ns % 1000000000 :=
    UInt64.toNat_ofNat_of_lt' (by show _ < 2 ^ 64; omega)
  rw [nowMs, UInt64.toNat_add, UInt64.toNat_div, UInt64.toNat_mul, hsec, hnsec]
  show (ns % 1000000000 / 1000000 + ns / 1000000000 * 1000 % 2 ^ 64) % 2 ^ 64 = _
  omega

/-- The next sample after one that was due at `c.next`: an interval after that, or
at once where the sample took longer, and in any case no more than an interval
from now. -/
structure Due (c d : Controls) : Prop where
  kept : (nowMs d.clock).toNat ≤ c.next.toNat + c.interval.toNat →
    d.next.toNat = c.next.toNat + c.interval.toNat
  late : c.next.toNat + c.interval.toNat < (nowMs d.clock).toNat → d.next = nowMs d.clock
  within : d.next.toNat ≤ (nowMs d.clock).toNat + c.interval.toNat

/-- What holds between turns: the next sample is due within a minute. -/
structure Controls.Sane (c : Controls) : Prop where
  range : c.InRange
  clock : c.clock < 2 ^ 63
  soon : c.next.toNat ≤ c.clock / 1000000 + 60000

theorem sample_due {c : Controls} {now after : Nat} (hs : c.Sane) (hnow : now ≤ after)
    (hafter : after < 2 ^ 63) (hdue : c.next ≤ nowMs now) :
    Due c (c.sample after) ∧ (c.sample after).Sane := by
  have hlast : (nowMs after).toNat = after / 1000000 := nowMs_toNat hafter
  have hpast : c.next.toNat ≤ now / 1000000 := by
    rw [← nowMs_toNat (Nat.lt_of_le_of_lt hnow hafter)]
    exact UInt64.le_iff_toNat_le.mp hdue
  have hmost := hs.range.most
  have hmono : now / 1000000 ≤ after / 1000000 := Nat.div_le_div_right hnow
  have hsum : (c.next + c.interval).toNat = c.next.toNat + c.interval.toNat := by
    rw [UInt64.toNat_add]
    exact Nat.mod_eq_of_lt (by omega)
  have hclock : (c.sample after).clock = after := rfl
  have hnext : (c.sample after).next =
      if nowMs after ≤ c.next + c.interval then c.next + c.interval else nowMs after := rfl
  have hle : nowMs after ≤ c.next + c.interval ↔
      after / 1000000 ≤ c.next.toNat + c.interval.toNat := by
    rw [UInt64.le_iff_toNat_le, hlast, hsum]
  refine ⟨⟨fun h => ?_, fun h => ?_, ?_⟩, ⟨hs.range.least, hs.range.most, hs.range.focus⟩,
    hafter, ?_⟩
  · rw [hclock, hlast] at h
    rw [hnext, if_pos (hle.mpr h), hsum]
  · rw [hclock, hlast] at h
    rw [hnext, if_neg (fun hin => absurd (hle.mp hin) (Nat.not_le_of_lt h)), hclock]
  · rw [hclock, hlast, hnext]
    split
    · omega
    · omega
  · rw [hclock, hnext]
    split
    · omega
    · omega

/-- The clock readings of a turn are those of a clock. -/
def Timely (s : Option Controls) (t : Turn) : Prop :=
  ∀ c, s = some c → c.clock ≤ t.now ∧ t.now ≤ t.after ∧ t.after < 2 ^ 63

/-- A turn leaves the controls in range and the next sample due in time, and one
that takes no sample leaves its time alone. -/
def Right (s : Option Controls) (t : Turn) : Prop :=
  ∀ c d, s = some c → c.turn t = some d →
    d.InRange ∧ (c.next ≤ nowMs t.now → Due c d) ∧ (¬ c.next ≤ nowMs t.now → d.next = c.next)

/-- '-' is pressed only where there is half a second to take. -/
def Gentle (s : Option Controls) (t : Turn) : Prop :=
  ∀ c, s = some c → t.stop = false → ¬ c.next ≤ nowMs t.now → t.key = some (code '-') →
    500 ≤ c.interval.toNat

theorem press_minus (c : Controls) : ∃ d, c.press (code '-') = some d := by
  refine ⟨{ c with interval := if 250 ≤ c.interval - 500 then c.interval - 500 else 250 }, ?_⟩
  rw [Controls.press, if_neg (by decide), if_neg (by decide), if_neg (by decide),
    if_neg (by decide), if_neg (by decide), if_pos rfl]

theorem Controls.Changed.next {c d : Controls} {interval : UInt64} (h : c.Changed interval d) :
    d.next = c.next ∧ d.clock = c.clock := by
  obtain ⟨_, _, _, _, rfl, _⟩ := h
  exact ⟨rfl, rfl⟩

theorem press_next {c d : Controls} {key : UInt8} (hfocus : c.focus.toNat < c.nslots.toNat)
    (h : c.press key = some d) : d.next = c.next ∧ d.clock = c.clock := by
  obtain ⟨-, hd⟩ | ⟨-, hd⟩ | ⟨-, hd⟩ := press_cases hfocus h <;> exact hd.next

/-- The three turns that do not leave the loop. -/
theorem turn_cases {c d : Controls} {t : Turn} (h : c.turn t = some d) :
    t.stop = false ∧
      ((c.next ≤ nowMs t.now ∧ d = c.sample t.after) ∨
        (¬ c.next ≤ nowMs t.now ∧ t.key = none ∧ d = { c with clock := t.now }) ∨
        ∃ key, ¬ c.next ≤ nowMs t.now ∧ t.key = some key ∧
          { c with clock := t.now }.press key = some d) := by
  unfold Controls.turn at h
  by_cases hstop : t.stop = true
  · rw [if_pos hstop] at h
    exact nomatch h
  refine ⟨eq_false_of_ne_true hstop, ?_⟩
  rw [if_neg hstop] at h
  by_cases hdue : c.next ≤ nowMs t.now
  · rw [if_pos hdue] at h
    exact .inl ⟨hdue, (Option.some.inj h).symm⟩
  rw [if_neg hdue] at h
  cases hkey : t.key with
  | none =>
      rw [hkey] at h
      exact .inr (.inl ⟨hdue, rfl, (Option.some.inj h).symm⟩)
  | some key =>
      rw [hkey] at h
      exact .inr (.inr ⟨key, hdue, rfl, h⟩)

/-- A gentle turn is right and leaves a sane state. -/
theorem turn_right {c d : Controls} {t : Turn} (hs : c.Sane) (ht : Timely (some c) t)
    (hg : Gentle (some c) t) (h : c.turn t = some d) :
    (d.InRange ∧ (c.next ≤ nowMs t.now → Due c d) ∧ (¬ c.next ≤ nowMs t.now → d.next = c.next)) ∧
      d.Sane := by
  obtain ⟨hpast, hnow, hlast⟩ := ht c rfl
  have hmono : c.clock / 1000000 ≤ t.now / 1000000 := Nat.div_le_div_right hpast
  have hwait : c.next.toNat ≤ t.now / 1000000 + 60000 :=
    Nat.le_trans hs.soon (Nat.add_le_add_right hmono _)
  obtain ⟨hstop, ⟨hdue, rfl⟩ | ⟨hearly, -, rfl⟩ | ⟨key, hearly, hkey, hpress⟩⟩ := turn_cases h
  · obtain ⟨hafter, hsane⟩ := sample_due hs hnow hlast hdue
    exact ⟨⟨hsane.range, fun _ => hafter, fun hearly => absurd hdue hearly⟩, hsane⟩
  · have hrange : ({ c with clock := t.now } : Controls).InRange :=
      ⟨hs.range.least, hs.range.most, hs.range.focus⟩
    exact ⟨⟨hrange, fun hdue => absurd hdue hearly, fun _ => rfl⟩,
      hrange, Nat.lt_of_le_of_lt hnow hlast, hwait⟩
  · have hbefore : ({ c with clock := t.now } : Controls).InRange :=
      ⟨hs.range.least, hs.range.most, hs.range.focus⟩
    have hrange : d.InRange := (press_inRange_iff hbefore hpress).mpr fun hminus =>
      hg c rfl hstop hearly (hminus ▸ hkey)
    obtain ⟨hnext, hclock⟩ := press_next hbefore.focus hpress
    refine ⟨⟨hrange, fun hdue => absurd hdue hearly, fun _ => hnext⟩, hrange, ?_, ?_⟩
    · rw [hclock]
      exact Nat.lt_of_le_of_lt hnow hlast
    · rw [hclock, hnext]
      exact hwait

/-- A turn that is right is gentle. -/
theorem gentle_of_right {c : Controls} {t : Turn} (hs : c.Sane) (hright : Right (some c) t) :
    Gentle (some c) t := by
  rintro _ ⟨rfl⟩ hstop hearly hkey
  obtain ⟨d, hpress⟩ := press_minus { c with clock := t.now }
  have hturn : c.turn t = some d := by
    unfold Controls.turn
    rw [if_neg (by simp [hstop]), if_neg hearly, hkey]
    exact hpress
  have hbefore : ({ c with clock := t.now } : Controls).InRange :=
    ⟨hs.range.least, hs.range.most, hs.range.focus⟩
  exact (press_inRange_iff hbefore hpress).mp (hright c _ rfl hturn).1 rfl

/-- A loop that was left, or one whose controls are sane. -/
def Standing (s : Option Controls) : Prop := ∀ c, s = some c → c.Sane

theorem turns_right_iff (s : Option Controls) (t : Turn) (hs : Standing s) :
    ((Timely s t ∧ Right s t) ↔ (Timely s t ∧ Gentle s t)) ∧
      (Timely s t ∧ Right s t → Standing (turns s t)) := by
  cases s with
  | none => exact ⟨⟨fun h => ⟨h.1, nofun⟩, fun h => ⟨h.1, nofun⟩⟩, fun _ => nofun⟩
  | some c =>
      have hc : c.Sane := hs c rfl
      refine ⟨⟨fun h => ⟨h.1, gentle_of_right hc h.2⟩, fun h => ⟨h.1, ?_⟩⟩, fun h d hd => ?_⟩
      · rintro _ d ⟨rfl⟩ hd
        exact (turn_right hc h.1 h.2 hd).1
      · exact (turn_right hc h.1 (gentle_of_right hc h.2) hd).2

/-- **The controls stay in range and the samples in time exactly while '-' is
pressed at half a second or more**: from any interval the options give, any
number of cards and any clock, over every run of the loop. -/
theorem controls_right_iff (interval nslots : UInt64) (showKthreads : Bool) (now after : Nat)
    (hslots : 0 < nslots) (hclock : now ≤ after) (hlast : after < 2 ^ 63) (ts : List Turn) :
    ((Controls.start interval nslots showKthreads now).sample after).InRange ∧
      Due (.start interval nslots showKthreads now)
        ((Controls.start interval nslots showKthreads now).sample after) ∧
      (Along turns (fun s t => Timely s t ∧ Right s t)
          (some ((Controls.start interval nslots showKthreads now).sample after)) ts ↔
        Along turns (fun s t => Timely s t ∧ Gentle s t)
          (some ((Controls.start interval nslots showKthreads now).sample after)) ts) := by
  have hsane : (Controls.start interval nslots showKthreads now).Sane := by
    have hrange := clampInterval_range interval
    refine ⟨⟨hrange.1, hrange.2, UInt64.lt_iff_toNat_lt.mp hslots⟩,
      Nat.lt_of_le_of_lt hclock hlast, ?_⟩
    show (nowMs now).toNat ≤ now / 1000000 + 60000
    rw [nowMs_toNat (Nat.lt_of_le_of_lt hclock hlast)]
    exact Nat.le_add_right _ _
  obtain ⟨hdue, hfirst⟩ := sample_due hsane hclock hlast (UInt64.le_refl (nowMs now))
  refine ⟨hfirst.range, hdue, along_iff turns_right_iff ts ?_⟩
  rintro _ ⟨rfl⟩
  exact hfirst

/-- A turn that waits from `now` for a key. -/
def Turn.waits (now : Nat) (key : Char) : Turn := ⟨false, now, now, some (code key)⟩

/-- Two cards, a second between samples, and one press of '-'. -/
theorem controls_right_iff_minus :
    Along turns (fun s t => Timely s t ∧ Right s t)
      (some ((Controls.start 1000 2 false 0).sample 5000000))
      [.waits 10000000 '-', .waits 20000000 'n'] := by
  refine (controls_right_iff 1000 2 false 0 5000000 (by decide) (by decide) (by decide)
    [.waits 10000000 '-', .waits 20000000 'n']).2.2.mpr ⟨⟨?_, ?_⟩, ⟨?_, ?_⟩, trivial⟩
  · rintro _ ⟨rfl⟩
    decide
  · rintro _ ⟨rfl⟩ - - -
    decide
  · rintro _ ⟨rfl⟩
    decide
  · rintro _ ⟨rfl⟩ - - hkey
    exact absurd hkey (by decide)

/-- '-' pressed three times from one second: 500, 250, and then the difference
wraps. -/
theorem controls_minus_wraps :
    ∃ d, run turns (some ((Controls.start 1000 1 false 0).sample 5000000))
        [.waits 10000000 '-', .waits 20000000 '-', .waits 30000000 '-'] = some d ∧
      d.interval = 18446744073709551366 ∧ ¬ d.InRange :=
  ⟨_, rfl, rfl, fun h => absurd h.most (by decide)⟩

end Phi.Top
