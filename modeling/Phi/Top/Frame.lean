import Mathlib.Algebra.Order.BigOperators.Group.List
import Mathlib.Algebra.Order.Group.Nat
import Phi.Lib.Run
import Phi.Lib.Terminal

/-!
# Phi.Top.Frame

One frame as text (`line_end` and `frame_begin` of `view.S`).

A line is built in a buffer of its own and then fitted into the frame: `fit`
copies what has room on the row.  Inside an escape sequence it copies without
counting, up to the next `m` wherever that is, so what it counts is what the
line shows only where every ESC begins a colour sequence.
-/

namespace Phi.Top

open Terminal

def lineCap : Nat := 16384
def frameCap : Nat := 1048576

def home : List UInt8 := [27, 91, 72]
def clearEol : List UInt8 := [27, 91, 75]

/-! ## the code -/

/-- The loop of `line_end`: what is copied, and whether an ESC was.  `inEsc` is
`ebx`, `coloured` is `r14d`, `width` is `r13`. -/
def fit (cols : Nat) (inEsc coloured : Bool) (width : Nat) : List UInt8 → List UInt8 × Bool
  | [] => ([], coloured)
  | b :: bs =>
      if inEsc then
        let r := fit cols (b ≠ 109) coloured width bs
        (b :: r.1, r.2)
      else if b = esc then
        let r := fit cols true true width bs
        (b :: r.1, r.2)
      else if isCont b then
        let r := fit cols false coloured width bs
        (b :: r.1, r.2)
      else if cols ≤ width then ([], coloured)
      else
        let r := fit cols false coloured (width + 1) bs
        (b :: r.1, r.2)

/-- What a line is in the frame, up to its end. -/
def fitted (cols : Nat) (line : List UInt8) : List UInt8 :=
  let r := fit cols false false 0 line
  r.1 ++ if r.2 then reset else []

/-- A line as it was built and as it stands in the frame. -/
structure Shown where
  line : List UInt8
  text : List UInt8
deriving DecidableEq

/-- The frame: `frame_buf` up to `frame_len`; and of the way there the lines shown
and the most bytes that `line_buf` held. -/
structure Frame where
  cols : Nat
  rows : Nat
  color : Bool
  nlines : Nat
  buf : List UInt8
  shown : List Shown
  longest : Nat
deriving DecidableEq

/-- `frame_begin`. -/
def frameBegin (color : Bool) (cols rows : Nat) : Frame where
  cols := cols
  rows := rows
  color := color
  nlines := 0
  buf := if color then home else []
  shown := []
  longest := 0

namespace Frame

/-- What ends a line in the frame. -/
def ending (f : Frame) : List UInt8 :=
  if f.color then clearEol ++ if f.rows ≤ f.nlines + 1 then [] else [newline] else [newline]

/-- `line_end`. -/
def lineEnd (f : Frame) (line : List UInt8) : Frame :=
  let longest := max f.longest line.length
  if f.rows ≤ f.nlines then { f with longest := longest }
  else
    let text := fitted f.cols line
    { f with
      nlines := f.nlines + 1
      buf := f.buf ++ (text ++ f.ending)
      shown := f.shown ++ [⟨line, text⟩]
      longest := longest }

/-- `empty_line`. -/
def emptyLine (f : Frame) : Frame := f.lineEnd []

/-- The lines of a block one after the other. -/
def draw (f : Frame) (ls : List (List UInt8)) : Frame := run lineEnd f ls

/-- The blank lines up to the last row, at most `k` of them. -/
def blanks : Nat → Frame → Frame
  | 0, f => f
  | k + 1, f => if f.rows ≤ f.nlines + 1 then f else blanks k f.emptyLine

/-! ## what it is for -/

/-- The frame fits the terminal and its buffers. -/
structure Fits (f : Frame) : Prop where
  width : ∀ s ∈ f.shown, visible .plain s.text ≤ f.cols
  /-- a line is cut between two characters -/
  unsplit : ∀ s ∈ f.shown, ∃ kept rest, s.line = kept ++ rest ∧
    (s.text = kept ∨ s.text = kept ++ reset) ∧ ∀ b ∈ rest.head?, isCont b = false
  closed : ∀ s ∈ f.shown, esc ∈ s.text → reset <:+ s.text
  rows : Terminal.rows f.buf ≤ f.rows
  lineBuf : f.longest ≤ lineCap
  frameBuf : f.buf.length ≤ frameCap

end Frame

/-! ## one line -/

/-- What is left out begins with a character. -/
theorem fit_prefix (cols : Nat) (inEsc coloured : Bool) (width : Nat) (bs : List UInt8) :
    ∃ rest, bs = (fit cols inEsc coloured width bs).1 ++ rest ∧
      ∀ b ∈ rest.head?, isCont b = false := by
  induction bs generalizing inEsc coloured width with
  | nil => exact ⟨[], by simp [fit]⟩
  | cons b bs ih =>
      rw [fit]
      split_ifs with hesc he hc hw
      · obtain ⟨rest, heq, hrest⟩ := ih (b ≠ 109) coloured width
        exact ⟨rest, by simpa using heq, hrest⟩
      · obtain ⟨rest, heq, hrest⟩ := ih true true width
        exact ⟨rest, by simpa using heq, hrest⟩
      · obtain ⟨rest, heq, hrest⟩ := ih false coloured width
        exact ⟨rest, by simpa using heq, hrest⟩
      · exact ⟨b :: bs, rfl, by simpa using hc⟩
      · obtain ⟨rest, heq, hrest⟩ := ih false coloured (width + 1)
        exact ⟨rest, by simpa using heq, hrest⟩

/-- The colour is closed exactly where an ESC was copied. -/
theorem fit_coloured (cols : Nat) (inEsc coloured : Bool) (h : inEsc = true → coloured = true)
    (width : Nat) (bs : List UInt8) : (fit cols inEsc coloured width bs).2 =
      (coloured || decide (esc ∈ (fit cols inEsc coloured width bs).1)) := by
  induction bs generalizing inEsc coloured width with
  | nil => simp [fit]
  | cons b bs ih =>
      rw [fit]
      split_ifs with hesc he hc hw
      · have htrue : coloured = true := h hesc
        simpa [htrue] using ih (b ≠ 109) true (fun _ => rfl) width
      · simp [ih true true fun _ => rfl, he]
      · simp [ih false coloured nofun, Ne.symm he]
      · simp
      · simp [ih false coloured nofun, Ne.symm he]

theorem fitted_eq (cols : Nat) (line : List UInt8) : fitted cols line =
    (fit cols false false 0 line).1 ++
      if esc ∈ (fit cols false false 0 line).1 then reset else [] := by
  simp [fitted, fit_coloured cols false false nofun]

/-! ## characters on the row -/

/-- The characters the loop counts on a line that has room. -/
def counted : Bool → List UInt8 → Nat
  | _, [] => 0
  | true, b :: bs => counted (b ≠ 109) bs
  | false, b :: bs =>
      if b = esc then counted true bs else counted false bs + if isCont b then 0 else 1

theorem counted_le_length (inEsc : Bool) (bs : List UInt8) : counted inEsc bs ≤ bs.length := by
  induction bs generalizing inEsc with
  | nil => simp [counted]
  | cons b bs ih =>
      have hbs := ih false
      cases inEsc with
      | true => exact Nat.le_trans (ih _) (Nat.le_succ _)
      | false =>
          have hesc := ih true
          simp only [counted, List.length_cons]
          split_ifs <;> omega

/-- A line that has room is copied whole. -/
theorem fit_of_counted {cols : Nat} (inEsc coloured : Bool) (width : Nat) (bs : List UInt8)
    (h : width + counted inEsc bs ≤ cols) : (fit cols inEsc coloured width bs).1 = bs := by
  induction bs generalizing inEsc coloured width with
  | nil => rfl
  | cons b bs ih =>
      rw [fit]
      cases inEsc with
      | true => simpa using ih _ coloured width h
      | false =>
          simp only [counted] at h
          split_ifs at h ⊢ with _ he hc hw
          all_goals try contradiction
          · simpa using ih true true width h
          · simpa using ih false coloured width h
          · omega
          · simpa using ih false coloured (width + 1) (by omega)

/-- Inside a sequence the loop's flag is the terminal's. -/
theorem flag_of_takes {m : Mode} {b : UInt8} (h : m.takes b = true) :
    decide (m.next b ≠ .plain) = decide (b ≠ 109) := by
  simp [(next_of_takes h).2]

/-- Where every ESC begins a colour sequence the loop keeps within the row: its
flag is set exactly inside the sequences. -/
theorem visible_fit (cols : Nat) {m : Mode} {bs : List UInt8} (h : colored m bs = true)
    (coloured : Bool) {width : Nat} (hwidth : width ≤ cols) :
    visible m (fit cols (m ≠ .plain) coloured width bs).1 + width ≤ cols := by
  induction bs generalizing m coloured width with
  | nil =>
      have hm : m = .plain := by simpa [colored] using h
      simpa [fit, visible, hm, Mode.pending] using hwidth
  | cons b bs ih =>
      by_cases hm : m = .plain
      · subst hm
        rw [colored_plain_cons] at h
        simp only [fit, ne_eq, not_true_eq_false, decide_false, Bool.false_eq_true, if_false]
        split_ifs at h ⊢ with he hc hw
        · simpa [visible_plain_cons, he] using ih h true hwidth
        · simpa [visible_plain_cons, he, hc] using ih h coloured hwidth
        · simpa [visible, Mode.pending] using hwidth
        · have hlt := ih h coloured (show width + 1 ≤ cols by omega)
          simp only [ne_eq, not_true_eq_false, decide_false] at hlt
          simp only [visible_plain_cons, he, hc, if_false, Bool.false_eq_true]
          omega
      · -- inside a sequence: the byte carries it on
        simp only [colored, hm, decide_false, Bool.false_or, Bool.and_eq_true] at h
        have hih := ih h.2 coloured hwidth
        rw [flag_of_takes h.1] at hih
        simpa [fit, hm, visible_of_takes h.1] using hih

theorem counted_append {m : Mode} {xs : List UInt8} (h : colored m xs = true) (ys : List UInt8) :
    counted (m ≠ .plain) (xs ++ ys) = counted (m ≠ .plain) xs + counted false ys := by
  induction xs generalizing m with
  | nil =>
      have hm : m = .plain := by simpa [colored] using h
      simp [hm, counted]
  | cons x xs ih =>
      by_cases hm : m = .plain
      · subst hm
        rw [colored_plain_cons] at h
        simp only [ne_eq, not_true_eq_false, decide_false, List.cons_append, counted]
        split_ifs at h ⊢
        · simpa using ih h
        · simpa using ih h
        · have hrest := ih h
          simp only [ne_eq, not_true_eq_false, decide_false] at hrest
          omega
      · simp only [colored, hm, decide_false, Bool.false_or, Bool.and_eq_true] at h
        have hrest := ih h.2
        rw [flag_of_takes h.1] at hrest
        simpa [hm, counted] using hrest

theorem counted_pos {xs ys : List UInt8} (h : colored .plain xs = true)
    (hpos : 0 < counted false xs ∨ 0 < counted false ys) : 0 < counted false (xs ++ ys) := by
  have happ : counted false (xs ++ ys) = counted false xs + counted false ys := counted_append h ys
  omega

/-- After a byte inside a sequence, as the loop takes it. -/
theorem counted_next_le {bs : List UInt8}
    (h : ∀ m, counted true bs ≤ visible m bs ∧ counted false bs ≤ visible .plain bs)
    (m : Mode) (b : UInt8) : counted (b ≠ 109) bs ≤ visible (m.next b) bs := by
  by_cases hb : b = 109
  · simpa [hb, next_end] using (h .plain).2
  · simpa [hb] using (h (m.next b)).1

/-- The loop counts no more than there is: inside what it takes for a sequence
none of the characters, whatever the terminal sees there. -/
theorem counted_le_visible (m : Mode) (bs : List UInt8) :
    counted true bs ≤ visible m bs ∧ counted false bs ≤ visible .plain bs := by
  induction bs generalizing m with
  | nil => simp [counted]
  | cons b bs ih =>
      constructor
      · exact Nat.le_trans (counted_next_le ih m b) (Nat.le_add_left _ _)
      · rw [visible_plain_cons]
        simp only [counted]
        split
        · exact (ih .escape).1
        · exact Nat.add_le_add_right (ih .plain).2 _

/-- Where an ESC begins no colour sequence it leaves out a character. -/
theorem counted_lt_visible {m : Mode} {bs : List UInt8} (h : colored m bs = false) :
    counted (m ≠ .plain) bs < visible m bs := by
  induction bs generalizing m with
  | nil =>
      have hm : m ≠ .plain := by simpa [colored] using h
      cases m <;> simp_all [counted, visible, Mode.pending]
  | cons b bs ih =>
      by_cases hm : m = .plain
      · subst hm
        rw [colored_plain_cons] at h
        rw [visible_plain_cons]
        simp only [ne_eq, not_true_eq_false, decide_false, counted]
        split_ifs at h ⊢
        · exact ih h
        · simpa using ih h
        · exact Nat.succ_lt_succ (ih h)
      · have hcounted : counted (m ≠ .plain) (b :: bs) = counted (b ≠ 109) bs := by
          simp [hm, counted]
        rw [hcounted]
        cases htakes : m.takes b with
        | true =>
            have hrest : colored (m.next b) bs = false := by simpa [colored, htakes] using h
            have hlt := ih hrest
            rw [flag_of_takes htakes] at hlt
            rwa [visible_of_takes htakes]
        | false =>
            have hle := counted_next_le (counted_le_visible · bs) m b
            exact Nat.lt_of_le_of_lt hle (lt_visible hm htakes bs)

/-! ## a line in the frame -/

/-- The bytes of a line that is not cut. -/
def size (line : List UInt8) : Nat := line.length + if esc ∈ line then reset.length else 0

theorem fitted_of_counted {cols : Nat} {line : List UInt8} (h : counted false line ≤ cols) :
    fitted cols line = line ++ if esc ∈ line then reset else [] := by
  rw [fitted_eq, fit_of_counted false false 0 line (by simpa using h)]

theorem fitted_of_length {cols : Nat} {line : List UInt8} (h : line.length ≤ cols) :
    fitted cols line = line ++ if esc ∈ line then reset else [] :=
  fitted_of_counted (Nat.le_trans (counted_le_length false line) h)

theorem length_fitted {cols : Nat} {line : List UInt8} (h : line.length ≤ cols) :
    (fitted cols line).length = size line := by
  rw [fitted_of_length h, List.length_append, size]
  split <;> rfl

/-- A line that is cut is no longer for it. -/
theorem length_fitted_le (cols : Nat) (line : List UInt8) :
    (fitted cols line).length ≤ size line := by
  obtain ⟨rest, heq, -⟩ := fit_prefix cols false false 0 line
  have hlen := congrArg List.length heq
  have hmem : esc ∈ (fit cols false false 0 line).1 → esc ∈ line := fun h => by
    rw [heq]
    exact List.mem_append_left _ h
  rw [fitted_eq, List.length_append, size]
  rw [List.length_append] at hlen
  split_ifs with hk hl
  · omega
  · exact absurd (hmem hk) hl
  · simp
    omega
  · simp
    omega

theorem visible_fitted (cols : Nat) (line : List UInt8) : visible .plain (fitted cols line) =
    visible .plain (fit cols false false 0 line).1 := by
  rw [fitted_eq]
  split
  · exact visible_reset .plain _
  · rw [List.append_nil]

theorem visible_fitted_le (cols : Nat) {line : List UInt8} (h : colored .plain line = true) :
    visible .plain (fitted cols line) ≤ cols := by
  rw [visible_fitted]
  exact visible_fit cols h false (Nat.zero_le cols)

/-- On a row as wide as the loop takes it for, a line with a stray ESC is too long. -/
theorem lt_visible_fitted {line : List UInt8} (h : colored .plain line = false) :
    counted false line < visible .plain (fitted (counted false line) line) := by
  rw [visible_fitted, fit_of_counted false false 0 line (by simp)]
  exact counted_lt_visible h

theorem newline_fitted (cols : Nat) {line : List UInt8} (h : newline ∉ line) :
    newline ∉ fitted cols line := by
  obtain ⟨rest, heq, -⟩ := fit_prefix cols false false 0 line
  rw [heq, List.mem_append, not_or] at h
  rw [fitted_eq, List.mem_append, not_or]
  refine ⟨h.1, ?_⟩
  split <;> simp [reset, newline]

/-! ## a frame under way -/

namespace Frame

variable {f : Frame}

/-- The last row of a frame in colour is out: nothing ends it. -/
def full (f : Frame) : Bool := f.color && f.rows ≤ f.nlines

/-- The bytes of the end of a line. -/
def endSize (color : Bool) : Nat := if color then 4 else 1

def start (color : Bool) : Nat := if color then home.length else 0

/-- What is said of every frame under way, in terms of the lines in it. -/
structure Inv (f : Frame) : Prop where
  nlines : f.nlines = f.shown.length
  le : f.nlines ≤ f.rows
  text : ∀ s ∈ f.shown, s.text = fitted f.cols s.line
  length : f.buf.length + f.full.toNat =
    start f.color + (f.shown.map fun s => s.text.length + endSize f.color).sum
  count : f.buf.count newline + f.full.toNat =
    (f.shown.map fun s => s.text.count newline + 1).sum
  last : f.shown ≠ [] → f.buf ≠ [] ∧ (f.buf.getLast? = some newline ↔ f.full = false)

@[simp] theorem cols_lineEnd (f : Frame) (line : List UInt8) : (f.lineEnd line).cols = f.cols := by
  unfold lineEnd
  split <;> rfl

@[simp] theorem rows_lineEnd (f : Frame) (line : List UInt8) : (f.lineEnd line).rows = f.rows := by
  unfold lineEnd
  split <;> rfl

@[simp] theorem color_lineEnd (f : Frame) (line : List UInt8) :
    (f.lineEnd line).color = f.color := by
  unfold lineEnd
  split <;> rfl

theorem inv_frameBegin (color : Bool) (cols : Nat) {rows : Nat} (h : 0 < rows) :
    (frameBegin color cols rows).Inv where
  nlines := rfl
  le := Nat.zero_le rows
  text := nofun
  length := by
    have hrows : ¬ rows ≤ 0 := Nat.not_le_of_lt h
    cases color <;> simp [frameBegin, full, start, hrows]
  count := by
    have hrows : ¬ rows ≤ 0 := Nat.not_le_of_lt h
    cases color <;> simp [frameBegin, full, home, newline, hrows]
  last := nofun

/-- The end of a line: its bytes, its newline, and the newline's place. -/
theorem ending_spec (f : Frame) {last : Bool}
    (hlast : last = (f.color && decide (f.rows ≤ f.nlines + 1))) :
    f.ending.length + last.toNat = endSize f.color ∧ f.ending.count newline + last.toNat = 1 ∧
      ∃ b, f.ending.getLast? = some b ∧ (b = newline ↔ last = false) := by
  unfold ending endSize
  cases hcolor : f.color <;> by_cases hrow : f.rows ≤ f.nlines + 1 <;>
    simp [hlast, hcolor, hrow, clearEol, newline]

theorem Inv.lineEnd (h : f.Inv) (line : List UInt8) : (f.lineEnd line).Inv := by
  by_cases hroom : f.rows ≤ f.nlines
  · rw [Frame.lineEnd, if_pos hroom]
    exact ⟨h.nlines, h.le, h.text, h.length, h.count, h.last⟩
  · have hopen : f.full = false := by simp [full, hroom]
    have hlength := h.length
    have hcount := h.count
    rw [hopen] at hlength hcount
    rw [Frame.lineEnd, if_neg hroom]
    obtain ⟨hsize, hnew, b, hb, hend⟩ := f.ending_spec rfl
    constructor
    · simp [h.nlines]
    · exact Nat.lt_of_not_le hroom
    · intro s hs
      rcases List.mem_append.1 hs with hs | hs
      · exact h.text s hs
      · rw [List.mem_singleton.1 hs]
    · simp only [full, List.length_append, List.map_append, List.sum_append, List.map_cons,
        List.map_nil, List.sum_cons, List.sum_nil] at hlength ⊢
      simp only [Bool.toNat_false] at hlength
      omega
    · simp only [full, List.count_append, List.map_append, List.sum_append, List.map_cons,
        List.map_nil, List.sum_cons, List.sum_nil] at hcount ⊢
      simp only [Bool.toNat_false] at hcount
      omega
    · have hne : f.ending ≠ [] := by
        rintro h0
        simp [h0] at hb
      intro _
      simp only [full, List.getLast?_append, hb, Option.some_or, Option.some.injEq, hend]
      simp [hne]

/-! ## the lines of a frame -/

theorem draw_nil (f : Frame) : f.draw [] = f := rfl

theorem draw_cons (f : Frame) (l : List UInt8) (ls : List (List UInt8)) :
    f.draw (l :: ls) = (f.lineEnd l).draw ls := rfl

theorem draw_append (f : Frame) (ls ms : List (List UInt8)) :
    f.draw (ls ++ ms) = (f.draw ls).draw ms := run_append _ _ _ _

theorem Inv.draw (h : f.Inv) (ls : List (List UInt8)) : (f.draw ls).Inv :=
  run_inv_all (fun _ _ hs => hs.lineEnd _) h ls

theorem same_draw (f : Frame) (ls : List (List UInt8)) :
    (f.draw ls).cols = f.cols ∧ (f.draw ls).rows = f.rows ∧ (f.draw ls).color = f.color := by
  induction ls generalizing f with
  | nil => exact ⟨rfl, rfl, rfl⟩
  | cons l ls ih => simpa [draw] using ih (f.lineEnd l)

/-- The lines that have room are shown. -/
theorem lines_draw (h : f.Inv) (ls : List (List UInt8)) : (f.draw ls).shown.map Shown.line =
    f.shown.map Shown.line ++ ls.take (f.rows - f.nlines) := by
  induction ls generalizing f with
  | nil => simp [draw]
  | cons l ls ih =>
      have hstep := ih (h.lineEnd l)
      rw [draw, run_cons]
      rw [draw] at hstep
      rw [hstep, rows_lineEnd]
      by_cases hroom : f.rows ≤ f.nlines
      · simp [lineEnd, hroom]
      · have hleft : f.rows - f.nlines = f.rows - (f.nlines + 1) + 1 := by omega
        simp [lineEnd, hroom, hleft]

theorem nlines_draw (h : f.Inv) (ls : List (List UInt8)) :
    (f.draw ls).nlines = min f.rows (f.nlines + ls.length) := by
  have hlines := congrArg List.length (lines_draw h ls)
  have hle := h.le
  rw [List.length_map, ← (h.draw ls).nlines, List.length_append, List.length_map, ← h.nlines,
    List.length_take] at hlines
  omega

/-- As many blank lines as leave one row. -/
theorem blanks_eq (h : f.Inv) {k : Nat} (hk : f.rows ≤ f.nlines + 1 + k) :
    f.blanks k = f.draw (List.replicate (f.rows - (f.nlines + 1)) []) := by
  induction k generalizing f with
  | zero =>
      rw [Nat.sub_eq_zero_of_le (by omega)]
      rfl
  | succ k ih =>
      rw [blanks]
      split
      · next hlast =>
          rw [Nat.sub_eq_zero_of_le hlast]
          rfl
      · next hlast =>
          have hn : f.emptyLine.nlines = f.nlines + 1 := by
            rw [emptyLine, lineEnd, if_neg (by omega)]
          have hr : f.emptyLine.rows = f.rows := rows_lineEnd f []
          have hleft : f.rows - (f.nlines + 1) = f.rows - (f.nlines + 1 + 1) + 1 := by omega
          have hinv : f.emptyLine.Inv := h.lineEnd []
          rw [ih hinv (by rw [hn, hr]; omega), hn, hr, hleft]
          rfl

/-- No line was longer than those drawn. -/
theorem longest_draw {n : Nat} (h : f.longest ≤ n) {ls : List (List UInt8)}
    (hls : ∀ l ∈ ls, l.length ≤ n) : (f.draw ls).longest ≤ n := by
  have hstep : ∀ (g : Frame) (l : List UInt8), g.longest ≤ n → l.length ≤ n →
      (g.lineEnd l).longest ≤ n := by
    intro g l hg hl
    unfold lineEnd
    split <;> exact Nat.max_le.2 ⟨hg, hl⟩
  exact run_inv hstep h (along_of_mem hls f)

/-! ## a whole frame -/

section whole

variable {color : Bool} {cols rows : Nat} {ls : List (List UInt8)}

theorem shown_whole (hrows : 0 < rows) :
    ((frameBegin color cols rows).draw ls).shown =
      (ls.take rows).map fun l => ⟨l, fitted cols l⟩ := by
  have hinv := (inv_frameBegin color cols hrows).draw ls
  have hlines := lines_draw (inv_frameBegin color cols hrows) ls
  have htake : (((frameBegin color cols rows).draw ls).shown.map Shown.line) = ls.take rows := by
    simpa [frameBegin] using hlines
  have hshown : ∀ s ∈ ((frameBegin color cols rows).draw ls).shown,
      (fun l => (⟨l, fitted cols l⟩ : Shown)) s.line = s := fun s hs => by
    have htext := hinv.text s hs
    rw [(same_draw _ ls).1] at htext
    exact congrArg (Shown.mk s.line) htext.symm
  rw [← htake, List.map_map]
  exact ((List.map_congr_left hshown).trans (List.map_id _)).symm

theorem full_whole (hrows : 0 < rows) (hls : rows ≤ ls.length) :
    ((frameBegin color cols rows).draw ls).full = color := by
  have hinv := (inv_frameBegin color cols hrows).draw ls
  obtain ⟨-, hr, hc⟩ := same_draw (frameBegin color cols rows) ls
  have hn : ((frameBegin color cols rows).draw ls).nlines = rows := by
    rw [hinv.nlines, shown_whole hrows]
    simp [hls]
  rw [full, hr, hc, hn]
  simp [frameBegin]

theorem length_whole (hrows : 0 < rows) (hls : rows ≤ ls.length) :
    ((frameBegin color cols rows).draw ls).buf.length + color.toNat =
      start color + ((ls.take rows).map fun l => (fitted cols l).length + endSize color).sum := by
  have hlength := ((inv_frameBegin color cols hrows).draw ls).length
  rw [full_whole hrows hls, shown_whole hrows, (same_draw _ ls).2.2, List.map_map] at hlength
  exact hlength

theorem rows_whole (hrows : 0 < rows) (hls : rows ≤ ls.length) :
    Terminal.rows ((frameBegin color cols rows).draw ls).buf =
      ((ls.take rows).map fun l => (fitted cols l).count newline + 1).sum := by
  have hinv := (inv_frameBegin color cols hrows).draw ls
  have hcount := hinv.count
  have hne : ((frameBegin color cols rows).draw ls).shown ≠ [] := by
    rw [shown_whole hrows]
    have htake : 0 < (ls.take rows).length := by
      rw [List.length_take, Nat.min_eq_left hls]
      exact hrows
    simpa using List.ne_nil_of_length_pos htake
  obtain ⟨hbuf, hlast⟩ := hinv.last hne
  rw [full_whole hrows hls] at hcount hlast
  rw [shown_whole hrows, List.map_map] at hcount
  cases color <;> simpa [Terminal.rows, hbuf, hlast, Function.comp_def] using hcount

/-- The bytes of a line that is not cut, and of its end. -/
def weight (color : Bool) (line : List UInt8) : Nat := size line + endSize color

theorem weight_nil (color : Bool) : weight color [] = endSize color := by
  simp [weight, size]

theorem weight_le_of {l m : List UInt8} (hlen : l.length ≤ m.length) (hesc : esc ∈ l → esc ∈ m) :
    weight color l ≤ weight color m := by
  unfold weight size
  split_ifs with hl hm
  · omega
  · exact absurd (hesc hl) hm
  · omega
  · omega

/-- A frame takes no more bytes than its lines. -/
theorem length_le (hrows : 0 < rows) (hls : rows ≤ ls.length) :
    ((frameBegin color cols rows).draw ls).buf.length + color.toNat ≤
      start color + (ls.map (weight color)).sum := by
  rw [length_whole hrows hls]
  refine Nat.add_le_add_left (Nat.le_trans (List.sum_le_sum fun l _ => ?_)
    (((List.take_sublist rows ls).map _).sum_le_sum fun _ _ => Nat.zero_le _)) _
  exact Nat.add_le_add_right (length_fitted_le cols l) _

/-- A terminal as wide as every line. -/
theorem length_wide (hrows : 0 < rows) (hls : rows ≤ ls.length)
    (hwide : ∀ l ∈ ls, l.length ≤ cols) :
    ((frameBegin color cols rows).draw ls).buf.length + color.toNat =
      start color + ((ls.take rows).map (weight color)).sum := by
  rw [length_whole hrows hls]
  congr 2
  exact List.map_congr_left fun l hl => by
    rw [length_fitted (hwide l (List.mem_of_mem_take hl)), weight]

/-- A frame of quiet lines fits where the buffers have room for it. -/
theorem fits_whole (hrows : 0 < rows) (hls : rows ≤ ls.length) (hquiet : ∀ l ∈ ls, Quiet l)
    (hline : ∀ l ∈ ls, l.length ≤ lineCap)
    (hframe : ((frameBegin color cols rows).draw ls).buf.length ≤ frameCap) :
    ((frameBegin color cols rows).draw ls).Fits := by
  obtain ⟨hcols, hrow, -⟩ := same_draw (frameBegin color cols rows) ls
  have hshown : ∀ s ∈ ((frameBegin color cols rows).draw ls).shown,
      ∃ l ∈ ls, s = ⟨l, fitted cols l⟩ := by
    intro s hs
    rw [shown_whole hrows] at hs
    obtain ⟨l, hl, rfl⟩ := List.mem_map.1 hs
    exact ⟨l, List.mem_of_mem_take hl, rfl⟩
  constructor
  · intro s hs
    obtain ⟨l, hl, rfl⟩ := hshown s hs
    rw [hcols]
    exact visible_fitted_le cols (hquiet l hl).2
  · intro s hs
    obtain ⟨l, hl, rfl⟩ := hshown s hs
    obtain ⟨rest, heq, hrest⟩ := fit_prefix cols false false 0 l
    refine ⟨_, rest, heq, ?_, hrest⟩
    rw [fitted_eq]
    split <;> simp
  · intro s hs hesc
    obtain ⟨l, hl, rfl⟩ := hshown s hs
    simp only [fitted_eq] at hesc ⊢
    split_ifs at hesc ⊢ with hk
    · exact List.suffix_append _ _
    · simp [hk] at hesc
  · have hnone : (ls.take rows).map (fun l => (fitted cols l).count newline + 1) =
        (ls.take rows).map fun _ => 1 :=
      List.map_congr_left fun l hl => by
        have hl := newline_fitted cols (hquiet l (List.mem_of_mem_take hl)).1
        rw [List.count_eq_zero.2 hl]
    rw [rows_whole hrows hls, hnone, hrow]
    simp [frameBegin, hls]
  · exact longest_draw (Nat.zero_le _) hline
  · exact hframe

/-- A line with a stray ESC does not fit a row as wide as the loop takes it for. -/
theorem not_fits_of_colored (hrows : 0 < rows) {l : List UInt8} (hl : l ∈ ls.take rows)
    (hstray : colored .plain l = false) :
    ¬ ((frameBegin color (counted false l) rows).draw ls).Fits := by
  intro hfits
  have hwidth := hfits.width ⟨l, fitted (counted false l) l⟩ (by
    rw [shown_whole hrows]
    exact List.mem_map.2 ⟨l, hl, rfl⟩)
  rw [(same_draw _ ls).1] at hwidth
  exact absurd (lt_visible_fitted hstray) (Nat.not_lt_of_le hwidth)

/-- A line with a newline takes a row too many. -/
theorem not_fits_of_newline (hrows : 0 < rows) (hls : rows ≤ ls.length) {l : List UInt8}
    (hl : l ∈ ls.take rows) (hwide : l.length ≤ cols) (hnew : newline ∈ l) :
    ¬ ((frameBegin color cols rows).draw ls).Fits := by
  intro hfits
  have hrow := hfits.rows
  rw [rows_whole hrows hls, (same_draw _ ls).2.1] at hrow
  have hone : 1 ≤ (fitted cols l).count newline := by
    rw [fitted_of_length hwide, List.count_append]
    exact Nat.le_add_right_of_le (List.count_pos_iff.2 hnew)
  have hsum : 0 < ((ls.take rows).map fun l => (fitted cols l).count newline).sum :=
    List.sum_pos_iff_exists_pos_nat.2 ⟨_, List.mem_map_of_mem hl, hone⟩
  rw [List.sum_map_add, List.map_const', List.sum_replicate_nat, List.length_take,
    Nat.min_eq_left hls, Nat.mul_one] at hrow
  change _ + rows ≤ rows at hrow
  omega

end whole

end Frame

end Phi.Top
