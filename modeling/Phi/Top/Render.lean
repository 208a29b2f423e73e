import Phi.Top.Lines

/-!
# Phi.Top.Render

The one-card frame (`render` of `view.S`) on a terminal of any size
(`term_size` of `term.S`).

Nothing bounds what `line_end` appends to `frame_buf`: a frame has its header,
a row for each process shown and blank lines down to the last row, and a
terminal may report 65535 rows.  And `line_end` takes everything from an ESC to
the next `m` for a colour sequence, whoever wrote the ESC.  So a frame fits
every terminal where the texts from outside are quiet and the largest frame is
no larger than its buffer.
-/

namespace Phi.Top

open Rpc Terminal

/-- `term_size` of what `TIOCGWINSZ` answers, its rows and columns: columns and
rows. -/
def termSize : Option (UInt16 × UInt16) → Nat × Nat
  | some (row, col) => if col = 0 ∨ row = 0 then (80, 24) else (col.toNat, row.toNat)
  | none => (80, 24)

namespace View

variable (v : View)

/-- `render` down to the processes' header. -/
def drawUpper (f : Frame) : Option Frame := do
  let f := f.lineEnd v.headLine
  let f := f.lineEnd v.tempsLine
  let mem ← v.memLine
  let f := f.lineEnd mem
  let f := f.lineEnd v.pcieLine
  let f := f.lineEnd v.vpuLine
  let f := f.lineEnd v.devicesLine
  let f := f.emptyLine
  let f := f.draw (v.gridLines (v.cellWidth f.cols))
  let f := f.emptyLine
  return f.lineEnd (v.procHeader true)

/-- `render` from the processes on: the rows that fit above the footer, blank lines,
the footer.  `old` is what `sort_idx` held. -/
def drawProcs (old : Nat → UInt32) (f : Frame) : Frame :=
  let visible := ProcView.order (v.sortProcs old)
  let f := f.draw ((visible.take (f.rows - f.nlines - 1)).map v.procRow)
  let f := f.blanks f.rows
  f.lineEnd v.footLine

/-- `render`. -/
def render (old : Nat → UInt32) (cols rows : Nat) : Option Frame :=
  (v.drawUpper (frameBegin v.color cols rows)).map (v.drawProcs old)

/-! ## the condition -/

/-- The texts from outside that the frame shows. -/
def texts : List (List UInt8) :=
  v.errorTexts ++ v.deviceTexts ++ v.visible.flatMap fun i => ((v.procs[i]?).map procTexts).getD []

/-- The lines above the processes, with cells of a width. -/
def upperLines (cw : Nat) : List (List UInt8) :=
  [v.headLine, v.tempsLine, v.memLine.getD [], v.pcieLine, v.vpuLine, v.devicesLine, []] ++
    v.gridLines cw ++ [[], v.procHeader true]

/-- The bytes of the largest frame, that of 65535 columns and rows. -/
def largest : Nat :=
  Frame.start v.color + ((v.upperLines 2).map (Frame.weight v.color)).sum +
    (v.visible.map fun i => Frame.weight v.color (v.procRow i)).sum +
    (65534 - (v.upperLines 2).length - v.visible.length) * Frame.endSize v.color +
    Frame.weight v.color v.footLine - v.color.toNat

/-- A bar divides by zero, and nothing is drawn. -/
def Faults : Prop := v.mem.totalKb = 9223372036854775808 ∨ v.mem.swapTotalKb = 9223372036854775808

/-! ## the lines of a frame -/

theorem length_upperLines (cw : Nat) : (v.upperLines cw).length = 11 + v.table.maxThreads := by
  simp [upperLines, gridLines]
  omega

theorem memLine_eq_none_iff : v.memLine = none ↔ v.Faults := by
  have hmem := wBar_eq_none_iff (less v.mem.totalKb v.mem.availKb) v.mem.totalKb 20
  have hswap := wBar_eq_none_iff (less v.mem.swapTotalKb v.mem.swapFreeKb) v.mem.swapTotalKb 10
  rw [Faults, ← hmem, ← hswap]
  simp only [memLine, Option.bind_eq_bind]
  generalize wBar (less v.mem.totalKb v.mem.availKb) v.mem.totalKb 20 = bar
  generalize wBar (less v.mem.swapTotalKb v.mem.swapFreeKb) v.mem.swapTotalKb 10 = swapBar
  cases bar <;> cases swapBar <;> simp

theorem drawUpper_eq (hmem : ¬ v.Faults) (f : Frame) :
    v.drawUpper f = some (f.draw (v.upperLines (v.cellWidth f.cols))) := by
  obtain ⟨mem, hmem⟩ := Option.ne_none_iff_exists'.1 fun h => hmem (v.memLine_eq_none_iff.1 h)
  simp only [drawUpper, hmem, Option.bind_eq_bind, Option.bind_some, Frame.emptyLine,
    Frame.cols_lineEnd, upperLines, Option.getD_some, Frame.draw_append, Frame.draw_cons,
    Frame.draw_nil]
  rfl

theorem drawUpper_eq_none (hmem : v.Faults) (f : Frame) : v.drawUpper f = none := by
  simp [drawUpper, v.memLine_eq_none_iff.2 hmem]

/-- The rows of the processes that fit under `n` lines. -/
def procLines (old : Nat → UInt32) (rows n : Nat) : List (List UInt8) :=
  ((ProcView.order (v.sortProcs old)).take (rows - n - 1)).map v.procRow

/-- The lines under `n` lines: the processes, blank ones, the footer. -/
def lowerLines (old : Nat → UInt32) (rows n : Nat) : List (List UInt8) :=
  v.procLines old rows n ++
    List.replicate (rows - (n + (v.procLines old rows n).length + 1)) [] ++ [v.footLine]

theorem drawProcs_eq (old : Nat → UInt32) {f : Frame} (h : f.Inv) :
    v.drawProcs old f = f.draw (v.lowerLines old f.rows f.nlines) := by
  have hinv := h.draw (v.procLines old f.rows f.nlines)
  have hrows := (Frame.same_draw f (v.procLines old f.rows f.nlines)).2.1
  have hn := Frame.nlines_draw h (v.procLines old f.rows f.nlines)
  have hblanks := Frame.blanks_eq hinv (k := f.rows) (by omega)
  have hleft : f.rows - (min f.rows (f.nlines + (v.procLines old f.rows f.nlines).length) + 1) =
      f.rows - (f.nlines + (v.procLines old f.rows f.nlines).length + 1) := by omega
  rw [hrows, hn, hleft] at hblanks
  have hdraw : v.drawProcs old f = ((f.draw (v.procLines old f.rows f.nlines)).blanks
      (f.draw (v.procLines old f.rows f.nlines)).rows).lineEnd v.footLine := rfl
  rw [hdraw, hrows, hblanks, lowerLines, Frame.draw_append, Frame.draw_append, Frame.draw_cons,
    Frame.draw_nil]

/-- Where the upper lines fill the rows nothing is below them either way. -/
theorem lowerLines_min (old : Nat → UInt32) (rows n : Nat) :
    v.lowerLines old rows (min rows n) = v.lowerLines old rows n := by
  have hroom : rows - min rows n - 1 = rows - n - 1 := by omega
  have hprocs : v.procLines old rows (min rows n) = v.procLines old rows n := by
    rw [procLines, hroom, procLines]
  have hleft (k : Nat) : rows - (min rows n + k + 1) = rows - (n + k + 1) := by omega
  rw [lowerLines, hprocs, hleft, lowerLines]

/-- The lines in the order in which they are drawn. -/
def lines (old : Nat → UInt32) (cols rows : Nat) : List (List UInt8) :=
  v.upperLines (v.cellWidth cols) ++
    v.lowerLines old rows (v.upperLines (v.cellWidth cols)).length

/-- The frame is what `line_end` makes of the lines one after the other. -/
theorem render_eq {old : Nat → UInt32} {cols rows : Nat} (hrows : 0 < rows) (hmem : ¬ v.Faults) :
    v.render old cols rows =
      some ((frameBegin v.color cols rows).draw (v.lines old cols rows)) := by
  have hbegin : (frameBegin v.color cols rows).Inv := Frame.inv_frameBegin _ _ hrows
  have hn := Frame.nlines_draw hbegin (v.upperLines (v.cellWidth cols))
  have hr := (Frame.same_draw (frameBegin v.color cols rows) (v.upperLines (v.cellWidth cols))).2.1
  have hlower := v.drawProcs_eq old (hbegin.draw (v.upperLines (v.cellWidth cols)))
  rw [hn, hr] at hlower
  have hzero : (frameBegin v.color cols rows).nlines +
      (v.upperLines (v.cellWidth cols)).length = (v.upperLines (v.cellWidth cols)).length :=
    Nat.zero_add _
  rw [hzero, lowerLines_min] at hlower
  rw [render, v.drawUpper_eq hmem, Option.map_some, lines, Frame.draw_append]
  exact congrArg some hlower

/-! ## how many, how long, how quiet -/

variable (old : Nat → UInt32)

theorem rows_le_length_lines (cols rows : Nat) : rows ≤ (v.lines old cols rows).length := by
  simp only [lines, lowerLines, List.length_append, List.length_replicate, List.length_singleton]
  omega

/-- A line of the frame: within `line_buf`, and quiet where the texts are. -/
def Fair (l : List UInt8) : Prop := ∃ ts, Shows lineCap ts l ∧ ∀ t ∈ ts, t ∈ v.texts

theorem fair_of_shows {l : List UInt8} (h : Shows lineCap [] l) : v.Fair l :=
  ⟨[], h, List.forall_mem_nil _⟩

theorem fair_upperLines (hmem : ¬ v.Faults) {cw : Nat} (hcw : cw ≤ 2) :
    ∀ l ∈ v.upperLines cw, v.Fair l := by
  obtain ⟨mem, hmem⟩ := Option.ne_none_iff_exists'.1 fun h => hmem (v.memLine_eq_none_iff.1 h)
  have hblank : v.Fair [] := v.fair_of_shows (shows_of_quiet (Nat.zero_le _) quiet_nil)
  have hhead : v.Fair v.headLine :=
    ⟨_, v.shows_headLine, fun t ht => List.mem_append_left _ (List.mem_append_left _ ht)⟩
  have hdevices : v.Fair v.devicesLine :=
    ⟨_, v.shows_devicesLine, fun t ht => List.mem_append_left _ (List.mem_append_right _ ht)⟩
  have hgrid : ∀ l ∈ v.gridLines cw, v.Fair l := fun l hl =>
    v.fair_of_shows (v.shows_gridLines hcw l hl)
  rw [upperLines, List.forall_mem_append, List.forall_mem_append, hmem]
  simp [hblank, hhead, hdevices, v.fair_of_shows v.shows_tempsLine,
    v.fair_of_shows (v.shows_memLine hmem), v.fair_of_shows v.shows_pcieLine,
    v.fair_of_shows v.shows_vpuLine, v.fair_of_shows (v.shows_procHeader true)]
  exact hgrid

/-- A process that is shown. -/
theorem procRow_eq {i : Nat} (hi : i ∈ v.visible) :
    ∃ p, v.procs[i]? = some p ∧ v.procRow i = v.procText p (v.procCpu i) := by
  have hlt : i < v.procs.length := by
    simp only [ProcView.visible, List.mem_filter, List.mem_range] at hi
    exact hi.1
  exact ⟨v.procs[i], List.getElem?_eq_getElem hlt, by rw [procRow, List.getElem?_eq_getElem hlt]⟩

theorem fair_procRow {i : Nat} (hi : i ∈ v.visible) : v.Fair (v.procRow i) := by
  obtain ⟨p, hp, hrow⟩ := v.procRow_eq hi
  refine ⟨procTexts p, hrow ▸ v.shows_procText p _, fun t ht => List.mem_append_right _ ?_⟩
  exact List.mem_flatMap.2 ⟨i, hi, by simpa [hp] using ht⟩

theorem cellWidth_le (cols : Nat) : v.cellWidth cols ≤ 2 := by
  unfold cellWidth
  split <;> decide

theorem fair_lines (hmem : ¬ v.Faults) (cols rows : Nat) :
    ∀ l ∈ v.lines old cols rows, v.Fair l := by
  have hprocs : ∀ l ∈ v.procLines old rows (v.upperLines (v.cellWidth cols)).length, v.Fair l := by
    intro l hl
    obtain ⟨i, hi, rfl⟩ := List.mem_map.1 hl
    exact v.fair_procRow ((v.perm_order old).mem_iff.1 (List.mem_of_mem_take hi))
  have hblank : v.Fair [] := v.fair_of_shows (shows_of_quiet (Nat.zero_le _) quiet_nil)
  rw [lines, lowerLines, List.forall_mem_append, List.forall_mem_append, List.forall_mem_append]
  refine ⟨v.fair_upperLines hmem (v.cellWidth_le cols), ⟨hprocs, fun l hl => ?_⟩, fun l hl => ?_⟩
  · rw [List.eq_of_mem_replicate hl]
    exact hblank
  · rw [List.mem_singleton.1 hl]
    exact v.fair_of_shows v.shows_footLine

/-! ## the largest frame -/

/-- A wide terminal's grid has no fewer bytes. -/
theorem weight_gridLines_le (color : Bool) :
    ((v.gridLines 1).map (Frame.weight color)).sum ≤
      ((v.gridLines 2).map (Frame.weight color)).sum := by
  have hruler : Frame.weight color (v.rulerLine 1) ≤ Frame.weight color (v.rulerLine 2) := by
    refine Frame.weight_le_of ?_ fun h => absurd h (v.rulerLine_spec 1).2
    rw [(v.rulerLine_spec 1).1, (v.rulerLine_spec 2).1]
    omega
  have hcells (label : List UInt8) (ls : List UInt64) :
      Frame.weight color (label ++ v.cells 1 0 ls) ≤
        Frame.weight color (label ++ v.cells 2 0 ls) := by
    have hsub := List.Sublist.append_left (v.cells_sublist 0 ls) label
    exact Frame.weight_le_of hsub.length_le fun h => hsub.subset h
  have hthreads : (((List.range v.table.maxThreads).map (v.threadLine 1)).map
      (Frame.weight color)).sum ≤
        (((List.range v.table.maxThreads).map (v.threadLine 2)).map (Frame.weight color)).sum := by
    rw [List.map_map, List.map_map]
    exact List.sum_le_sum fun t _ => hcells _ _
  have hmean := hcells (wLeft (Utf8.bytes "mean") labelWidth) (v.cores.map v.coreLoad)
  simp only [gridLines, List.map_append, List.map_cons, List.map_nil, List.sum_append,
    List.sum_cons, List.sum_nil, List.cons_append]
  exact Nat.add_le_add hruler (Nat.add_le_add hthreads (Nat.add_le_add_right hmean 0))

theorem weight_upperLines_le (color : Bool) (cols : Nat) :
    ((v.upperLines (v.cellWidth cols)).map (Frame.weight color)).sum ≤
      ((v.upperLines 2).map (Frame.weight color)).sum := by
  have hgrid : ((v.gridLines (v.cellWidth cols)).map (Frame.weight color)).sum ≤
      ((v.gridLines 2).map (Frame.weight color)).sum := by
    unfold cellWidth
    split
    · exact Nat.le_refl _
    · exact v.weight_gridLines_le color
  simp only [upperLines, List.map_append, List.sum_append]
  omega

theorem length_visible_le : v.visible.length ≤ 16384 :=
  Nat.le_trans (List.length_filter_le _ _) (by rw [List.length_range]; exact v.nlisted)

theorem length_order : (ProcView.order (v.sortProcs old)).length = v.visible.length :=
  (v.perm_order old).length_eq

/-- The rows of all processes, in any order. -/
theorem sum_order (w : Nat → Nat) :
    ((ProcView.order (v.sortProcs old)).map w).sum = (v.visible.map w).sum :=
  ((v.perm_order old).map w).sum_nat

theorem length_procLines (rows n : Nat) :
    (v.procLines old rows n).length = min (rows - n - 1) v.visible.length := by
  rw [procLines, List.length_map, List.length_take, v.length_order]

/-- The bytes under `n` lines. -/
theorem weight_lowerLines (color : Bool) (rows n : Nat) :
    ((v.lowerLines old rows n).map (Frame.weight color)).sum =
      (((ProcView.order (v.sortProcs old)).take (rows - n - 1)).map fun i =>
        Frame.weight color (v.procRow i)).sum +
      (rows - (n + min (rows - n - 1) v.visible.length + 1)) * Frame.endSize color +
      Frame.weight color v.footLine := by
  simp only [lowerLines, List.map_append, List.sum_append, List.map_replicate,
    List.sum_replicate_nat, Frame.weight_nil, v.length_procLines, List.map_cons, List.map_nil,
    List.sum_cons, List.sum_nil, Nat.add_zero]
  rw [procLines, List.map_map]
  rfl

/-- Where there is no room for all processes there are no blank lines either. -/
theorem weight_lowerLines_le (color : Bool) {rows : Nat} (hrows : rows ≤ 65535) (n : Nat) :
    ((v.lowerLines old rows n).map (Frame.weight color)).sum ≤
      (v.visible.map fun i => Frame.weight color (v.procRow i)).sum +
        (65534 - n - v.visible.length) * Frame.endSize color +
          Frame.weight color v.footLine := by
  have hsome : (((ProcView.order (v.sortProcs old)).take (rows - n - 1)).map fun i =>
      Frame.weight color (v.procRow i)).sum ≤
        (v.visible.map fun i => Frame.weight color (v.procRow i)).sum := by
    rw [← v.sum_order old]
    exact ((List.take_sublist _ _).map _).sum_le_sum fun _ _ => Nat.zero_le _
  have hblanks : rows - (n + min (rows - n - 1) v.visible.length + 1) ≤
      65534 - n - v.visible.length := by omega
  rw [v.weight_lowerLines old]
  exact Nat.add_le_add_right (Nat.add_le_add hsome (Nat.mul_le_mul_right _ hblanks)) _

/-- On the terminal of 65535 rows all processes are shown. -/
theorem weight_lowerLines_all (color : Bool) {n : Nat} (hn : n ≤ 19) :
    ((v.lowerLines old 65535 n).map (Frame.weight color)).sum =
      (v.visible.map fun i => Frame.weight color (v.procRow i)).sum +
        (65534 - n - v.visible.length) * Frame.endSize color +
          Frame.weight color v.footLine := by
  have hcap := v.length_visible_le
  have hall : (ProcView.order (v.sortProcs old)).take (65535 - n - 1) =
      ProcView.order (v.sortProcs old) :=
    List.take_of_length_le (by rw [v.length_order]; omega)
  have hblanks : 65535 - (n + min (65535 - n - 1) v.visible.length + 1) =
      65534 - n - v.visible.length := by omega
  rw [v.weight_lowerLines old, hall, hblanks, v.sum_order old]

theorem length_upperLines_le (cw : Nat) : (v.upperLines cw).length ≤ 19 := by
  have hthreads : v.table.maxThreads ≤ 8 := v.maxThreads
  rw [length_upperLines]
  omega

theorem weight_lines (color : Bool) (cols rows : Nat) :
    ((v.lines old cols rows).map (Frame.weight color)).sum =
      ((v.upperLines (v.cellWidth cols)).map (Frame.weight color)).sum +
        ((v.lowerLines old rows (v.upperLines 2).length).map (Frame.weight color)).sum := by
  rw [lines, List.map_append, List.sum_append, v.length_upperLines, v.length_upperLines]

/-- No frame has more bytes than the largest one. -/
theorem length_le_largest {cols rows : Nat} (hpos : 0 < rows) (hrows : rows ≤ 65535) :
    ((frameBegin v.color cols rows).draw (v.lines old cols rows)).buf.length ≤ v.largest := by
  have hlength : ((frameBegin v.color cols rows).draw (v.lines old cols rows)).buf.length +
      v.color.toNat ≤ Frame.start v.color +
        ((v.lines old cols rows).map (Frame.weight v.color)).sum :=
    Frame.length_le hpos (v.rows_le_length_lines old cols rows)
  have hupper := v.weight_upperLines_le v.color cols
  have hlower := v.weight_lowerLines_le old v.color hrows (v.upperLines 2).length
  rw [v.weight_lines old] at hlength
  rw [largest]
  omega

theorem length_lines_all (cols : Nat) : (v.lines old cols 65535).length = 65535 := by
  have hcap := v.length_visible_le
  have hupper := v.length_upperLines_le (v.cellWidth cols)
  simp only [lines, lowerLines, List.length_append, List.length_replicate, List.length_singleton,
    v.length_procLines]
  omega

theorem take_lines_all (cols : Nat) :
    (v.lines old cols 65535).take 65535 = v.lines old cols 65535 :=
  List.take_of_length_le (Nat.le_of_eq (v.length_lines_all old cols))

/-- The widest and tallest terminal shows the largest frame. -/
theorem length_largest (hmem : ¬ v.Faults) :
    ((frameBegin v.color 65535 65535).draw (v.lines old 65535 65535)).buf.length = v.largest := by
  have hwide : ∀ l ∈ v.lines old 65535 65535, l.length ≤ 65535 := fun l hl => by
    obtain ⟨ts, hshows, -⟩ := v.fair_lines old hmem 65535 65535 l hl
    exact Nat.le_trans hshows.length (by decide)
  have hlength : ((frameBegin v.color 65535 65535).draw (v.lines old 65535 65535)).buf.length +
      v.color.toNat = Frame.start v.color +
        (((v.lines old 65535 65535).take 65535).map (Frame.weight v.color)).sum :=
    Frame.length_wide (by decide) (v.rows_le_length_lines old 65535 65535) hwide
  have hwidth : v.cellWidth 65535 = 2 := by
    have hcores : v.table.ncores ≤ 1024 := v.ncores
    exact if_pos (show 2 * v.table.ncores + 7 ≤ 65535 by omega)
  rw [v.take_lines_all old, v.weight_lines old, hwidth,
    v.weight_lowerLines_all old v.color (v.length_upperLines_le 2)] at hlength
  rw [largest]
  omega

/-! ## stray characters -/

theorem mem_lines_of_visible {i : Nat} (hi : i ∈ v.visible) (cols : Nat) :
    v.procRow i ∈ v.lines old cols 65535 := by
  have hcap := v.length_visible_le
  have hupper := v.length_upperLines_le (v.cellWidth cols)
  have hmem : i ∈ (ProcView.order (v.sortProcs old)).take
      (65535 - (v.upperLines (v.cellWidth cols)).length - 1) := by
    rw [List.take_of_length_le (by rw [v.length_order]; omega)]
    exact (v.perm_order old).mem_iff.2 hi
  exact List.mem_append_right _ (List.mem_append_left _ (List.mem_append_left _
    (List.mem_map_of_mem hmem)))

/-- A text stands on a line that every terminal of 65535 rows shows. -/
theorem line_of_text {t : List UInt8} (ht : t ∈ v.texts) : ∃ l, (Quiet l → Quiet t) ∧
    l.length ≤ lineCap ∧ 0 < counted false l ∧ ∀ cols, l ∈ v.lines old cols 65535 := by
  have hupper {l : List UInt8} (hl : l = v.headLine ∨ l = v.devicesLine) (cols : Nat) :
      l ∈ v.lines old cols 65535 := by
    refine List.mem_append_left _ (List.mem_append_left _ (List.mem_append_left _ ?_))
    rcases hl with rfl | rfl <;> simp
  rcases List.mem_append.1 ht with ht | ht
  · rcases List.mem_append.1 ht with ht | ht
    · exact ⟨v.headLine, fun h => v.shows_headLine.quiet.1 h t ht, v.shows_headLine.length,
        v.counted_headLine, hupper (.inl rfl)⟩
    · exact ⟨v.devicesLine, fun h => v.shows_devicesLine.quiet.1 h t ht,
        v.shows_devicesLine.length, v.counted_devicesLine, hupper (.inr rfl)⟩
  · obtain ⟨i, hi, ht⟩ := List.mem_flatMap.1 ht
    obtain ⟨p, hp, hrow⟩ := v.procRow_eq hi
    have hshows := v.shows_procText p (v.procCpu i)
    rw [hp] at ht
    refine ⟨v.procRow i, fun h => ?_, ?_, ?_, v.mem_lines_of_visible old hi⟩
    · rw [hrow] at h
      exact hshows.quiet.1 h t ht
    · rw [hrow]
      exact hshows.length
    · rw [hrow]
      exact v.counted_procText p _

theorem termSize_bounds (winsize : Option (UInt16 × UInt16)) :
    0 < (termSize winsize).2 ∧ (termSize winsize).2 ≤ 65535 := by
  unfold termSize
  split
  · next row col =>
      split
      · decide
      · next h =>
          have hrow : row.toNat ≠ 0 := fun h0 => h (.inr (UInt16.toNat_inj.1 h0))
          have hlt := row.toNat_lt
          exact ⟨by omega, by omega⟩
  · decide

/-- Every size is one that a terminal can have. -/
theorem termSize_of {cols rows : Nat} (hc : 0 < cols ∧ cols ≤ 65535)
    (hr : 0 < rows ∧ rows ≤ 65535) : ∃ winsize, termSize winsize = (cols, rows) := by
  have hof {n : Nat} (hn : 0 < n ∧ n ≤ 65535) :
      (UInt16.ofNat n).toNat = n ∧ UInt16.ofNat n ≠ 0 := by
    have htoNat : (UInt16.ofNat n).toNat = n := by
      rw [UInt16.toNat_ofNat']
      omega
    exact ⟨htoNat, fun h => by rw [h] at htoNat; simp at htoNat; omega⟩
  refine ⟨some (UInt16.ofNat rows, UInt16.ofNat cols), ?_⟩
  rw [termSize, if_neg (by simp [(hof hc).2, (hof hr).2]), (hof hc).1, (hof hr).1]

/-- The frames fit every terminal exactly where the texts from outside are quiet
and the largest frame has room in its buffer. -/
theorem frames_fit_iff (old : Nat → UInt32) :
    (∀ winsize f, v.render old (termSize winsize).1 (termSize winsize).2 = some f → f.Fits) ↔
      v.Faults ∨ (∀ t ∈ v.texts, Quiet t) ∧ v.largest ≤ frameCap := by
  constructor
  · intro hfits
    by_cases hmem : v.Faults
    · exact .inl hmem
    have hsize {cols : Nat} (hc : 0 < cols ∧ cols ≤ 65535) :
        ((frameBegin v.color cols 65535).draw (v.lines old cols 65535)).Fits := by
      obtain ⟨winsize, hw⟩ := termSize_of hc (show 0 < 65535 ∧ 65535 ≤ 65535 by decide)
      refine hfits winsize _ ?_
      rw [hw]
      exact v.render_eq (show 0 < 65535 by decide) hmem
    refine .inr ⟨fun t ht => ?_, ?_⟩
    · obtain ⟨l, hquiet, hlen, hpos, hl⟩ := v.line_of_text old ht
      have hcap : l.length ≤ 16384 := hlen
      refine hquiet ⟨fun hnew => ?_, ?_⟩
      · exact Frame.not_fits_of_newline (by decide) (v.rows_le_length_lines old _ _)
          (by rw [v.take_lines_all old]; exact hl 65535) (by omega) hnew (hsize (by decide))
      · by_contra hstray
        have hcounted := counted_le_length false l
        exact Frame.not_fits_of_colored (by decide) (by rw [v.take_lines_all old]; exact hl _)
          (by simpa using hstray) (hsize ⟨hpos, by omega⟩)
    · rw [← v.length_largest old hmem]
      exact (hsize (by decide)).frameBuf
  · rintro (hmem | ⟨hquiet, hlargest⟩) winsize f hf
    · simp [render, v.drawUpper_eq_none hmem] at hf
    · obtain ⟨hpos, hrows⟩ := termSize_bounds winsize
      by_cases hmem : v.Faults
      · simp [render, v.drawUpper_eq_none hmem] at hf
      rw [v.render_eq hpos hmem] at hf
      rw [← Option.some.inj hf]
      have hfair := v.fair_lines old hmem (termSize winsize).1 (termSize winsize).2
      refine Frame.fits_whole hpos (v.rows_le_length_lines old _ _) (fun l hl => ?_)
        (fun l hl => ?_) (Nat.le_trans (v.length_le_largest old hpos hrows) hlargest)
      · obtain ⟨ts, hshows, hts⟩ := hfair l hl
        exact hshows.quiet.2 fun t ht => hquiet t (hts t ht)
      · obtain ⟨ts, hshows, -⟩ := hfair l hl
        exact hshows.length

/-! ## frames that do not fit -/

/-- A card with one core, four threads and these processes. -/
def sampleView (procs : List ProcStat) (h : procs.length ≤ snProcCap) : View where
  procs := procs
  procCpu := fun _ => 0
  showKthreads := false
  sortMem := false
  nlisted := h
  color := true
  error := none
  uptimeMs := 60000
  load := (100, 50, 25)
  running := 1
  nprocs := UInt32.ofNat procs.length
  nkthreads := 0
  ncpuSent := 4
  mem := ⟨6000000, 5000000, 1000, 2000, 0, 0⟩
  temps := [45, 46]
  tempPeak := 50
  vcoreMv := 1030
  coreMhz := 1100
  numbers := ⟨1000000, ⟨[0, 0, 0, 0], 0⟩, 0, 0, 0, 0, [], []⟩
  table := ⟨fun _ => ⟨0, 4, UInt16.ofNat⟩, 1, 4⟩
  vpu := none
  errorShort := nofun
  ndisks := by decide
  nnets := by decide
  names := nofun
  ncores := by decide
  maxThreads := by decide

/-- The name begins with a sequence that clears a part of the line. -/
def strayProc : ProcStat := ⟨4711, 83, false, 0, 2048, 1, "\x1b[1Kspin-locker"⟩

def strayView : View := sampleView [strayProc] (by decide)

def plainProc : ProcStat := ⟨4711, 83, false, 0, 2048, 1, "spinning-worker"⟩

def crowdedView : View := sampleView (List.replicate snProcCap plainProc) (by simp)

/-- 16384 rows of 53 bytes, and blank lines of four. -/
theorem crowded_largest : frameCap < crowdedView.largest := by
  have hproc : ∀ i ∈ List.range 16384, crowdedView.procs[i]? = some plainProc := fun i hi =>
    List.getElem?_replicate_of_lt (List.mem_range.1 hi)
  have hvisible : crowdedView.visible = List.range 16384 := by
    have hall : ∀ i ∈ List.range 16384, crowdedView.shown i = true := fun i hi => by
      rw [ProcView.shown, hproc i hi]
      rfl
    have hlen : crowdedView.procs.length = 16384 := List.length_replicate
    rw [ProcView.visible, hlen, List.filter_eq_self.2 hall]
  have hrow : ∀ i ∈ List.range 16384,
      Frame.weight true (crowdedView.procRow i) = 53 := fun i hi => by
    have htext : crowdedView.procRow i = crowdedView.procText plainProc 0 := by
      rw [procRow, hproc i hi]
      rfl
    have hweight : Frame.weight true (crowdedView.procText plainProc 0) = 53 := by
      decide +kernel
    rw [htext, hweight]
  have hsum : ((List.range 16384).map fun i =>
      Frame.weight true (crowdedView.procRow i)).sum = 16384 * 53 := by
    rw [List.map_congr_left hrow, List.map_const', List.sum_replicate_nat, List.length_range]
  have hcolor : crowdedView.color = true := rfl
  have hupper : (crowdedView.upperLines 2).length = 15 := length_upperLines _ 2
  have hblanks : 49135 * Frame.endSize true = 196540 := rfl
  rw [largest, hvisible, hcolor, hupper, hsum, List.length_range, hblanks]
  show 1048576 < _
  simp only [Bool.toNat_true]
  omega

/-- On 40 columns the stray name's row shows 49 characters; on 65535 rows a full
table of processes with plain names does not fit `frame_buf`. -/
theorem frames_overflow :
    (∃ winsize f, strayView.render (fun _ => 0) (termSize winsize).1 (termSize winsize).2 = some f ∧
      ¬ f.Fits) ∧
    ∃ winsize f, crowdedView.render (fun _ => 0) (termSize winsize).1 (termSize winsize).2 =
      some f ∧ ¬ f.Fits := by
  constructor
  · have hwide : ((strayView.render (fun _ => 0) 40 24).map fun f =>
        f.shown.all fun s => visible .plain s.text ≤ f.cols) = some false := by decide +kernel
    obtain ⟨f, hf, hall⟩ := Option.map_eq_some_iff.1 hwide
    obtain ⟨s, hs, hlt⟩ : ∃ s ∈ f.shown, f.cols < visible .plain s.text := by simpa using hall
    exact ⟨some (24, 40), f, hf, fun hfits => absurd (hfits.width s hs) (Nat.not_le_of_lt hlt)⟩
  · have hmem : ¬ crowdedView.Faults := by
      unfold Faults
      decide
    refine ⟨some (65535, 65535), _, crowdedView.render_eq (by decide) hmem, fun hfits => ?_⟩
    have hbuf := hfits.frameBuf
    have hlength := crowdedView.length_largest (fun _ => 0) hmem
    exact absurd (hlength ▸ hbuf) (Nat.not_le_of_lt crowded_largest)

end View

end Phi.Top
