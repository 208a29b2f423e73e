import Mathlib.Data.List.TakeWhile
import Phi.Disk.Reference

/-!
# Phi.Disk.Paths

Both data paths keep to the reference disk.

A turn of the service is cut into its parts.  Each keeps what ties the system to
the reference disk: the memory once the copies out are made, the entries in
flight for every copy that is out, and the statuses answered.
-/

namespace Phi.Disk

open Phi.Ring Blk Circular

/-! ## the system and the reference disk -/

/-- Where a turn stands: the memory once the copies out are made is what the
reference disk has, every copy not made has its entry in flight, and what is or
will be answered is what the reference disk answers. -/
structure System.Right (cardLen : Nat) (d : System) (ref : RefDisk) (fl : List Entry) (n : Nat) :
    Prop where
  laid : d.Laid cardLen
  inStep : d.InStep
  tracks : d.serv.Tracks fl n
  once : d.serv.Once fl n
  out : ∀ k, d.made < k → k ≤ d.serv.chan.submitted → ∃ e ∈ fl, e.seq = k
  same : d.Matches cardLen d.settled d.file ref
  flying : ∀ e ∈ fl, ∃ r, d.serv.records[e.num]? = some r ∧ refStatus d.serv.capacity r = 0#32
  answers : ∀ a ∈ d.serv.answers, ∃ r, d.serv.records[a.num]? = some r ∧
    a.status = refStatus d.serv.capacity r
  running : d.exited = false

section parts

variable {cardLen n : Nat} {d d' : System} {ref : RefDisk} {fl : List Entry}

theorem System.Right.queue_nil (h : d.Right cardLen ref [] n) : d.queue = [] := by
  have hcount := h.inStep.counted
  refine List.eq_nil_of_length_eq_zero (Nat.eq_zero_of_not_pos fun hpos => ?_)
  obtain ⟨e, he, -⟩ := h.out d.serv.chan.submitted (by omega) (Nat.le_refl _)
  cases he

theorem System.settled_of_nil (h : d.queue = []) : d.settled = d.bus := by
  unfold System.settled
  rw [h]
  rfl

/-- Only reads and writes of host memory over the engine are in flight. -/
theorem System.Right.fl_nil (h : d.Right cardLen ref fl n)
    (hp : ¬ (d.serv.backend = .ram ∧ d.serv.path = .dma)) : fl = [] := by
  cases fl with
  | nil => rfl
  | cons e fl =>
      obtain ⟨r, -, hpiped⟩ := (h.tracks.piped e List.mem_cons_self).2
      simp only [Service.pipelined, decide_eq_true_eq] at hpiped
      exact absurd ⟨hpiped.1, hpiped.2.1⟩ hp

/-- Looks at the engine change none of it. -/
theorem System.Right.looks (h : d.Right cardLen ref fl n) (hl : d.Looks d') :
    d'.Right cardLen ref fl n := by
  have hstep := h.inStep.looks hl
  have hsettled := hl.settled
  obtain ⟨c, hserv, hok, hsub, -⟩ := hl.serv
  have hfile := hl.file
  have haper := hl.aperLen
  have hexit := hl.exited
  have hmade := hl.made
  have hsame := h.same
  rw [← hsettled] at hsame
  obtain ⟨serv, aperLen, bus, file, queue, made, failed, exited⟩ := d'
  dsimp only at hserv hfile haper hexit hmade
  subst hserv hfile haper hexit
  exact {
    laid := ⟨h.laid.gddr, h.laid.aper, h.laid.capacity, h.laid.window, h.laid.staging⟩
    inStep := hstep
    tracks := h.tracks.withChan hok (by omega)
    once := ⟨h.once.perm, h.once.answer_tag, h.once.entry_tag⟩
    out := fun k hk hle =>
      h.out k (Nat.lt_of_le_of_lt hmade hk) (Nat.le_trans hle (Nat.le_of_eq hsub))
    same := ⟨hsame.store, hsame.card⟩
    flying := h.flying
    answers := h.answers
    running := h.running }

/-! ## copies -/

theorem System.settled_enqueue (now src dst : W64) (len : Nat) (d : System) :
    (d.enqueue now src dst len).settled =
      Move.apply d.settled ⟨src.toNat % 2 ^ 40, dst.toNat % 2 ^ 40, len⟩ := by
  unfold System.settled System.enqueue
  dsimp only
  rw [List.foldl_append]
  rfl

theorem System.InStep.enqueue (h : d.InStep) (hroom : d.serv.chan.inFlight < maxInFlight)
    (now src dst : W64) (len : Nat) : (d.enqueue now src dst len).InStep := by
  have hle := h.chan.completed_le
  unfold Chan.inFlight at hroom
  refine ⟨⟨Nat.le_succ_of_le hle, ?_⟩, ?_, h.completed⟩
  · show d.serv.chan.submitted + 1 ≤ d.serv.chan.completed + maxInFlight
    omega
  · show d.made + (d.queue ++ [_]).length = d.serv.chan.submitted + 1
    rw [List.length_append, List.length_singleton, ← h.counted]
    omega

/-- What a copy waited for leaves behind: the counts, and the bytes moved. -/
structure System.Copied (d d' : System) (q : Move) : Prop where
  serv : ∃ c : Chan, d'.serv = { d.serv with chan := c } ∧ d.serv.chan.submitted ≤ c.submitted
  inStep : d'.InStep
  queue : d'.queue = []
  bus : d'.bus = q.apply d.bus
  file : d'.file = d.file
  aperLen : d'.aperLen = d.aperLen
  exited : d'.exited = d.exited

/-- A copy between lines of the bus is made when it was waited for, or a look
at the engine failed. -/
theorem System.dmaCopy_spec {p : DiskPass} {src dst : W64} {len : Nat} {ok : Bool}
    (h : d.InStep) (hq : d.queue = []) (hgran : granular src dst len = true)
    (hc : d.dmaCopy p.room p.copy p.now src dst len = some (d', ok)) :
    d'.failed = true ∨ ok = true ∧
      d.Copied d' ⟨src.toNat % 2 ^ 40, dst.toNat % 2 ^ 40, len⟩ := by
  unfold System.dmaCopy at hc
  split at hc
  · cases hc
  · next hs =>
      cases hc
      obtain ⟨-, hf⟩ | ⟨e, -, -, -, heq⟩ := System.looks_dmaSubmit h hgran hs
      · exact .inl hf
      · cases heq
  · next d1 seq hs =>
      obtain ⟨heq, -⟩ | ⟨e, hl, hroom, rfl, heq⟩ := System.looks_dmaSubmit h hgran hs
      · cases heq
      · cases heq
        have hstep := (h.looks hl).enqueue hroom p.now src dst len
        obtain ⟨hl', hf, hmade⟩ := System.looks_dmaWait hstep hc
        cases ok with
        | false => exact .inl (hf rfl)
        | true =>
            refine .inr ⟨rfl, ?_⟩
            obtain ⟨c, hserv, -, hsub, -⟩ := hl.serv
            obtain ⟨c', hserv', -, hsub', -⟩ := hl'.serv
            have hsubmitted : (e.enqueue p.now src dst len).serv.chan.submitted =
                d.serv.chan.submitted + 1 := by
              show e.serv.chan.submitted + 1 = _
              rw [hserv]
              exact congrArg (· + 1) hsub
            have hcount := hl'.counted
            rw [hstep.counted] at hcount
            have hempty : d'.queue = [] := by
              refine List.eq_nil_of_length_eq_zero ?_
              have := hmade rfl
              omega
            exact {
              serv := by
                refine ⟨c', ?_, by omega⟩
                rw [hserv']
                show ({ e.serv with chan := c' } : Service) = _
                rw [hserv]
              inStep := hstep.looks hl'
              queue := hempty
              bus := by
                rw [← System.settled_of_nil hempty, hl'.settled, System.settled_enqueue,
                  hl.settled, System.settled_of_nil hq]
              file := hl'.file.trans hl.file
              aperLen := hl'.aperLen.trans hl.aperLen
              exited := hl'.exited.trans hl.exited }

/-! ## the parts of a turn -/

/-- What a turn changes of the service only when it pops a record. -/
structure System.Kept (d d' : System) : Prop where
  backend : d'.serv.backend = d.serv.backend
  path : d'.serv.path = d.serv.path
  capacity : d'.serv.capacity = d.serv.capacity
  records : d'.serv.records = d.serv.records

theorem System.Kept.refl (d : System) : d.Kept d := ⟨rfl, rfl, rfl, rfl⟩

theorem System.Kept.trans {d'' : System} (h : d.Kept d') (h' : d'.Kept d'') : d.Kept d'' :=
  ⟨h'.backend.trans h.backend, h'.path.trans h.path, h'.capacity.trans h.capacity,
    h'.records.trans h.records⟩

theorem System.Looks.kept (h : d.Looks d') : d.Kept d' := by
  obtain ⟨c, hserv, -⟩ := h.serv
  constructor <;> rw [hserv]

theorem Service.Tracks.completeDone_eq {s : Service} (h : s.Tracks fl n) (done : Nat) :
    s.completeDone done = s.retired (fl.takeWhile fun e => e.seq ≤ done) 0#32 := by
  have hlen : s.ifHead - s.ifTail = fl.length := by
    have hhead := h.flight.head
    omega
  unfold Service.completeDone
  rw [hlen]
  exact Service.answerFrom_eq _ _ h.flight

/-- The entries whose copies are done are answered with what the reference disk
answers. -/
theorem System.Right.completeDone {done : Nat} (h : d.Right cardLen ref fl n)
    (hdone : done ≤ d.made) :
    ({ d with serv := d.serv.completeDone done } : System).Right cardLen ref
      (fl.dropWhile fun e => e.seq ≤ done) n where
  laid := by
    rw [h.tracks.completeDone_eq]
    exact ⟨h.laid.gddr, h.laid.aper, h.laid.capacity, h.laid.window, h.laid.staging⟩
  inStep := by
    rw [h.tracks.completeDone_eq]
    exact ⟨h.inStep.chan, h.inStep.counted, h.inStep.completed⟩
  tracks :=
    (h.tracks.answerWith h.inStep.chan (Nat.le_refl _) (fun e => e.seq ≤ done) 0#32).1
  once := (h.once.answerWith h.tracks h.inStep.chan (Nat.le_refl _) (Nat.le_refl _)
    (fun e => e.seq ≤ done) 0#32).1
  out := by
    rw [h.tracks.completeDone_eq]
    intro k hk hle
    obtain ⟨e, he, hseq⟩ := h.out k hk hle
    refine ⟨e, ?_, hseq⟩
    rw [← List.takeWhile_append_dropWhile (p := fun e => decide (e.seq ≤ done)) (l := fl)] at he
    cases List.mem_append.mp he with
    | inl htake =>
        have hgone := List.mem_takeWhile_imp htake
        rw [decide_eq_true_iff, hseq] at hgone
        exact absurd (Nat.lt_of_le_of_lt hdone hk) (Nat.not_lt.mpr hgone)
    | inr hdrop => exact hdrop
  same := by
    rw [h.tracks.completeDone_eq]
    exact ⟨h.same.store, h.same.card⟩
  flying := by
    rw [h.tracks.completeDone_eq]
    exact fun e he => h.flying e (List.dropWhile_subset _ he)
  answers := by
    rw [h.tracks.completeDone_eq]
    intro a ha
    cases List.mem_append.mp ha with
    | inl hold => exact h.answers a hold
    | inr hnew =>
        obtain ⟨e, he, rfl⟩ := List.mem_map.mp hnew
        obtain ⟨r, hr, hstatus⟩ := h.flying e (List.takeWhile_subset _ he)
        exact ⟨r, hr, hstatus.symm⟩
  running := h.running

theorem System.Right.kept_completeDone (h : d.Right cardLen ref fl n) (done : Nat) :
    d.Kept { d with serv := d.serv.completeDone done } := by
  rw [h.tracks.completeDone_eq]
  exact ⟨rfl, rfl, rfl, rfl⟩

/-- The look at the engine at the top of the turn, which leaves room for one
more entry. -/
theorem System.Right.topPoll (h : d.Right cardLen ref fl n) (l : Peek) :
    (d.topPoll l).failed = true ∨ d.Kept (d.topPoll l) ∧
      ∃ fl', (d.topPoll l).Right cardLen ref fl' n ∧ fl'.length < ifSize := by
  unfold System.topPoll
  split
  · next hidle =>
      have hnil := h.tracks.nil_of_idle hidle
      subst hnil
      exact .inr ⟨.refl d, [], h, by decide⟩
  · split
    · next e done hp =>
        obtain ⟨hl, -, hdone⟩ := System.looks_dmaPoll h.inStep hp
        obtain ⟨hd, hmade⟩ := hdone done rfl
        have he := h.looks hl
        have hright := he.completeDone hmade
        refine .inr ⟨hl.kept.trans (he.kept_completeDone done), _, hright, ?_⟩
        -- what is left in flight is newer than the copies done
        have hbound : ∀ x ∈ fl.dropWhile (fun e => decide (e.seq ≤ done)),
            e.serv.chan.completed < x.seq ∧ x.seq ≤ e.serv.chan.submitted := by
          intro x hx
          have hlt := lt_of_mem_dropWhile he.tracks.sorted hx
          have hle := he.tracks.seq_le x (List.dropWhile_subset _ hx)
          omega
        have hle := length_le_of_sorted hright.tracks.sorted hbound
        have hwin := he.inStep.chan.submitted_le
        unfold ifSize
        unfold maxInFlight at hwin
        omega
    · next e hp =>
        obtain ⟨-, hf, -⟩ := System.looks_dmaPoll h.inStep hp
        have hkept := hf rfl
        exact .inl hkept

/-- The drain before a record served on the spot. -/
theorem System.Right.drain {p : DiskPass} (h : d.Right cardLen ref fl n)
    (hd : d.drain p = some d') :
    d'.failed = true ∨ d.Kept d' ∧ ∃ fl', d'.Right cardLen ref fl' n := by
  unfold System.drain at hd
  split at hd
  · cases hd
    exact .inr ⟨.refl d, fl, h⟩
  · split at hd
    · cases hd
    · next e hw =>
        cases hd
        obtain ⟨hl, -, hmade⟩ := System.looks_dmaWait h.inStep hw
        have he := h.looks hl
        exact .inr ⟨hl.kept.trans (he.kept_completeDone d.serv.drainSeq), _,
          he.completeDone (hmade rfl)⟩
    · next e hw =>
        cases hd
        obtain ⟨-, hf, -⟩ := System.looks_dmaWait h.inStep hw
        have hkept := hf rfl
        exact .inl hkept

theorem System.Right.pop (h : d.Right cardLen ref fl d.serv.records.length) (r : Record) :
    (d.pop r).Right cardLen ref fl d.serv.records.length where
  laid := ⟨h.laid.gddr, h.laid.aper, h.laid.capacity, h.laid.window, h.laid.staging⟩
  inStep := ⟨h.inStep.chan, h.inStep.counted, h.inStep.completed⟩
  tracks := h.tracks.pop r
  once := (h.once.pop r).1
  out := h.out
  same := ⟨h.same.store, h.same.card⟩
  flying e he := by
    obtain ⟨x, hx, hstatus⟩ := h.flying e he
    have hlt := (List.getElem?_eq_some_iff.mp hx).1
    exact ⟨x, (Service.getElem?_records_pop hlt).trans hx, hstatus⟩
  answers a ha := by
    obtain ⟨x, hx, hstatus⟩ := h.answers a ha
    have hlt := (List.getElem?_eq_some_iff.mp hx).1
    exact ⟨x, (Service.getElem?_records_pop hlt).trans hx, hstatus⟩
  running := h.running

/-- The record just popped is answered with what the reference disk answers. -/
theorem System.Right.complete {r : Record} (h : d.Right cardLen ref fl n)
    (hr : d.serv.records[n]? = some r) :
    (d.complete n (d.serv.answerTag r) (refStatus d.serv.capacity r)).Right cardLen ref fl
      (n + 1) where
  laid := ⟨h.laid.gddr, h.laid.aper, h.laid.capacity, h.laid.window, h.laid.staging⟩
  inStep := ⟨h.inStep.chan, h.inStep.counted, h.inStep.completed⟩
  tracks := h.tracks.complete _ _
  once := (h.once.complete (Nat.le_refl _) hr _).1
  out := h.out
  same := ⟨h.same.store, h.same.card⟩
  flying := h.flying
  answers a ha := by
    cases List.mem_append.mp ha with
    | inl hold => exact h.answers a hold
    | inr hnew =>
        rw [List.mem_singleton.mp hnew]
        exact ⟨r, hr, rfl⟩
  running := h.running

/-- The ends of the copy of a record over the engine. -/
def Service.Ends (s : Service) (r : Record) (src dst : W64) : Prop :=
  r.op = opRead ∧ src = s.window r ∧ dst = r.phys ∨
    r.op = opWrite ∧ src = r.phys ∧ dst = s.window r

theorem System.Laid.phys_mod (hl : d.Laid cardLen) {r : Record} (hf : fits d.serv.capacity r)
    (hin : InCard cardLen r) : r.phys.toNat % 2 ^ 40 = r.phys.toNat := by
  have hpos := hf.1
  have hend := hin.2
  have hgddr := hl.gddr
  have hlt := gddrBytes_lt
  have hlt' := smptBase_lt
  exact Nat.mod_eq_of_lt (by omega)

theorem System.Laid.staging_mod (hl : d.Laid cardLen) (hfile : d.serv.backend = .file)
    (hdma : d.serv.path = .dma) : d.serv.staging.toNat % 2 ^ 40 = d.serv.staging.toNat := by
  have htop := (hl.staging hfile hdma).2.2
  have hpos : 0 < maxLen := by decide
  exact Nat.mod_eq_of_lt (by omega)

/-- What the copy of a record over the engine does to the memory is what the
reference disk does. -/
theorem System.Matches.copy {m file : Nat → UInt8} {r : Record}
    (h : d.Matches cardLen m file ref) (hl : d.Laid cardLen) (hram : d.serv.backend = .ram)
    (hf : fits d.serv.capacity r) (hin : InCard cardLen r) {src dst : W64}
    (hends : d.serv.Ends r src dst) :
    granular src dst r.len.toNat = true ∧
      d.Matches cardLen
        (Move.apply m ⟨src.toNat % 2 ^ 40, dst.toNat % 2 ^ 40, r.len.toNat⟩) file
        (ref.apply d.serv.capacity r) := by
  have hwindow := System.window_eq hf hl hram
  obtain ⟨hbase, hline, htop⟩ := hl.window hram
  obtain ⟨hphys, hend⟩ := hin
  have hstore := hf.inStore
  have hpos : 0 < r.len.toNat := hf.1
  have hmodw : (d.serv.window r).toNat % 2 ^ 40 = d.serv.ramCard.toNat + r.sector.toNat * 512 := by
    rw [hwindow]
    exact Nat.mod_eq_of_lt (by omega)
  have hmodp := hl.phys_mod hf ⟨hphys, hend⟩
  have halign : (d.serv.window r).toNat % 64 = 0 := by
    rw [hwindow]
    omega
  unfold Move.apply
  obtain ⟨hop, rfl, rfl⟩ | ⟨hop, rfl, rfl⟩ := hends
  · refine ⟨hf.granular halign hphys, ?_⟩
    rw [hmodw, hmodp, h.readWindow hram hstore, RefDisk.apply_read hf hop]
    exact h.toCard hl (by rw [length_read]; exact hend)
  · refine ⟨hf.granular hphys halign, ?_⟩
    rw [hmodw, hmodp, h.readCard hend, RefDisk.apply_write hf hop]
    exact h.toWindow hl hram _

/-- The record's copy is submitted and its entry is the newest in flight. -/
theorem System.Right.submit {r : Record} {src dst : W64} (h : d.Right cardLen ref fl n)
    (hlen : fl.length < ifSize) (hroom : d.serv.chan.inFlight < maxInFlight)
    (hr : d.serv.records[n]? = some r) (hp : d.serv.pipelined r = true)
    (hf : fits d.serv.capacity r) (hin : InCard cardLen r) (hends : d.serv.Ends r src dst)
    (now : W64) :
    let e := d.enqueue now src dst r.len.toNat
    let seq := d.serv.chan.submitted + 1
    ({ e with serv := { e.serv with
        entries := write e.serv.entries (e.serv.ifHead % ifSize) [⟨r.tag, seq, n⟩]
        ifHead := e.serv.ifHead + 1 } } : System).Right cardLen (ref.apply d.serv.capacity r)
      (fl ++ [⟨r.tag, seq, n⟩]) (n + 1) := by
  have hpiped := hp
  simp only [Service.pipelined, decide_eq_true_eq] at hpiped
  obtain ⟨hram, -, hop⟩ := hpiped
  have hstep := h.inStep.enqueue hroom now src dst r.len.toNat
  have hsame := (h.same.copy h.laid hram hf hin hends).2
  rw [← System.settled_enqueue now] at hsame
  exact {
    laid := ⟨h.laid.gddr, h.laid.aper, h.laid.capacity, h.laid.window, h.laid.staging⟩
    inStep := ⟨hstep.chan, hstep.counted, hstep.completed⟩
    tracks := h.tracks.submit hlen hstep.chan rfl rfl hr hp
    once := (h.once.submit (c := (d.enqueue now src dst r.len.toNat).serv.chan) _ _
      (Nat.le_refl _) hr hop).1
    out := by
      intro k hk hle
      by_cases hnew : k ≤ d.serv.chan.submitted
      · obtain ⟨e, he, hseq⟩ := h.out k hk hnew
        exact ⟨e, List.mem_append_left _ he, hseq⟩
      · refine ⟨_, List.mem_append_right _ (List.mem_singleton.mpr rfl), ?_⟩
        exact Nat.le_antisymm (Nat.lt_of_not_le hnew) hle
    same := ⟨hsame.store, hsame.card⟩
    flying := by
      intro e he
      cases List.mem_append.mp he with
      | inl hold => exact h.flying e hold
      | inr hnew =>
          rw [List.mem_singleton.mp hnew]
          refine ⟨r, hr, ?_⟩
          show refStatus d.serv.capacity r = 0#32
          rw [refStatus_of_le hop, if_pos hf]
    answers := h.answers
    running := h.running }

/-- A record of host memory over the engine: answered, or submitted with its
entry in flight. -/
theorem System.Right.submitRam {p : DiskPass} {r : Record} (h : d.Right cardLen ref fl n)
    (hlen : fl.length < ifSize) (hr : d.serv.records[n]? = some r)
    (hp : d.serv.pipelined r = true) (hin : fits d.serv.capacity r → InCard cardLen r)
    (hs : d.submitRam p n r = some d') :
    d'.failed = true ∨ d.Kept d' ∧
      ∃ fl', d'.Right cardLen (ref.apply d.serv.capacity r) fl' (n + 1) := by
  have hpiped := hp
  simp only [Service.pipelined, decide_eq_true_eq] at hpiped
  obtain ⟨hram, -, hop⟩ := hpiped
  have hcap := h.laid.capacity
  unfold System.submitRam at hs
  rw [checkRecord_eq _ (by omega)] at hs
  by_cases hf : fits d.serv.capacity r
  · rw [if_pos hf] at hs
    dsimp only at hs
    generalize hends : (if r.op = opRead then (d.serv.window r, r.phys)
      else (r.phys, d.serv.window r)) = ends at hs
    obtain ⟨src, dst⟩ := ends
    have hcase : d.serv.Ends r src dst := by
      split at hends
      · next hread =>
          cases hends
          exact .inl ⟨hread, rfl, rfl⟩
      · next hread =>
          cases hends
          exact .inr ⟨op_eq_write hop hread, rfl, rfl⟩
    have hgran := (h.same.copy h.laid hram hf (hin hf) hcase).1
    split at hs
    · cases hs
    · next hsub =>
        cases hs
        obtain ⟨-, hfail⟩ | ⟨e, -, -, -, heq⟩ := System.looks_dmaSubmit h.inStep hgran hsub
        · exact .inl hfail
        · cases heq
    · next seq hsub =>
        obtain ⟨heq, -⟩ | ⟨e, hl, hroom, rfl, heq⟩ := System.looks_dmaSubmit h.inStep hgran hsub
        · cases heq
        · cases heq
          cases hs
          have hkept := hl.kept
          have hright := h.looks hl
          obtain ⟨c, hserv, -, hsubmitted, -⟩ := hl.serv
          have hseq : e.serv.chan.submitted + 1 = d.serv.chan.submitted + 1 := by
            rw [hserv]
            exact congrArg (· + 1) hsubmitted
          have hcase' : e.serv.Ends r src dst := by
            rw [hserv]
            exact hcase
          have hpe : e.serv.pipelined r = true := by
            rw [hserv]
            exact hp
          have hdone := hright.submit hlen hroom (by rw [hkept.records]; exact hr) hpe
            (by rw [hkept.capacity]; exact hf) (hin hf) hcase' p.now
          dsimp only at hdone
          rw [hseq, hkept.capacity] at hdone
          exact .inr ⟨⟨hkept.backend, hkept.path, hkept.capacity, hkept.records⟩, _, hdone⟩
  · rw [if_neg hf] at hs
    cases hs
    have hright := h.complete hr
    rw [Service.answerTag_of_le hop, refStatus_of_le hop, if_neg hf] at hright
    rw [RefDisk.apply_of_not_fits hf]
    exact .inr ⟨⟨rfl, rfl, rfl, rfl⟩, fl, hright⟩

/-- With nothing in flight, only the counts, the memory and the file matter. -/
theorem System.Right.settle {ref' : RefDisk} (h : d.Right cardLen ref [] n)
    (hserv : ∃ c : Chan, d'.serv = { d.serv with chan := c } ∧
      d.serv.chan.submitted ≤ c.submitted)
    (hstep : d'.InStep) (hq : d'.queue = []) (haper : d'.aperLen = d.aperLen)
    (hexit : d'.exited = d.exited) (hsame : d.Matches cardLen d'.bus d'.file ref') :
    d.Kept d' ∧ d'.Right cardLen ref' [] n := by
  have hsettled := System.settled_of_nil hq
  obtain ⟨c, hserv, hsub⟩ := hserv
  obtain ⟨serv, aperLen, bus, file, queue, made, failed, exited⟩ := d'
  dsimp only at hserv haper hexit hsame hq
  subst hserv haper hexit hq
  refine ⟨⟨rfl, rfl, rfl, rfl⟩, ?_⟩
  exact {
    laid := ⟨h.laid.gddr, h.laid.aper, h.laid.capacity, h.laid.window, h.laid.staging⟩
    inStep := hstep
    tracks := h.tracks.withChan hstep.chan hsub
    once := ⟨h.once.perm, h.once.answer_tag, h.once.entry_tag⟩
    out := by
      intro k hk hle
      have hcount : made + 0 = c.submitted := hstep.counted
      exact absurd (Nat.lt_of_lt_of_le hk hle) (Nat.not_lt.mpr (Nat.le_of_eq hcount.symm))
    same := by
      rw [hsettled]
      exact ⟨hsame.store, hsame.card⟩
    flying := h.flying
    answers := h.answers
    running := h.running }

/-- Bytes of the store through the aperture. -/
theorem System.Right.intoCard {r : Record} {bs : List UInt8} (h : d.Right cardLen ref [] n)
    (hin : InCard cardLen r) (hbs : bs.length = r.len.toNat) :
    (d.intoCard r bs).2 = true ∧ d.Kept (d.intoCard r bs).1 ∧
      (d.intoCard r bs).1.Right cardLen
        { ref with card := write ref.card r.phys.toNat bs } [] n := by
  have hend : r.phys.toNat + bs.length ≤ cardLen := by
    rw [hbs]
    exact hin.2
  have hgddr := h.laid.gddr
  have haper := h.laid.aper
  have hsame := h.same.toCard h.laid hend
  rw [System.settled_of_nil h.queue_nil] at hsame
  unfold System.intoCard
  rw [writeCardMemory_eq _ (by omega) (by omega)]
  exact ⟨rfl, h.settle ⟨d.serv.chan, rfl, Nat.le_refl _⟩
    ⟨h.inStep.chan, h.inStep.counted, h.inStep.completed⟩ h.queue_nil rfl rfl hsame⟩

/-- `do_read` does what the reference disk does. -/
theorem System.Right.doRead {p : DiskPass} {r : Record} {ok : Bool}
    (h : d.Right cardLen ref fl n) (hp : ¬ (d.serv.backend = .ram ∧ d.serv.path = .dma))
    (hf : fits d.serv.capacity r) (hop : r.op = opRead) (hin : InCard cardLen r)
    (hd : d.doRead p r r.len.toNat = some (d', ok)) :
    d'.failed = true ∨ ok = true ∧ d.Kept d' ∧
      d'.Right cardLen (ref.apply d.serv.capacity r) fl n := by
  have hnil := h.fl_nil hp
  subst hnil
  have hsettled := System.settled_of_nil h.queue_nil
  have hsame := h.same
  rw [hsettled] at hsame
  have hoff := System.offset_eq hf h.laid.capacity
  have hstore := hf.inStore
  rw [RefDisk.apply_read hf hop]
  unfold System.doRead at hd
  split at hd
  · next hram =>
      rw [hoff, hsame.readWindow hram hstore] at hd
      have hcard := h.intoCard hin
        (length_read ref.store (r.sector.toNat * 512) r.len.toNat)
      rw [Option.some.inj hd] at hcard
      exact .inr hcard
  · next hram =>
      have hfile : d.serv.backend = .file := by
        cases hb : d.serv.backend with
        | file => rfl
        | ram => exact absurd hb hram
      split at hd
      · cases hd
      · cases hd
        exact .inl rfl
      · next bs hread =>
          have hbs := preadAll_eq hread
          rw [hoff, hsame.readFile hfile hstore] at hbs
          have hlen : bs.length = r.len.toNat := by rw [hbs, length_read]
          rw [← hbs]
          split at hd
          · next hdma =>
              obtain ⟨hbase, hline, -⟩ := h.laid.staging hfile hdma
              obtain hfail | ⟨hok, hcopied⟩ := System.dmaCopy_spec (d := { d with
                bus := write d.bus d.serv.staging.toNat bs })
                ⟨h.inStep.chan, h.inStep.counted, h.inStep.completed⟩ h.queue_nil
                (hf.granular hline hin.1) hd
              · exact .inl hfail
              · refine .inr ⟨hok, h.settle hcopied.serv hcopied.inStep hcopied.queue
                  hcopied.aperLen hcopied.exited ?_⟩
                rw [hcopied.bus, hcopied.file]
                unfold Move.apply
                dsimp only
                rw [h.laid.staging_mod hfile hdma, h.laid.phys_mod hf hin, ← hlen, read_write]
                have hend : r.phys.toNat + bs.length ≤ cardLen := by
                  rw [hlen]
                  exact hin.2
                exact (hsame.scratch h.laid hfile hbase bs).toCard h.laid hend
          · have hcard := h.intoCard hin hlen
            rw [Option.some.inj hd] at hcard
            exact .inr hcard

/-- The bytes of the card into the file. -/
theorem System.Right.intoFile {p : DiskPass} {r : Record} {bs : List UInt8} {ok : Bool}
    (h : d.Right cardLen ref [] n) (hfile : d.serv.backend = .file)
    (hi : d.intoFile p r bs = some (d', ok)) :
    d'.failed = true ∨ ok = true ∧ d.Kept d' ∧
      d'.Right cardLen { ref with store := write ref.store (System.offset r) bs } [] n := by
  have hsame := h.same
  rw [System.settled_of_nil h.queue_nil] at hsame
  obtain ⟨⟨file, done⟩, hw, heq⟩ := Option.map_eq_some_iff.mp hi
  cases done with
  | false =>
      cases heq
      exact .inl (Bool.or_true _)
  | true =>
      have hwritten := pwriteAll_eq hw
      cases heq
      refine .inr ⟨rfl, h.settle ⟨d.serv.chan, rfl, Nat.le_refl _⟩
        ⟨h.inStep.chan, h.inStep.counted, h.inStep.completed⟩ h.queue_nil rfl rfl ?_⟩
      dsimp only
      rw [hwritten]
      exact hsame.toFile hfile _ _

/-- `do_write` does what the reference disk does. -/
theorem System.Right.doWrite {p : DiskPass} {r : Record} {ok : Bool}
    (h : d.Right cardLen ref fl n) (hp : ¬ (d.serv.backend = .ram ∧ d.serv.path = .dma))
    (hf : fits d.serv.capacity r) (hop : r.op = opWrite) (hin : InCard cardLen r)
    (hd : d.doWrite p r r.len.toNat = some (d', ok)) :
    d'.failed = true ∨ ok = true ∧ d.Kept d' ∧
      d'.Right cardLen (ref.apply d.serv.capacity r) fl n := by
  have hnil := h.fl_nil hp
  subst hnil
  have hsame := h.same
  rw [System.settled_of_nil h.queue_nil] at hsame
  have hoff := System.offset_eq hf h.laid.capacity
  have hread := hsame.readCard hin.2
  rw [RefDisk.apply_write hf hop, ← hoff]
  unfold System.doWrite at hd
  split at hd
  · next hstage =>
      obtain ⟨hfile, hdma⟩ := hstage
      obtain ⟨hbase, hline, -⟩ := h.laid.staging hfile hdma
      have hgran := hf.granular hin.1 hline
      split at hd
      · cases hd
      · next e hc =>
          cases hd
          obtain hfail | ⟨hok, -⟩ := System.dmaCopy_spec h.inStep h.queue_nil hgran hc
          · exact .inl hfail
          · cases hok
      · next e hc =>
          obtain hfail | ⟨-, hcopied⟩ := System.dmaCopy_spec h.inStep h.queue_nil hgran hc
          · exact .inl (System.failed_intoFile hd hfail)
          · have hbus := hcopied.bus
            unfold Move.apply at hbus
            dsimp only at hbus
            rw [h.laid.staging_mod hfile hdma, h.laid.phys_mod hf hin, hread] at hbus
            have hback : Circular.read e.bus d.serv.staging.toNat r.len.toNat =
                Circular.read ref.card r.phys.toNat r.len.toNat := by
              have hwrite := read_write d.bus d.serv.staging.toNat
                (Circular.read ref.card r.phys.toNat r.len.toNat)
              rw [length_read] at hwrite
              rw [hbus, hwrite]
            have hmatches : d.Matches cardLen e.bus e.file ref := by
              rw [hbus, hcopied.file]
              exact hsame.scratch h.laid hfile hbase _
            obtain ⟨hkept, hright⟩ := h.settle hcopied.serv hcopied.inStep hcopied.queue
              hcopied.aperLen hcopied.exited hmatches
            have hstaging : e.serv.staging = d.serv.staging := by
              obtain ⟨c, hserv, -⟩ := hcopied.serv
              rw [hserv]
            rw [hstaging, hback] at hd
            obtain hfail | ⟨hok, hkept', hright'⟩ :=
              hright.intoFile (by rw [hkept.backend]; exact hfile) hd
            · exact .inl hfail
            · exact .inr ⟨hok, hkept.trans hkept', hright'⟩
  · next hstage =>
      have hgddr := h.laid.gddr
      have haper := h.laid.aper
      have hend := hin.2
      rw [readCardMemory_eq _ (by omega) (by omega), hread] at hd
      dsimp only at hd
      split at hd
      · next hram =>
          cases hd
          refine .inr ⟨rfl, h.settle ⟨d.serv.chan, rfl, Nat.le_refl _⟩
            ⟨h.inStep.chan, h.inStep.counted, h.inStep.completed⟩ h.queue_nil rfl rfl ?_⟩
          exact hsame.toWindow h.laid hram _
      · next hram =>
          have hfile : d.serv.backend = .file := by
            cases hb : d.serv.backend with
            | file => rfl
            | ram => exact absurd hb hram
          exact h.intoFile hfile hd

/-- `serve_one` does and answers what the reference disk does. -/
theorem System.Right.serveOne {p : DiskPass} {r : Record} {status : W32}
    (h : d.Right cardLen ref fl n) (hp : d.serv.pipelined r = false)
    (hin : fits d.serv.capacity r → InCard cardLen r) (hs : d.serveOne p r = some (d', status)) :
    d'.failed = true ∨ d.Kept d' ∧ status = refStatus d.serv.capacity r ∧
      d'.Right cardLen (ref.apply d.serv.capacity r) fl n := by
  have hcap := h.laid.capacity
  unfold System.serveOne at hs
  unfold refStatus
  split at hs
  · next hident =>
      cases hs
      rw [RefDisk.apply_of_lt (by rw [hident]; decide)]
      exact .inr ⟨.refl d, by rw [if_pos hident], h⟩
  · next hident =>
      rw [if_neg hident]
      split at hs
      · next hflush =>
          rw [RefDisk.apply_of_lt (by rw [hflush]; decide), if_pos hflush]
          split at hs
          · cases hs
            exact .inl rfl
          · cases hs
            exact .inr ⟨.refl d, rfl, h⟩
      · next hflush =>
          rw [if_neg hflush]
          split at hs
          · next hlt =>
              cases hs
              rw [RefDisk.apply_of_lt hlt, if_pos hlt]
              exact .inr ⟨.refl d, rfl, h⟩
          · next hlt =>
              have hop : r.op ≤ opWrite := by bv_omega
              have hpath : ¬ (d.serv.backend = .ram ∧ d.serv.path = .dma) := by
                intro hboth
                unfold Service.pipelined at hp
                exact absurd ⟨hboth.1, hboth.2, hop⟩ (of_decide_eq_false hp)
              rw [if_neg hlt]
              rw [checkRecord_eq _ (by omega)] at hs
              by_cases hf : fits d.serv.capacity r
              · rw [if_pos hf] at hs ⊢
                obtain ⟨⟨e, ok⟩, hmove, heq⟩ := Option.map_eq_some_iff.mp hs
                dsimp only at heq
                cases heq
                have hdone : d'.failed = true ∨ ok = true ∧ d.Kept d' ∧
                    d'.Right cardLen (ref.apply d.serv.capacity r) fl n := by
                  split at hmove
                  · next hread => exact h.doRead hpath hf hread (hin hf) hmove
                  · next hread =>
                      exact h.doWrite hpath hf (op_eq_write hop hread) (hin hf) hmove
                obtain hfail | ⟨hok, hkept, hright⟩ := hdone
                · exact .inl hfail
                · exact .inr ⟨hkept, by rw [if_pos hok], hright⟩
              · rw [if_neg hf] at hs ⊢
                cases hs
                rw [RefDisk.apply_of_not_fits hf]
                exact .inr ⟨.refl d, rfl, h⟩

/-- The record served on the spot. -/
theorem System.Right.serve {p : DiskPass} {r : Record} (h : d.Right cardLen ref fl n)
    (hr : d.serv.records[n]? = some r) (hp : d.serv.pipelined r = false)
    (hin : fits d.serv.capacity r → InCard cardLen r) (hs : d.serve p n r = some d') :
    d'.failed = true ∨ d.Kept d' ∧
      d'.Right cardLen (ref.apply d.serv.capacity r) fl (n + 1) := by
  obtain ⟨⟨e, status⟩, hone, heq⟩ := Option.map_eq_some_iff.mp hs
  obtain hfail | ⟨hkept, hstatus, hright⟩ := h.serveOne hp hin hone
  · dsimp only at heq
    refine .inl ?_
    split at heq
    · cases heq
      exact hfail
    · cases heq
      exact hfail
  · have hdone := hright.complete (r := r) (by rw [hkept.records]; exact hr)
    dsimp only at heq
    rw [hright.running, if_neg Bool.false_ne_true, hstatus, ← hkept.capacity] at heq
    cases heq
    exact .inr ⟨⟨hkept.backend, hkept.path, hkept.capacity, hkept.records⟩, hdone⟩

end parts

/-! ## whole runs -/

section turns

variable {cardLen : Nat} {d d' : System} {ref : RefDisk} {fl : List Entry}

/-- What one record after the other does. -/
def RefDisk.serve (capacity : Nat) (ref : RefDisk) (records : List Record) : RefDisk :=
  records.foldl (RefDisk.apply capacity) ref

/-- One turn of the loop. -/
theorem System.Right.blkStep {p : DiskPass} (h : d.Right cardLen ref fl d.serv.records.length)
    (hin : ∀ r ∈ p.record, fits d.serv.capacity r → InCard cardLen r)
    (ht : d.blkStep p = some d') :
    d'.failed = true ∨ d'.serv.capacity = d.serv.capacity ∧
      d'.serv.records = d.serv.records ++ p.record.toList ∧
      ∃ fl', d'.Right cardLen (ref.serve d.serv.capacity p.record.toList) fl'
        d'.serv.records.length := by
  unfold System.blkStep at ht
  rw [if_neg (by rw [h.running]; decide)] at ht
  dsimp only at ht
  have htop := h.topPoll p.poll
  have hfailed := System.failed_topPoll (d := d) p.poll
  generalize d.topPoll p.poll = e at ht htop hfailed
  cases hrec : p.record with
  | none =>
      rw [hrec] at ht
      cases ht
      obtain hfail | ⟨hkept, fl1, hright, -⟩ := htop
      · exact .inl hfail
      · refine .inr ⟨hkept.capacity, ?_, fl1, ?_⟩
        · rw [hkept.records]
          exact (List.append_nil _).symm
        · rw [hkept.records]
          exact hright
  | some r =>
      rw [hrec] at ht
      dsimp only at ht
      obtain hfail | ⟨hkept, fl1, hright, hlen⟩ := htop
      · -- what comes after does not mend a failure
        refine .inl ?_
        split at ht
        · exact System.failed_submitRam ht hfail
        · split at ht
          · cases ht
          · next u hdrain => exact System.failed_serve ht (System.failed_drain hdrain hfail)
      · rw [← hkept.records] at hright ⊢
        rw [← hkept.capacity] at hin ⊢
        have hpop := hright.pop r
        have hr : (e.pop r).serv.records[e.serv.records.length]? = some r :=
          List.getElem?_concat_length
        have hin' := hin r hrec
        suffices hdone : d'.failed = true ∨ (e.pop r).Kept d' ∧ ∃ fl',
            d'.Right cardLen (ref.apply e.serv.capacity r) fl' (e.serv.records.length + 1) by
          obtain hfail | ⟨hkept', fl', hright'⟩ := hdone
          · exact .inl hfail
          · have hlength : d'.serv.records.length = e.serv.records.length + 1 := by
              rw [hkept'.records]
              exact List.length_append
            rw [hlength]
            exact .inr ⟨hkept'.capacity, hkept'.records, fl', hright'⟩
        split at ht
        · next hp => exact hpop.submitRam hlen hr hp hin' ht
        · next hp =>
            split at ht
            · cases ht
            · next u hdrain =>
                obtain hfail | ⟨hkept1, fl2, hright2⟩ := hpop.drain hdrain
                · exact .inl (System.failed_serve ht hfail)
                · have hpu : u.serv.pipelined r = false := by
                    unfold Service.pipelined at hp ⊢
                    rw [hkept1.backend, hkept1.path]
                    exact Bool.eq_false_iff.mpr hp
                  have hinu : fits u.serv.capacity r → InCard cardLen r := by
                    rw [hkept1.capacity]
                    exact hin'
                  obtain hfail | ⟨hkept2, hright3⟩ :=
                    hright2.serve (by rw [hkept1.records]; exact hr) hpu hinu ht
                  · exact .inl hfail
                  · rw [hkept1.capacity] at hright3
                    exact .inr ⟨hkept1.trans hkept2, fl2, hright3⟩

/-- A failure stays for the rest of a run. -/
theorem System.failed_blkStep {p : DiskPass} (ht : d.blkStep p = some d')
    (hf : d.failed = true) : d'.failed = true := by
  unfold System.blkStep at ht
  split at ht
  · cases ht
    exact hf
  · dsimp only at ht
    have htop := System.failed_topPoll p.poll hf
    split at ht
    · cases ht
      exact htop
    · split at ht
      · exact System.failed_submitRam ht htop
      · split at ht
        · cases ht
        · next hdrain => exact System.failed_serve ht (System.failed_drain hdrain htop)

end turns

/-- Where the loop stands between two turns: a look at the engine or an access
to the file failed, or the records popped so far did what they do to the
reference disk. -/
def System.Agrees (cardLen capacity : Nat) (ref : RefDisk) (d : System) : Prop :=
  d.failed = true ∨ d.serv.capacity = capacity ∧
    ∃ fl, d.Right cardLen (ref.serve capacity d.serv.records) fl d.serv.records.length

theorem System.Agrees.step {cardLen capacity : Nat} {ref : RefDisk} {d : System} {p : DiskPass}
    (h : d.Agrees cardLen capacity ref)
    (hin : ∀ r ∈ p.record, fits capacity r → InCard cardLen r) :
    (d.step p).Agrees cardLen capacity ref := by
  unfold System.step
  cases ht : d.blkStep p with
  | none => exact h
  | some d' =>
      obtain hfail | ⟨hcap, fl, hright⟩ := h
      · exact .inl (System.failed_blkStep ht hfail)
      · subst hcap
        obtain hfail | ⟨hcap, hrecs, fl', hright'⟩ := hright.blkStep hin ht
        · exact .inl hfail
        · refine .inr ⟨hcap, fl', ?_⟩
          show d'.Right cardLen (RefDisk.serve d.serv.capacity ref d'.serv.records) fl'
            d'.serv.records.length
          have hserve : RefDisk.serve d.serv.capacity ref d'.serv.records =
              (RefDisk.serve d.serv.capacity ref d.serv.records).serve d.serv.capacity
                p.record.toList := by
            rw [hrecs]
            exact List.foldl_append
          rw [hserve]
          exact hright'

theorem System.Agrees.run {cardLen capacity : Nat} {ref : RefDisk} {d : System}
    {ps : List DiskPass} (h : d.Agrees cardLen capacity ref)
    (hin : ∀ p ∈ ps, ∀ r ∈ p.record, fits capacity r → InCard cardLen r) :
    (run System.step d ps).Agrees cardLen capacity ref :=
  run_inv (fun _ _ h hin => h.step hin) h (along_of_mem hin d)

/-- A turn that pops a record the check rejects, or none, leaves the store and
the card's memory, once the copies out are made. -/
theorem System.Right.rejected {cardLen : Nat} {ref : RefDisk} {fl : List Entry} {d : System}
    {p : DiskPass} (h : d.Right cardLen ref fl d.serv.records.length)
    (hrej : ∀ r ∈ p.record, checkRecord d.serv.capacity r = none)
    (hfail : (d.step p).failed = false) :
    (d.step p).Matches cardLen (d.step p).settled (d.step p).file ref := by
  have hnot : ∀ r ∈ p.record, ¬ fits d.serv.capacity r := by
    intro r hr hf
    have hcap := h.laid.capacity
    have hchk := hrej r hr
    rw [checkRecord_eq _ (by omega), if_pos hf] at hchk
    cases hchk
  have hserve : ref.serve d.serv.capacity p.record.toList = ref := by
    cases hrec : p.record with
    | none => rfl
    | some r => exact RefDisk.apply_of_not_fits (hnot r hrec)
  unfold System.step at hfail ⊢
  cases ht : d.blkStep p with
  | none => exact h.same
  | some d' =>
      rw [ht] at hfail
      obtain hfailed | ⟨-, -, fl', hright⟩ :=
        h.blkStep (fun r hr hf => absurd hf (hnot r hr)) ht
      · have hclash := hfailed.symm.trans hfail
        cases hclash
      · rw [hserve] at hright
        exact hright.same

/-! ## the opened service -/

def dmaDataIova : Nat := 0x10100000
def hostmemIova : Nat := 0x100000000

/-- The card address of the staging buffer of a channel. -/
def stagingCard (chan : Nat) : W64 := BitVec.ofNat 64 (smptBase + dmaDataIova + chan <<< 20)

/-- The card address of host memory. -/
def hostmemCard : W64 := BitVec.ofNat 64 (smptBase + hostmemIova)

def Backend.chan : Backend → Nat
  | .file => 0
  | .ram => 1

/-- `blk_open` over a store of `bytes` bytes: the memory and the file as the
service finds them, and the copies of its self-test made. -/
def diskOpen (backend : Backend) (path : Path) (bytes : Nat) (bounce : Bool) (copies : Nat)
    (progress : W64) (aperLen : Nat) (bus file : Nat → UInt8) : System where
  serv := blkOpen backend path (bytes / 512) hostmemCard (stagingCard backend.chan) bounce copies
    progress
  aperLen := aperLen
  bus := bus
  file := file
  queue := []
  made := copies
  failed := false
  exited := false

/-- The reference disk of the store and the memory the service finds. -/
def System.reference (d : System) : RefDisk := ⟨d.storeByte d.bus d.file, d.bus⟩

theorem stagingCard_toNat (backend : Backend) :
    smptBase ≤ (stagingCard backend.chan).toNat ∧ (stagingCard backend.chan).toNat % 64 = 0 ∧
      (stagingCard backend.chan).toNat + maxLen ≤ 2 ^ 40 := by
  cases backend <;> decide

theorem hostmemCard_toNat : hostmemCard.toNat = smptBase + hostmemIova := by decide

theorem diskOpen_right {cardLen aperLen bytes : Nat} (hcard : cardLen ≤ gddrBytes)
    (haper : cardLen ≤ aperLen) (hbytes : bytes < 2 ^ 63) (backend : Backend)
    (hwindow : backend = .ram → smptBase + hostmemIova + bytes ≤ 2 ^ 40) (path : Path)
    (bounce : Bool) (copies : Nat) (progress : W64) (bus file : Nat → UInt8) :
    let d := diskOpen backend path bytes bounce copies progress aperLen bus file
    d.Right cardLen d.reference [] 0 where
  laid := {
    gddr := hcard
    aper := haper
    capacity := by
      show bytes / 512 * 512 < 2 ^ 63
      omega
    window := by
      intro hram
      have htop := hwindow hram
      show smptBase ≤ hostmemCard.toNat ∧ hostmemCard.toNat % 64 = 0 ∧
        hostmemCard.toNat + bytes / 512 * 512 ≤ 2 ^ 40
      rw [hostmemCard_toNat]
      refine ⟨Nat.le_add_right _ _, by decide, by omega⟩
    staging := fun _ _ => stagingCard_toNat backend }
  inStep := ⟨⟨Nat.le_refl _, Nat.le_add_right _ _⟩, rfl, Nat.le_refl _⟩
  tracks := blkOpen_tracks ..
  once := ⟨.refl _, by simp [diskOpen, blkOpen], by simp⟩
  out k hk hle := absurd (Nat.lt_of_lt_of_le hk hle) (Nat.lt_irrefl _)
  same := ⟨fun _ _ => rfl, fun _ _ => rfl⟩
  flying e he := by cases he
  answers a ha := by cases ha
  running := rfl

/-- **Both data paths keep to the reference disk.**  However the engine keeps
up and whichever path the service came up with, as long as the engine and the
file do not fail: once the copies out are made, the store and the card's memory
are what the reference disk has after the records popped, one by one; every
record popped is answered once or still in flight, with the status the reference
disk gives; with nothing in flight no copy is out; and a turn that pops a record
the check rejects leaves store and memory. -/
theorem disk_agrees {cardLen aperLen bytes : Nat} (hcard : cardLen ≤ gddrBytes)
    (haper : cardLen ≤ aperLen) (hbytes : bytes < 2 ^ 63) (backend : Backend)
    (hwindow : backend = .ram → smptBase + hostmemIova + bytes ≤ 2 ^ 40) (path : Path)
    (bounce : Bool) (copies : Nat) (progress : W64) (bus file : Nat → UInt8)
    (ps : List DiskPass)
    (hin : ∀ p ∈ ps, ∀ r ∈ p.record, fits (bytes / 512) r → InCard cardLen r)
    (hfail : (run System.step
      (diskOpen backend path bytes bounce copies progress aperLen bus file) ps).failed = false) :
    let start := diskOpen backend path bytes bounce copies progress aperLen bus file
    let d := run System.step start ps
    let ref := start.reference.serve (bytes / 512) d.serv.records
    d.Matches cardLen d.settled d.file ref ∧
    (d.serv.answered ++ d.serv.inFlight.map Entry.num).Perm (List.range d.serv.records.length) ∧
    (∀ a ∈ d.serv.answers, ∃ r, d.serv.records[a.num]? = some r ∧
      a.status = refStatus (bytes / 512) r) ∧
    (d.serv.inFlight = [] → d.settled = d.bus) ∧
    d.exited = false ∧
    ∀ p, (∀ r ∈ p.record, checkRecord (bytes / 512) r = none) → (d.step p).failed = false →
      (d.step p).Matches cardLen (d.step p).settled (d.step p).file ref := by
  intro start d ref
  have hopen : start.Agrees cardLen (bytes / 512) start.reference :=
    .inr ⟨rfl, [], diskOpen_right hcard haper hbytes backend hwindow path bounce copies progress
      bus file⟩
  obtain hfailed | ⟨hcap, fl, hright⟩ := hopen.run hin
  · have hclash := hfailed.symm.trans hfail
    cases hclash
  · have hfl := hright.tracks.flight.inFlight_eq
    refine ⟨hright.same, ?_, ?_, ?_, hright.running, ?_⟩
    · rw [hfl]
      exact hright.once.perm
    · intro a ha
      rw [← hcap]
      exact hright.answers a ha
    · intro hidle
      rw [hfl] at hidle
      rw [hidle] at hright
      exact System.settled_of_nil hright.queue_nil
    · intro p hrej hstep
      rw [← hcap] at hrej
      exact hright.rejected hrej hstep

/-- Nothing is moved yet when the host looks. -/
def idlePeek : Peek := ⟨0, 0, 0, 0#64⟩

def turnWith (poll : Peek) (record : Option Record) : DiskPass where
  poll := poll
  record := record
  room := []
  drain := []
  copy := []
  now := 0#64
  io := []
  sync := true

/-- A write and a read of one sector of host memory over the engine, both copies
made when the host looks again. -/
theorem disk_agrees_two :
    let start := diskOpen .ram .dma 1048576 false 34 0#64 gddrBytes (fun _ => 0) fun _ => 0
    let d := run System.step start [
      turnWith idlePeek (some ⟨1#32, opWrite, 512#32, 8#64, 0x2000#64⟩),
      turnWith idlePeek (some ⟨2#32, opRead, 512#32, 8#64, 0x3000#64⟩),
      turnWith ⟨2, 36, 36, 0#64⟩ none]
    let ref := start.reference.serve 2048 d.serv.records
    d.Matches gddrBytes d.settled d.file ref ∧
    (d.serv.answered ++ d.serv.inFlight.map Entry.num).Perm (List.range d.serv.records.length) ∧
    (∀ a ∈ d.serv.answers, ∃ r, d.serv.records[a.num]? = some r ∧
      a.status = refStatus 2048 r) ∧
    (d.serv.inFlight = [] → d.settled = d.bus) ∧
    d.exited = false ∧
    ∀ p, (∀ r ∈ p.record, checkRecord 2048 r = none) → (d.step p).failed = false →
      (d.step p).Matches gddrBytes (d.step p).settled (d.step p).file ref :=
  disk_agrees (Nat.le_refl _) (Nat.le_refl _) (by decide) .ram (fun _ => by decide) .dma false 34
    0#64 _ _ _ (by decide) (by decide)

end Phi.Disk
