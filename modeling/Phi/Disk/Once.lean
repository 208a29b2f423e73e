import Phi.Disk.Order

/-!
# Phi.Disk.Once

Every record popped is answered once.

A record is answered on the spot or lies in the area of 64 entries until its
copy is done or the engine fails; the numbers answered and the numbers in
flight together are always those of the records popped, each once.  An entry
stays as it was written until its completion is pushed, and an engine that
moves on, or stalls for two seconds, leaves none unanswered.
-/

namespace Phi.Disk

open Phi.Ring Blk Circular Phi.Modular

/-! ## what is in flight -/

/-- The entries from the tail to the head. -/
def Service.inFlight (s : Service) : List Entry :=
  (List.range (s.ifHead - s.ifTail)).map fun i => s.entries ((s.ifTail + i) % ifSize)

/-- Where a pass stands: `fl` is in flight, and the first `n` records are
answered or in flight, each once and under its own tag. -/
structure Service.Once (s : Service) (fl : List Entry) (n : Nat) : Prop where
  perm : (s.answered ++ fl.map Entry.num).Perm (List.range n)
  answer_tag : ∀ a ∈ s.answers, ∃ r, s.records[a.num]? = some r ∧ a.tag = s.answerTag r
  entry_tag : ∀ e ∈ fl, ∃ r, s.records[e.num]? = some r ∧ e.tag = s.answerTag r

/-- From `s` to `t` no answer is taken back and no entry in flight lost: it is
still there, or its completion was pushed. -/
structure Service.Keeps (s t : Service) (fl fl' : List Entry) : Prop where
  answers : s.answers <+: t.answers
  entries : ∀ e ∈ fl, e ∈ fl' ∨ ∃ status, ⟨e.num, e.tag, status⟩ ∈ t.answers
  completed : s.chan.completed ≤ t.chan.completed

section

variable {s t u : Service} {fl fl' fl'' : List Entry} {n : Nat}

theorem Service.Flight.inFlight_eq (h : s.Flight fl) : s.inFlight = fl := by
  have hlen : s.ifHead - s.ifTail = fl.length := by
    have hhead := h.head
    omega
  unfold inFlight
  rw [hlen]
  refine List.ext_getElem (by simp) fun i h1 h2 => ?_
  rw [List.getElem_map, List.getElem_range]
  exact h.holds i h2

theorem Service.Keeps.refl (s : Service) (fl : List Entry) : s.Keeps s fl fl :=
  ⟨List.prefix_rfl, fun _ he => .inl he, Nat.le_refl _⟩

theorem Service.Keeps.trans (h : s.Keeps t fl fl') (h' : t.Keeps u fl' fl'') :
    s.Keeps u fl fl'' where
  answers := h.answers.trans h'.answers
  entries e he := by
    obtain hkept | ⟨status, hans⟩ := h.entries e he
    · exact h'.entries e hkept
    · exact .inr ⟨status, h'.answers.subset hans⟩
  completed := Nat.le_trans h.completed h'.completed

/-! ## the parts of a pass -/

/-- After looks at the engine the oldest entries are answered, perhaps none. -/
theorem Service.Once.retired {gone rest : List Entry} {c : Chan} (h : s.Once (gone ++ rest) n)
    (hle : s.chan.completed ≤ c.completed) (status : W32) :
    (({ s with chan := c } : Service).retired gone status).Once rest n ∧
      s.Keeps (({ s with chan := c } : Service).retired gone status) (gone ++ rest) rest := by
  refine ⟨⟨?_, ?_, fun e he => h.entry_tag e (List.mem_append_right _ he)⟩,
    ⟨List.prefix_append _ _, ?_, hle⟩⟩
  · have hans : (({ s with chan := c } : Service).retired gone status).answered =
        s.answered ++ gone.map Entry.num := by
      simp [Service.answered, Service.retired]
    rw [hans, List.append_assoc, ← List.map_append]
    exact h.perm
  · intro a ha
    cases List.mem_append.mp ha with
    | inl hold => exact h.answer_tag a hold
    | inr hnew =>
        obtain ⟨e, he, rfl⟩ := List.mem_map.mp hnew
        exact h.entry_tag e (List.mem_append_left _ he)
  · intro e he
    cases List.mem_append.mp he with
    | inl hgone =>
        exact .inr ⟨status, List.mem_append_right _ (List.mem_map_of_mem hgone)⟩
    | inr hrest => exact .inl hrest

/-- The record just popped is answered under its tag. -/
theorem Service.Once.complete {c : Chan} {r : Record} (h : s.Once fl n)
    (hle : s.chan.completed ≤ c.completed) (hr : s.records[n]? = some r) (status : W32) :
    (({ s with chan := c } : Service).complete n (s.answerTag r) status).Once fl (n + 1) ∧
      s.Keeps (({ s with chan := c } : Service).complete n (s.answerTag r) status) fl fl := by
  refine ⟨⟨?_, ?_, h.entry_tag⟩, ⟨List.prefix_append _ _, fun e he => .inl he, hle⟩⟩
  · have hans : (({ s with chan := c } : Service).complete n (s.answerTag r) status).answered =
        s.answered ++ [n] := by
      simp [Service.answered, Service.complete]
    rw [hans, List.range_succ, List.append_assoc]
    refine (List.Perm.append_left _ List.perm_append_comm).trans ?_
    rw [← List.append_assoc]
    exact h.perm.append_right [n]
  · intro a ha
    cases List.mem_append.mp ha with
    | inl hold => exact h.answer_tag a hold
    | inr hnew =>
        rw [List.mem_singleton.mp hnew]
        exact ⟨r, hr, rfl⟩

/-- A read or write is answered under its own tag. -/
theorem Service.answerTag_of_le {r : Record} (hop : r.op ≤ opWrite) : s.answerTag r = r.tag := by
  have hident : r.op ≠ opIdent := by
    intro heq
    rw [heq] at hop
    exact absurd hop (by decide)
  unfold Service.answerTag
  rw [if_neg hident]

/-- The record just popped is submitted. -/
theorem Service.Once.submit {c : Chan} {r : Record} (seq : Nat) (entries : Nat → Entry)
    (h : s.Once fl n) (hle : s.chan.completed ≤ c.completed) (hr : s.records[n]? = some r)
    (hop : r.op ≤ opWrite) :
    ({ s with chan := c, entries := entries, ifHead := s.ifHead + 1 } : Service).Once
        (fl ++ [⟨r.tag, seq, n⟩]) (n + 1) ∧
      s.Keeps { s with chan := c, entries := entries, ifHead := s.ifHead + 1 } fl
        (fl ++ [⟨r.tag, seq, n⟩]) := by
  refine ⟨⟨?_, h.answer_tag, ?_⟩,
    ⟨List.prefix_rfl, fun e he => .inl (List.mem_append_left _ he), hle⟩⟩
  · rw [List.map_append, ← List.append_assoc, List.range_succ]
    exact h.perm.append_right [n]
  · intro e he
    cases List.mem_append.mp he with
    | inl hold => exact h.entry_tag e hold
    | inr hnew =>
        rw [List.mem_singleton.mp hnew]
        exact ⟨r, hr, (Service.answerTag_of_le hop).symm⟩

/-- Popping a record leaves the records before it what they are. -/
theorem Service.Once.pop (h : s.Once fl s.records.length) (r : Record) :
    (s.pop r).Once fl s.records.length ∧ s.Keeps (s.pop r) fl fl := by
  have hold : ∀ (m : Nat) (r' : Record), s.records[m]? = some r' →
      (s.pop r).records[m]? = some r' := by
    intro m r' hr'
    rw [Service.getElem?_records_pop (List.getElem?_eq_some_iff.mp hr').1]
    exact hr'
  refine ⟨⟨h.perm, ?_, ?_⟩, ⟨List.prefix_rfl, fun e he => .inl he, Nat.le_refl _⟩⟩
  · intro a ha
    obtain ⟨r', hr', htag⟩ := h.answer_tag a ha
    exact ⟨r', hold _ _ hr', htag⟩
  · intro e he
    obtain ⟨r', hr', htag⟩ := h.entry_tag e he
    exact ⟨r', hold _ _ hr', htag⟩

/-- Answers given from the tail on after a look at the engine. -/
theorem Service.Once.answerWith {c : Chan} (h : s.Tracks fl n) (ho : s.Once fl n) (hok : c.Ok)
    (hsub : s.chan.submitted ≤ c.submitted) (hle : s.chan.completed ≤ c.completed)
    (isDone : Entry → Bool) (status : W32) :
    let t := ({ s with chan := c } : Service).answerFrom isDone status (s.ifHead - s.ifTail)
    t.Once (fl.dropWhile isDone) n ∧ s.Keeps t fl (fl.dropWhile isDone) ∧ t.chan = c := by
  have hlen : s.ifHead - s.ifTail = fl.length := by
    have hhead := h.flight.head
    omega
  have hsplit : fl.takeWhile isDone ++ fl.dropWhile isDone = fl := List.takeWhile_append_dropWhile
  have heq := Service.answerFrom_eq isDone status (h.withChan hok hsub).flight
  dsimp only
  rw [hlen, heq]
  rw [← hsplit] at ho
  have hparts := ho.retired hle status
  rw [hsplit] at hparts
  exact ⟨hparts.1, hparts.2, rfl⟩

/-- The look at the engine at the top of a pass.  What it leaves in flight is
newer than the copies done, and more of them are done unless it was still. -/
theorem Service.Once.topPoll (h : s.Tracks fl n) (ho : s.Once fl n) (r : Reading) :
    ∃ fl', (s.topPoll r).Tracks fl' n ∧ fl'.length < ifSize ∧ s.Same (s.topPoll r) ∧
      (s.topPoll r).Once fl' n ∧ s.Keeps (s.topPoll r) fl fl' ∧
      ∀ e ∈ fl', (s.topPoll r).chan.completed < e.seq ∧
        (¬ s.chan.Still r → s.chan.completed < (s.topPoll r).chan.completed) := by
  obtain ⟨fl', ht, hlen, -, hsame⟩ := h.topPoll r
  suffices hparts : ∃ fl'', (s.topPoll r).Tracks fl'' n ∧ (s.topPoll r).Once fl'' n ∧
      s.Keeps (s.topPoll r) fl fl'' ∧ ∀ e ∈ fl'', (s.topPoll r).chan.completed < e.seq ∧
        (¬ s.chan.Still r → s.chan.completed < (s.topPoll r).chan.completed) by
    obtain ⟨fl'', ht', hparts⟩ := hparts
    have hsame' : fl'' = fl' := by
      rw [← ht'.flight.inFlight_eq, ht.flight.inFlight_eq]
    subst hsame'
    exact ⟨fl'', ht, hlen, hsame, hparts⟩
  unfold Service.topPoll
  split
  · next hidle =>
      have hnil := h.nil_of_idle hidle
      subst hnil
      exact ⟨[], h, ho, .refl _ _, by simp⟩
  · cases hp : dmaPoll r s.chan with
    | mk c res =>
        obtain ⟨hok, hsub, hdone⟩ := dmaPoll_spec h.chan hp
        have hle := dmaPoll_completed hp
        cases res with
        | none =>
            have htracks := (h.answerWith hok (by omega) (fun _ => true) statusEio).1
            obtain ⟨honce, hkeeps, -⟩ :=
              ho.answerWith h hok (by omega) hle (fun _ => true) statusEio
            rw [dropWhile_true] at htracks honce hkeeps
            exact ⟨[], htracks, honce, hkeeps, by simp⟩
        | some done =>
            have htracks := (h.answerWith hok (by omega) (fun e => e.seq ≤ done) 0#32).1
            obtain ⟨honce, hkeeps, hchan⟩ :=
              ho.answerWith h hok (by omega) hle (fun e => e.seq ≤ done) 0#32
            refine ⟨_, htracks, honce, hkeeps, fun e he => ?_⟩
            have hd := hdone done rfl
            have hlt := lt_of_mem_dropWhile h.sorted he
            have hgiven := h.seq_le e (List.dropWhile_subset _ he)
            show Chan.completed (Service.chan (Service.answerFrom _ _ _ _)) < e.seq ∧ _
            rw [hchan]
            refine ⟨by omega, fun hmove => ?_⟩
            show s.chan.completed < Chan.completed (Service.chan (Service.answerFrom _ _ _ _))
            rw [hchan]
            obtain hall | hmore := dmaPoll_moved h.chan hmove hp
            · omega
            · omega

/-- The drain answers what it finds done, or all of it. -/
theorem Service.Once.drain {p : Pass} (h : s.Tracks fl n) (ho : s.Once fl n)
    (ht : s.drain p = some t) : ∃ fl', t.Once fl' n ∧ s.Keeps t fl fl' ∧ t.inFlight = fl' := by
  unfold Service.drain at ht
  split at ht
  · cases ht
    exact ⟨fl, ho, .refl _ _, h.flight.inFlight_eq⟩
  · split at ht
    · cases ht
    · next c hwait =>
        cases ht
        obtain ⟨hok, hsub⟩ := dmaWait_spec h.chan hwait
        have hle := dmaWait_completed hwait
        have htracks := (h.answerWith hok (by omega) (fun e => e.seq ≤ s.drainSeq) 0#32).1
        obtain ⟨honce, hkeeps, -⟩ :=
          ho.answerWith h hok (by omega) hle (fun e => e.seq ≤ s.drainSeq) 0#32
        exact ⟨_, honce, hkeeps, htracks.flight.inFlight_eq⟩
    · next c hwait =>
        cases ht
        obtain ⟨hok, hsub⟩ := dmaWait_spec h.chan hwait
        have hle := dmaWait_completed hwait
        have htracks := (h.answerWith hok (by omega) (fun _ => true) statusEio).1
        obtain ⟨honce, hkeeps, -⟩ := ho.answerWith h hok (by omega) hle (fun _ => true) statusEio
        exact ⟨_, honce, hkeeps, htracks.flight.inFlight_eq⟩

/-- `submit_ram` answers the record or puts it in flight. -/
theorem Service.Once.submitRam {p : Pass} {r : Record} (h : s.Tracks fl n) (ho : s.Once fl n)
    (hlen : fl.length < ifSize) (hr : s.records[n]? = some r) (hp : s.pipelined r = true)
    (ht : s.submitRam p n r = some t) :
    ∃ fl', t.Once fl' (n + 1) ∧ s.Keeps t fl fl' ∧ t.inFlight = fl' := by
  have hop : r.op ≤ opWrite := by
    simp only [Service.pipelined, decide_eq_true_eq] at hp
    exact hp.2.2
  have htag := Service.answerTag_of_le (s := s) hop
  unfold Service.submitRam at ht
  split at ht
  · cases ht
    have hparts := ho.complete (c := s.chan) (Nat.le_refl _) hr statusEinval
    rw [htag] at hparts
    exact ⟨fl, hparts.1, hparts.2, h.flight.inFlight_eq⟩
  · dsimp only at ht
    split at ht
    · cases ht
    · next c hsub =>
        cases ht
        have hparts := ho.complete (dmaSubmit_completed hsub) hr statusEio
        rw [htag] at hparts
        exact ⟨fl, hparts.1, hparts.2, h.flight.inFlight_eq⟩
    · next c seq hsub =>
        cases ht
        obtain ⟨hok, -, hseq⟩ := dmaSubmit_spec h.chan hsub
        obtain ⟨h1, h2⟩ := hseq seq rfl
        have hparts := ho.submit seq (write s.entries (s.ifHead % ifSize) [⟨r.tag, seq, n⟩])
          (dmaSubmit_completed hsub) hr hop
        exact ⟨_, hparts.1, hparts.2, (h.submit hlen hok h1 h2 hr hp).flight.inFlight_eq⟩

theorem Service.copy_completed {p : Pass} {src dst : W64} {len : Nat} {f : Bool → Bool} {ok : Bool}
    (h : (dmaCopy p.room p.copy p.now src dst len s.chan).map
      (fun x => (({ s with chan := x.1 } : Service), f x.2)) = some (t, ok)) :
    s.chan.completed ≤ t.chan.completed := by
  obtain ⟨⟨c, fin⟩, hc, heq⟩ := Option.map_eq_some_iff.mp h
  cases heq
  exact dmaCopy_completed hc

/-- Serving a record takes back no copy. -/
theorem Service.serveOne_completed {p : Pass} {r : Record} {status : W32}
    (h : s.serveOne p r = some (t, status)) : s.chan.completed ≤ t.chan.completed := by
  have hread : ∀ len ok, s.doRead p r len = some (t, ok) →
      s.chan.completed ≤ t.chan.completed := by
    intro len ok hd
    unfold Service.doRead at hd
    split at hd
    · cases hd
      exact Nat.le_refl _
    · split at hd
      · cases hd
        exact Nat.le_refl _
      · split at hd
        · exact copy_completed (f := id) hd
        · cases hd
          exact Nat.le_refl _
  have hwrite : ∀ len ok, s.doWrite p r len = some (t, ok) →
      s.chan.completed ≤ t.chan.completed := by
    intro len ok hd
    unfold Service.doWrite at hd
    split at hd
    · cases hd
      exact Nat.le_refl _
    · split at hd
      · exact copy_completed (f := fun ok => ok && p.store) hd
      · cases hd
        exact Nat.le_refl _
  unfold Service.serveOne at h
  split at h
  · cases h
    exact Nat.le_refl _
  · split at h
    · cases h
      exact Nat.le_refl _
    · split at h
      · cases h
        exact Nat.le_refl _
      · split at h
        · cases h
          exact Nat.le_refl _
        · obtain ⟨⟨u, done⟩, hu, heq⟩ := Option.map_eq_some_iff.mp h
          cases heq
          split at hu
          · exact hread _ _ hu
          · exact hwrite _ _ hu

/-- A record served on the spot is answered. -/
theorem Service.Once.serve {p : Pass} {r : Record} (h : s.Tracks fl n) (ho : s.Once fl n)
    (hr : s.records[n]? = some r) (ht : s.serve p n r = some t) :
    t.Once fl (n + 1) ∧ s.Keeps t fl fl ∧ t.inFlight = fl := by
  unfold Service.serve at ht
  obtain ⟨⟨u, status⟩, hu, heq⟩ := Option.map_eq_some_iff.mp ht
  have hle := Service.serveOne_completed hu
  obtain ⟨c, rfl, hok, hsub⟩ := Service.serveOne_spec h.chan hu
  cases heq
  obtain ⟨honce, hkeeps⟩ := ho.complete hle hr status
  exact ⟨honce, hkeeps, h.flight.inFlight_eq⟩

/-- One turn: what is in flight after it is answered, or the engine came nearer
to it unless the look at the top was still. -/
theorem Service.Once.blkStep {p : Pass} (h : s.Tracks fl s.records.length)
    (ho : s.Once fl s.records.length) (ht : blkStep p s = some t) :
    ∃ fl', t.Tracks fl' t.records.length ∧ t.Once fl' t.records.length ∧ s.Keeps t fl fl' ∧
      ∀ e ∈ fl, e.num ∈ t.answered ∨ e ∈ fl' ∧ (¬ s.chan.Still p.poll →
        s.chan.completed < t.chan.completed ∧ s.chan.completed + 1 < e.seq) := by
  obtain ⟨⟨fl', ht'⟩, -⟩ := blkStep_spec h ht
  obtain ⟨fl1, h1, hlen1, hsame1, ho1, hk1, hnew1⟩ := ho.topPoll h p.poll
  suffices hrest : ∃ fl'', t.Once fl'' t.records.length ∧ (s.topPoll p.poll).Keeps t fl1 fl'' ∧
      t.inFlight = fl'' by
    obtain ⟨fl'', ho', hk, hfl⟩ := hrest
    have hsame : fl'' = fl' := by rw [← hfl, ht'.flight.inFlight_eq]
    subst hsame
    refine ⟨fl'', ht', ho', hk1.trans hk, fun e he => ?_⟩
    have hmem : ∀ status, (⟨e.num, e.tag, status⟩ : Answer) ∈ t.answers → e.num ∈ t.answered :=
      fun status hans => List.mem_map_of_mem (f := Answer.num) hans
    obtain hkept1 | ⟨status, hans⟩ := hk1.entries e he
    · obtain hkept | ⟨status, hans⟩ := hk.entries e hkept1
      · refine .inr ⟨hkept, fun hstill => ?_⟩
        obtain ⟨hlt, hmove⟩ := hnew1 e hkept1
        have hmore := hmove hstill
        have hle := hk.completed
        exact ⟨by omega, by omega⟩
      · exact .inl (hmem status hans)
    · exact .inl (hmem status (hk.answers.subset hans))
  unfold Disk.blkStep at ht
  rw [← hsame1.records] at h1 ho1
  cases hrec : p.record with
  | none =>
      rw [hrec] at ht
      cases ht
      exact ⟨fl1, ho1, .refl _ _, h1.flight.inFlight_eq⟩
  | some r =>
      rw [hrec] at ht
      dsimp only at ht
      have h2 := h1.pop r
      obtain ⟨ho2, hk2⟩ := ho1.pop r
      have hr : ((s.topPoll p.poll).pop r).records[(s.topPoll p.poll).records.length]? =
          some r := by simp [Service.pop]
      have hcount : ((s.topPoll p.poll).pop r).records.length =
          (s.topPoll p.poll).records.length + 1 := by simp [Service.pop]
      split at ht
      · next hp =>
          obtain ⟨fl'', ho3, hk3, hfl⟩ := ho2.submitRam h2 hlen1 hr hp ht
          obtain ⟨-, -, hrecs⟩ := h2.submitRam hlen1 hr hp ht
          rw [hrecs, hcount]
          exact ⟨fl'', ho3, hk2.trans hk3, hfl⟩
      · next hp =>
          split at ht
          · cases ht
          · next u hdrain =>
              obtain ⟨fl2, h3, -, hsame3, -⟩ := h2.drain hlen1 hdrain
              obtain ⟨fl2', ho3, hk3, hfl2⟩ := ho2.drain h2 hdrain
              have hsame : fl2' = fl2 := by rw [← hfl2, h3.flight.inFlight_eq]
              subst hsame
              have hpu : u.pipelined r = false := by
                rw [hsame3.pipelined]
                simpa using hp
              have hru : u.records[(s.topPoll p.poll).records.length]? = some r := by
                rw [hsame3.records]
                exact hr
              obtain ⟨ho4, hk4, hfl4⟩ := ho3.serve h3 hru ht
              obtain ⟨-, -, hrecs⟩ := h3.serve hru hpu ht
              rw [hrecs, hsame3.records, hcount]
              exact ⟨_, ho4, (hk2.trans hk3).trans hk4, hfl4⟩

end

/-! ## room for a completion -/

/-- `CPL_SIZE`. -/
def cplSize : Nat := 8

/-- `ring_free`. -/
def ringFree (size head tail : W32) : Nat :=
  if size < head - tail then 0 else (size - (head - tail)).toNat

/-- `complete` pushes when there is room for all of a completion, which the card
cannot take away: it only moves the tail on. -/
theorem pushCount_completion {g : Geometry} {T n k : Nat} (hn : n ≤ g.size.toNat) (hk : k ≤ n)
    (hfree : cplSize ≤ ringFree g.size (BitVec.ofNat 32 (T + n)) (BitVec.ofNat 32 T)) :
    pushCount g.size (BitVec.ofNat 32 (T + n)) (BitVec.ofNat 32 (T + k)) cplSize = cplSize := by
  have hsz := g.size.isLt
  have hused := toNat_ofNat_sub 32 (m := T + n) (n := T) (by omega) (by omega)
  have hused' := toNat_ofNat_sub 32 (m := T + n) (n := T + k) (by omega) (by omega)
  have hroom : cplSize ≤ g.size.toNat - n := by
    unfold ringFree at hfree
    split at hfree
    · exact absurd hfree (by decide)
    · rw [BitVec.toNat_sub_of_le (by rw [BitVec.le_def, hused]; omega), hused] at hfree
      omega
  have hpos : 0 < cplSize := by decide
  have hlt : ¬ g.size ≤ BitVec.ofNat 32 (T + n) - BitVec.ofNat 32 (T + k) := by
    rw [BitVec.le_def, hused']
    omega
  unfold pushCount
  dsimp only
  rw [if_neg hlt, BitVec.toNat_sub_of_le (by rw [BitVec.le_def, hused']; omega), hused']
  omega

/-! ## whole runs -/

/-- The looks at the top of the passes that are not still. -/
def moves : Service → List Pass → Nat
  | _, [] => 0
  | s, p :: ps => (if s.chan.Still p.poll then 0 else 1) + moves (s.step p) ps

/-- Some entries are in flight and every record is accounted for. -/
def Service.Sound (s : Service) : Prop :=
  ∃ fl, s.Tracks fl s.records.length ∧ s.Once fl s.records.length

theorem Service.Finishes.blkStep_eq {s : Service} {p : Pass} (h : s.Finishes p) :
    blkStep p s = some (s.step p) := by
  unfold Service.step
  obtain ⟨t, ht⟩ := Option.isSome_iff_exists.mp h
  rw [ht]
  rfl

theorem Service.Sound.step {s : Service} {p : Pass} (h : s.Sound) (hfin : s.Finishes p) :
    (s.step p).Sound ∧ s.Keeps (s.step p) s.inFlight (s.step p).inFlight := by
  obtain ⟨fl, ht, ho⟩ := h
  obtain ⟨fl', ht', ho', hk, -⟩ := ho.blkStep ht hfin.blkStep_eq
  rw [ht.flight.inFlight_eq, ht'.flight.inFlight_eq]
  exact ⟨⟨fl', ht', ho'⟩, hk⟩

theorem Service.Sound.run {s : Service} {ps : List Pass} (h : s.Sound)
    (hfin : Along Service.step Service.Finishes s ps) : (Phi.run Service.step s ps).Sound :=
  run_inv (fun _ _ hs hf => (hs.step hf).1) h hfin

theorem Service.Sound.keeps {s : Service} {ps : List Pass} (h : s.Sound)
    (hfin : Along Service.step Service.Finishes s ps) :
    Along Service.step (fun t p => t.Keeps (t.step p) t.inFlight (t.step p).inFlight) s ps := by
  induction ps generalizing s with
  | nil => trivial
  | cons p ps ih =>
      obtain ⟨hnext, hk⟩ := h.step hfin.1
      exact ⟨hk, ih hnext hfin.2⟩

/-- No answer is taken back. -/
theorem Service.Sound.answered_run {s : Service} {ps : List Pass} {m : Nat} (h : s.Sound)
    (hfin : Along Service.step Service.Finishes s ps) (hm : m ∈ s.answered) :
    m ∈ (Phi.run Service.step s ps).answered := by
  have hstep : ∀ (t : Service) (p : Pass), t.Sound ∧ m ∈ t.answered → t.Finishes p →
      (t.step p).Sound ∧ m ∈ (t.step p).answered := by
    intro t p ⟨ht, hmt⟩ hf
    obtain ⟨hnext, hk⟩ := ht.step hf
    exact ⟨hnext, (hk.answers.map Answer.num).subset hmt⟩
  exact (run_inv hstep ⟨h, hm⟩ hfin).2

/-- An entry is answered once the looks at the engine moved on as often as
copies are out up to it. -/
theorem answered_of_moves {s : Service} {fl : List Entry} {e : Entry} {ps : List Pass}
    (ht : s.Tracks fl s.records.length) (ho : s.Once fl s.records.length) (he : e ∈ fl)
    (hfin : Along Service.step Service.Finishes s ps)
    (hm : e.seq - s.chan.completed ≤ moves s ps) (hpos : 0 < moves s ps) :
    e.num ∈ (run Service.step s ps).answered := by
  induction ps generalizing s fl with
  | nil => exact absurd hpos (Nat.lt_irrefl 0)
  | cons p ps ih =>
      obtain ⟨fl', ht', ho', hk, hprogress⟩ := ho.blkStep ht hfin.1.blkStep_eq
      obtain hans | ⟨hkept, hmore⟩ := hprogress e he
      · exact Service.Sound.answered_run (s := s.step p) ⟨fl', ht', ho'⟩ hfin.2 hans
      · have hle := hk.completed
        unfold moves at hm hpos
        by_cases hstill : s.chan.Still p.poll
        · rw [if_pos hstill] at hm hpos
          exact ih ht' ho' hkept hfin.2 (by omega) (by omega)
        · rw [if_neg hstill] at hm
          obtain ⟨h1, h2⟩ := hmore hstill
          exact ih ht' ho' hkept hfin.2 (by omega) (by omega)

/-- **Every record popped is answered once.**  At any time the answers and the
entries in flight are the records popped, each once and under its own tag,
identify records under the tag that tells the path; an entry stays until its
completion is pushed; and once the engine moved on often enough every record
popped before is answered. -/
theorem answered_once (backend : Backend) (path : Path) (capacity : Nat) (ramCard staging : W64)
    (bounce : Bool) (copies : Nat) (progress : W64) (ps : List Pass)
    (h : Along Service.step Service.Finishes
      (blkOpen backend path capacity ramCard staging bounce copies progress) ps) :
    let start := blkOpen backend path capacity ramCard staging bounce copies progress
    let s := run Service.step start ps
    (s.answered ++ s.inFlight.map Entry.num).Perm (List.range s.records.length) ∧
    (∀ a ∈ s.answers, ∃ r, s.records[a.num]? = some r ∧ a.tag = s.answerTag r) ∧
    Along Service.step (fun t p => t.Keeps (t.step p) t.inFlight (t.step p).inFlight) start ps ∧
    ∀ qs, Along Service.step Service.Finishes s qs → maxInFlight ≤ moves s qs →
      ∀ m < s.records.length, m ∈ (run Service.step s qs).answered := by
  dsimp only
  generalize hs : blkOpen backend path capacity ramCard staging bounce copies progress = s at h ⊢
  have hfresh : s.Sound := by
    subst hs
    refine ⟨[], blkOpen_tracks .., ?_⟩
    exact ⟨.refl _, by simp [blkOpen], by simp⟩
  obtain ⟨fl, ht, ho⟩ := hfresh.run h
  have hfl := ht.flight.inFlight_eq
  rw [hfl]
  refine ⟨ho.perm, ho.answer_tag, hfresh.keeps h, fun qs hqs hm m hlt => ?_⟩
  have hmem := (ho.perm.mem_iff (a := m)).mpr (List.mem_range.mpr hlt)
  cases List.mem_append.mp hmem with
  | inl hans => exact Service.Sound.answered_run ⟨fl, ht, ho⟩ hqs hans
  | inr hflight =>
      obtain ⟨e, he, rfl⟩ := List.mem_map.mp hflight
      have hseq := ht.seq_le e he
      have hwin := ht.chan.submitted_le
      refine answered_of_moves ht ho he hqs (by omega) (Nat.lt_of_lt_of_le ?_ hm)
      decide

/-- A write and a read over the engine, both done at the next look. -/
theorem answered_once_two :
    let start := blkOpen .ram .dma 2048 0x9000000000#64 0x8010100000#64 false 3 0#64
    let ps := [passWith 3 writeRecord, passWith 3 writeRecord, passWith 5 writeRecord]
    let s := run Service.step start ps
    (s.answered ++ s.inFlight.map Entry.num).Perm (List.range s.records.length) ∧
    (∀ a ∈ s.answers, ∃ r, s.records[a.num]? = some r ∧ a.tag = s.answerTag r) ∧
    Along Service.step (fun t p => t.Keeps (t.step p) t.inFlight (t.step p).inFlight) start ps ∧
    ∀ qs, Along Service.step Service.Finishes s qs → maxInFlight ≤ moves s qs →
      ∀ m < s.records.length, m ∈ (run Service.step s qs).answered :=
  answered_once .ram .dma 2048 0x9000000000#64 0x8010100000#64 false 3 0#64 _ (by decide)

def identRecord : Record := ⟨0xffffffff#32, opIdent, 0#32, 0#64, 0#64⟩

/-- The identify record of a direct disk is not answered under its own tag. -/
theorem identify_answered_direct :
    Along Service.step Service.Finishes hostMemory [passWith 3 identRecord] ∧
      ¬ ∀ a ∈ (run Service.step hostMemory [passWith 3 identRecord]).answers,
        ∃ r, (run Service.step hostMemory [passWith 3 identRecord]).records[a.num]? = some r ∧
          a.tag = r.tag := by
  have hans : (run Service.step hostMemory [passWith 3 identRecord]).answers =
      [⟨0, 0xfffffffe#32, 2048#32⟩] := by decide
  have hrec : (run Service.step hostMemory [passWith 3 identRecord]).records = [identRecord] := by
    decide
  refine ⟨by decide, fun hall => ?_⟩
  rw [hans, hrec] at hall
  obtain ⟨r, hr, htag⟩ := hall _ List.mem_cons_self
  cases hr
  exact absurd htag (by decide)

end Phi.Disk
