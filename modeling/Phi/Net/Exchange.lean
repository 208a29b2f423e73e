import Phi.Net.ToHost

/-!
# Phi.Net.Exchange

Network records survive the ring, in both directions.
-/

namespace Phi.Net

open Ring

/-- **To the card.**  The bytes that ever became visible to the card are whole
records of the frames sent; the card takes those frames in order, counts no
error, and polls by itself until it has them all. -/
theorem to_card (g : Geometry) (index : W32) (area : Nat → UInt8) (es : List ToCard.Event) :
    let s := run (ToCard.step g) (.start index area) es
    (∃ rs : List Record, s.written = rs.map Record.entry ∧ s.link.pushed = stream rs) ∧
    s.taken.map Prod.fst <+: s.written.map Prod.fst ∧
    s.errors = 0 ∧
    ∃ n, ∀ skbs : List Bool, n ≤ skbs.length →
      (run (ToCard.step g) s (skbs.flatMap ToCard.round)).taken.map Prod.fst =
        s.written.map Prod.fst := by
  intro s
  obtain ⟨T, gone, done, queue, h⟩ := ToCard.run_tied g index area es
  have hframes : s.written.map Prod.fst =
      (gone ++ (done ++ queue)).map fun r => r.frame.bytes := by
    rw [h.written.1, List.map_map]
    rfl
  refine ⟨⟨_, h.written⟩, ?_, h.errors, 2 * queue.length + s.poll.wasted, fun skbs hn => ?_⟩
  · rw [h.taken, hframes, ← List.append_assoc gone done queue]
    exact ⟨queue.map fun r => r.frame.bytes, List.map_append.symm⟩
  · obtain ⟨T', gone', done', h'⟩ := h.rounds skbs hn
    have hwritten := h'.written.1
    rw [ToCard.rounds_written] at hwritten
    rw [h'.taken, hwritten, List.map_map, List.append_nil]
    rfl

/-- **To the host.**  The bytes that ever became visible to the host are whole
records of the frames sent; the reader hands those frames on in order, drops
nothing, and goes on by itself until it has them all. -/
theorem to_host (g : Geometry) (reader : Reader) (index : W32) (area : Nat → UInt8)
    (es : List ToHost.Event) :
    let s := run (ToHost.step g reader) (.start index area) es
    (∃ rs : List Record, s.written = rs.map Record.entry ∧ s.link.pushed = stream rs) ∧
    s.read <+: s.written.map Prod.fst ∧
    s.bad = 0 ∧
    ∃ n, ∀ m, n ≤ m →
      (run (ToHost.step g reader) s (List.replicate m ToHost.round).flatten).read =
        s.written.map Prod.fst := by
  intro s
  obtain ⟨T, live, gone, rest, h⟩ := ToHost.run_tied g reader index area es
  have hframes : s.written.map Prod.fst = (gone ++ rest).map fun r => r.frame.bytes := by
    rw [h.written.1, List.map_map]
    rfl
  refine ⟨⟨_, h.written⟩, ?_, h.bad, 2 * (rest.length + live.length) + s.recv.wasted,
    fun m hm => ?_⟩
  · rw [h.read, hframes, List.map_append]
    exact List.prefix_append _ _
  · obtain ⟨T', live', h'⟩ := h.rounds m hm
    rw [h'.read, hframes]

/-- **Network records survive the ring.**  For every ring, wherever its indices
start, whoever sends and reads on the host, and however the two ends' steps
interleave: only whole records appear in the ring, they are read back as the
frames that were sent, in order, and none is counted as an error. -/
theorem records_survive (g : Geometry) (index : W32) (area : Nat → UInt8) :
    (∀ es : List ToCard.Event,
      let s := run (ToCard.step g) (.start index area) es
      (∃ rs : List Record, s.written = rs.map Record.entry ∧ s.link.pushed = stream rs) ∧
      s.taken.map Prod.fst <+: s.written.map Prod.fst ∧
      s.errors = 0 ∧
      ∃ n, ∀ skbs : List Bool, n ≤ skbs.length →
        (run (ToCard.step g) s (skbs.flatMap ToCard.round)).taken.map Prod.fst =
          s.written.map Prod.fst) ∧
    ∀ (reader : Reader) (es : List ToHost.Event),
      let s := run (ToHost.step g reader) (.start index area) es
      (∃ rs : List Record, s.written = rs.map Record.entry ∧ s.link.pushed = stream rs) ∧
      s.read <+: s.written.map Prod.fst ∧
      s.bad = 0 ∧
      ∃ n, ∀ m, n ≤ m →
        (run (ToHost.step g reader) s (List.replicate m ToHost.round).flatten).read =
          s.written.map Prod.fst :=
  ⟨to_card g index area, fun reader => to_host g reader index area⟩

end Phi.Net
