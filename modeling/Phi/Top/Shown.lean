import Phi.Card.Sampled
import Phi.Top.Sample

/-!
# Phi.Top.Shown

A sample on its way from the card's `/proc` to phitop.

The agent puts the frame together (`Phi.Card.Sampled`), the daemon checks it and
phitop walks over it (`Phi.Top.Sample`).  The agent's tables are no longer than
phitop's, so of the processors, temperatures and processes of a sample nothing is
dropped; of the devices phitop keeps the first sixteen.
-/

namespace Phi.Top

open Rpc Walk Serve Card

/-- What phitop has room for. -/
structure Kept (st : Stat) : Prop where
  cpus : st.cpus.length ≤ snCpuCap
  temps : st.temps.length ≤ snTempCap
  procs : st.procs.length ≤ snProcCap

theorem sampled_kept (pageKb : UInt64) (fs : Files) (m : SampleMemo)
    (hdevices : (readBig fs "/proc/diskstats").length + (readBig fs "/proc/net/dev").length ≤
      1000000) : Kept (sampled pageKb fs m) := by
  obtain ⟨hcpus, htemps⟩ := short_tables fs m
  refine ⟨hcpus, Nat.le_trans htemps (by decide), ?_⟩
  obtain ⟨s, hlisted, hroomy⟩ := sampledProcs_roomy pageKb fs m hdevices
  show ((sampledProcs pageKb fs m).2.listed.map Card.Listed.proc).length ≤ snProcCap
  rw [List.length_map, hlisted]
  exact hroomy.many

/-- The clipping of names drops no entry. -/
theorem Kept.normal {st : Stat} (h : Kept st) : Kept st.normal where
  cpus := by
    show (st.cpus.take maxList).length ≤ snCpuCap
    exact Nat.le_trans (List.length_take_le' _ _) h.cpus
  temps := by
    show (st.temps.take maxList).length ≤ snTempCap
    exact Nat.le_trans (List.length_take_le' _ _) h.temps
  procs := by
    show ((st.procs.take maxList).map ProcStat.normal).length ≤ snProcCap
    rw [List.length_map]
    exact Nat.le_trans (List.length_take_le' _ _) h.procs

theorem decodeBody_putStat (st : Stat) :
    decodeBody (Tag.toByte .statReply) (putStat st) = .ok (.statReply st.normal) :=
  decodeBody_fields (.statReply st)

theorem validate_putStat (st : Stat) : validate (Tag.toByte .statReply) (putStat st) = 0 := by
  obtain ⟨hzero, -⟩ | ⟨-, hbad⟩ | ⟨-, hbad⟩ :=
    decodeBody_of_validate (Tag.toByte .statReply) (putStat st)
  · exact hzero
  · rw [decodeBody_putStat] at hbad
    cases hbad
  · rw [decodeBody_putStat] at hbad
    cases hbad

/-- **A sample reaches phitop's tables as the agent took it**: the body of its frame passes
the daemon's check, and walking over it leaves in the snapshot what the files said. -/
theorem sample_shown (pageKb : UInt64) (fs : Files) (m : SampleMemo) (buf : Nat → UInt8)
    (hdevices : (readBig fs "/proc/diskstats").length + (readBig fs "/proc/net/dev").length ≤
      1000000) :
    ∃ body, (statReply pageKb fs m buf).2.frame =
        leBytes 4 (1 + body.length) ++ Tag.toByte .statReply :: body ∧
      validate (Tag.toByte .statReply) body = 0 ∧
      ∀ mem p s, Circular.read mem p body.length = body →
        ∃ c t, snapshotWalk mem ⟨p, p⟩ s = ((), c, t) ∧ ReadAs (sampled pageKb fs m).normal t ∧
          Kept (sampled pageKb fs m).normal := by
  obtain ⟨t, ht, hwithin⟩ := composed_statReply pageKb fs m buf hdevices
  refine ⟨putStat (sampled pageKb fs m), ?_, validate_putStat _, ?_⟩
  · rw [ht, hwithin.built.frame]
  · intro mem p s hm
    have hread : Read.stat (putStat (sampled pageKb fs m)) =
        some ((sampled pageKb fs m).normal, []) := by
      have hnil := reads_stat (sampled pageKb fs m) []
      rwa [List.append_nil] at hnil
    obtain ⟨⟨⟩, c, t, hwalk, ⟨has, -⟩, -⟩ := follows_snapshotWalk s mem ⟨p, p⟩
      (putStat (sampled pageKb fs m)) [] _ hread hm (Nat.le_add_right p _)
    exact ⟨c, t, hwalk, has, (sampled_kept pageKb fs m hdevices).normal⟩

/-- Of two files. -/
theorem sample_shown_two :
    ∃ body, (statReply 4 twoFiles ⟨[], none, .initial (fun _ => ⟨0, 0⟩) fun _ => ⟨0, 0⟩⟩
          fun _ => 0).2.frame =
        leBytes 4 (1 + body.length) ++ Tag.toByte .statReply :: body ∧
      validate (Tag.toByte .statReply) body = 0 ∧
      ∀ mem p s, Circular.read mem p body.length = body →
        ∃ c t, snapshotWalk mem ⟨p, p⟩ s = ((), c, t) ∧
          ReadAs (sampled 4 twoFiles
            ⟨[], none, .initial (fun _ => ⟨0, 0⟩) fun _ => ⟨0, 0⟩⟩).normal t ∧
          Kept (sampled 4 twoFiles
            ⟨[], none, .initial (fun _ => ⟨0, 0⟩) fun _ => ⟨0, 0⟩⟩).normal :=
  sample_shown 4 twoFiles _ _ (by decide +kernel)

end Phi.Top
