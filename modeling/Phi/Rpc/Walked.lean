import Phi.Lib.Walk
import Phi.Rpc.Msg

/-!
# Phi.Rpc.Walked

A body walked over by a program that trusts `validate`: its 16-bit counts and
lengths.
-/

namespace Phi.Rpc

open Walk

variable {σ : Type}

/-- `movzwl`. -/
def peekU16 (d : Nat) : Walk σ Nat := do
  let bs ← peek d 2
  pure (ofLe bs)

theorem follows_peekU16 {d : Nat} {s : σ} :
    Follows d (d + 2) s (peekU16 d) Read.u16 fun v a t => a = v.toNat ∧ t = s := by
  intro m c bs left v hr hm hhigh
  obtain ⟨a, c', t, hw, ⟨hlen, hv, ht⟩, hrest⟩ :=
    follows_word (fun b => UInt16.ofNat (ofLe b)) m c bs left v hr hm hhigh
  refine ⟨ofLe a, c', t, ?_, ⟨?_, ht⟩, hrest⟩
  · show (let (a, c, s) := peek d 2 m c s; (ofLe a, c, s)) = _
    rw [hw]
  · have hlt : ofLe a < 2 ^ 16 := Nat.lt_of_lt_of_eq (ofLe_lt a) (congrArg (256 ^ ·) hlen)
    rw [hv]
    exact (UInt16.toNat_ofNat_of_lt' hlt).symm

end Phi.Rpc
