import Mathlib.Data.List.Basic
import Mathlib.Tactic.Common

/-!
# Phi.Lib.Phases

Code that does the same for several independent values.

A phase is a list of steps, each with a destination of its own.  A step may
read what no other step of the phase writes, and then the order does not
matter: after the phase every destination holds what its step alone would
have put there, and everything else is as it was.
-/

namespace Phi.Phases

variable {σ ρ υ ε ι : Type}

/-- The steps in order; none is a fault. -/
def runAll (steps : List (σ → Option σ)) (s : σ) : Option σ :=
  steps.foldlM (fun s step => step s) s

@[simp] theorem runAll_nil (s : σ) : runAll [] s = some s := rfl

@[simp] theorem runAll_cons (step : σ → Option σ) (steps : List (σ → Option σ)) (s : σ) :
    runAll (step :: steps) s = step s >>= runAll steps := rfl

section phase

variable (get : σ → ρ → υ) (env : σ → ε) (dst : ι → ρ)

/-- `t` is `s` with `v` in the register `d`. -/
structure Sets (s t : σ) (d : ρ) (v : υ) : Prop where
  env : env t = env s
  self : get t d = v
  other : ∀ r, r ≠ d → get t r = get s r

/-- `s` is `s₀` up to the destinations of `P`. -/
def Agrees (s₀ s : σ) (P : ι → Prop) : Prop :=
  env s = env s₀ ∧ ∀ r, (∀ p, P p → r ≠ dst p) → get s r = get s₀ r

variable {get env dst}

theorem Agrees.mono {s₀ s : σ} {P Q : ι → Prop} (h : Agrees get env dst s₀ s P)
    (hsub : ∀ p, P p → Q p) : Agrees get env dst s₀ s Q :=
  ⟨h.1, fun r hr => h.2 r fun p hp => hr p (hsub p hp)⟩

theorem Agrees.set {s₀ s t : σ} {P : ι → Prop} {p : ι} {v : υ}
    (h : Agrees get env dst s₀ s P) (ht : Sets get env s t (dst p) v) (hp : P p) :
    Agrees get env dst s₀ t P := by
  refine ⟨ht.env.trans h.1, fun r hr => ?_⟩
  rw [ht.other r (hr p hp), h.2 r hr]

/-- The steps still to do, after those done. -/
theorem runAll_rest {step : ι → σ → Option σ} {val : ι → υ} {s₀ : σ} {ps : List ι}
    (hdst : ∀ p ∈ ps, ∀ q ∈ ps, p ≠ q → dst p ≠ dst q)
    (hstep : ∀ p ∈ ps, ∀ s, Agrees get env dst s₀ s (fun q => q ∈ ps ∧ q ≠ p) →
      ∃ t, step p s = some t ∧ Sets get env s t (dst p) (val p))
    (done todo : List ι) (hps : ps = done ++ todo) (hnodup : ps.Nodup) {s : σ}
    (hs : Agrees get env dst s₀ s (· ∈ done)) (hdone : ∀ p ∈ done, get s (dst p) = val p) :
    ∃ t, runAll (todo.map step) s = some t ∧ Agrees get env dst s₀ t (· ∈ ps) ∧
      ∀ p ∈ ps, get t (dst p) = val p := by
  induction todo generalizing done s with
  | nil =>
      rw [List.append_nil] at hps
      exact ⟨s, rfl, hps ▸ hs, hps ▸ hdone⟩
  | cons p todo ih =>
      have hp : p ∈ ps := by simp [hps]
      have hfresh : ∀ q ∈ done, q ≠ p := by
        rintro q hq rfl
        rw [hps] at hnodup
        exact (List.nodup_append.mp hnodup).2.2 q hq q (by simp) rfl
      have hmem : ∀ q ∈ done, q ∈ ps := fun q hq => by simp [hps, hq]
      obtain ⟨t, hrun, hset⟩ := hstep p hp s (hs.mono fun q hq => ⟨hmem q hq, hfresh q hq⟩)
      obtain ⟨u, hrest, hagree, hval⟩ := ih (done ++ [p]) (by simp [hps])
        ((hs.mono fun q hq => by simp [hq]).set hset (by simp))
        (by
          intro q hq
          rcases List.mem_append.mp hq with hq | hq
          · rw [hset.other _ (hdst q (hmem q hq) p hp (hfresh q hq)), hdone q hq]
          · obtain rfl := List.mem_singleton.mp hq
            exact hset.self)
      refine ⟨u, ?_, hagree, hval⟩
      rw [List.map_cons, runAll_cons, hrun]
      exact hrest

/-- A phase whose every step sets its destination wherever only the other
destinations have changed. -/
theorem runAll_phase (get : σ → ρ → υ) (env : σ → ε) (dst : ι → ρ) (step : ι → σ → Option σ)
    (val : ι → υ) {s₀ : σ} {ps : List ι} (hnodup : ps.Nodup)
    (hdst : ∀ p ∈ ps, ∀ q ∈ ps, p ≠ q → dst p ≠ dst q)
    (hstep : ∀ p ∈ ps, ∀ s, Agrees get env dst s₀ s (fun q => q ∈ ps ∧ q ≠ p) →
      ∃ t, step p s = some t ∧ Sets get env s t (dst p) (val p)) :
    ∃ t, runAll (ps.map step) s₀ = some t ∧ Agrees get env dst s₀ t (· ∈ ps) ∧
      ∀ p ∈ ps, get t (dst p) = val p :=
  runAll_rest hdst hstep [] ps rfl hnodup ⟨rfl, fun _ _ => rfl⟩ (by simp)

end phase

end Phi.Phases
