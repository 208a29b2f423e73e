import Mathlib.Algebra.GroupWithZero.Nat

/-!
# Phi.Lib.Run

Runs of a machine and the rules that carry an invariant along them.

A machine is a step function `σ → ι → σ` fed with one input at a time, or,
where a step may be refused or may have several outcomes, a relation
`σ → ι → σ → Prop`.  A run is the list of its inputs.  Every safety result
of a development is then two goals, that the start satisfies the invariant
and that one step keeps it, and the rules below supply the induction.
`Along` restricts a run to steps that meet a condition on the state they
start from.
-/

namespace Phi

/-! ## deterministic machines -/

/-- The state after feeding the inputs one by one. -/
def run (step : σ → ι → σ) (s : σ) (is : List ι) : σ := is.foldl step s

@[simp] theorem run_nil (step : σ → ι → σ) (s : σ) : run step s [] = s := rfl

@[simp] theorem run_cons (step : σ → ι → σ) (s : σ) (i : ι) (is : List ι) :
    run step s (i :: is) = run step (step s i) is := rfl

theorem run_append (step : σ → ι → σ) (s : σ) (is js : List ι) :
    run step s (is ++ js) = run step (run step s is) js := by
  simp [run]

/-- Every step of the run meets `C` in the state it starts from. -/
def Along (step : σ → ι → σ) (C : σ → ι → Prop) : σ → List ι → Prop
  | _, [] => True
  | s, i :: is => C s i ∧ Along step C (step s i) is

/-- Conditions may be evaluated along a concrete run. -/
instance Along.decidable (step : σ → ι → σ) (C : σ → ι → Prop) [∀ s i, Decidable (C s i)] :
    ∀ (s : σ) (is : List ι), Decidable (Along step C s is)
  | _, [] => inferInstanceAs (Decidable True)
  | s, i :: is =>
      @instDecidableAnd _ _ inferInstance (Along.decidable step C (step s i) is)

/-- The condition holds along a concatenation when it holds along both parts. -/
theorem along_append {step : σ → ι → σ} {C : σ → ι → Prop} {s : σ} {is js : List ι} :
    Along step C s (is ++ js) ↔ Along step C s is ∧ Along step C (run step s is) js := by
  induction is generalizing s with
  | nil => simp [Along]
  | cons i is ih => simp [Along, ih, and_assoc]

/-- A weaker condition holds along the same run. -/
theorem Along.mono {step : σ → ι → σ} {C D : σ → ι → Prop} (hCD : ∀ s i, C s i → D s i)
    {s : σ} {is : List ι} (h : Along step C s is) : Along step D s is := by
  induction is generalizing s with
  | nil => trivial
  | cons i is ih => exact ⟨hCD s i h.1, ih h.2⟩

/-- A condition on the inputs alone may join one on the states. -/
theorem Along.and_forall {step : σ → ι → σ} {C : σ → ι → Prop} {D : ι → Prop} {s : σ}
    {is : List ι} (h : Along step C s is) (hD : ∀ i ∈ is, D i) :
    Along step (fun s i => C s i ∧ D i) s is := by
  induction is generalizing s with
  | nil => trivial
  | cons i is ih =>
      exact ⟨⟨h.1, hD i List.mem_cons_self⟩, ih h.2 fun j hj => hD j (List.mem_cons_of_mem _ hj)⟩

/-- A condition that every step meets holds along every run. -/
theorem along_of_forall {step : σ → ι → σ} {C : σ → ι → Prop} (h : ∀ s i, C s i) (s : σ)
    (is : List ι) : Along step C s is := by
  induction is generalizing s with
  | nil => trivial
  | cons i is ih => exact ⟨h s i, ih (step s i)⟩

/-- A condition on the inputs alone holds along a run when every input meets it. -/
theorem along_of_mem {step : σ → ι → σ} {C : ι → Prop} {is : List ι} (h : ∀ i ∈ is, C i) (s : σ) :
    Along step (fun _ i => C i) s is := by
  induction is generalizing s with
  | nil => trivial
  | cons i is ih =>
      exact ⟨h i List.mem_cons_self, ih (fun j hj => h j (List.mem_cons_of_mem _ hj)) _⟩

/-- What every step from a state of the invariant meets holds along every run. -/
theorem along_of_inv {step : σ → ι → σ} {C : σ → ι → Prop} {Inv : σ → Prop}
    (h : ∀ s i, Inv s → C s i ∧ Inv (step s i)) {s : σ} (is : List ι) (hs : Inv s) :
    Along step C s is := by
  induction is generalizing s with
  | nil => trivial
  | cons i is ih => exact ⟨(h s i hs).1, ih (h s i hs).2⟩

/-- **Invariant rule**: what every step that meets `C` keeps, a run of such
steps keeps. -/
theorem run_inv {step : σ → ι → σ} {C : σ → ι → Prop} {Inv : σ → Prop}
    (hstep : ∀ s i, Inv s → C s i → Inv (step s i)) {s : σ} {is : List ι}
    (hs : Inv s) (h : Along step C s is) : Inv (run step s is) := by
  induction is generalizing s with
  | nil => exact hs
  | cons i is ih => exact ih (hstep s i hs h.1) h.2

/-- The invariant rule for a machine whose steps need no condition. -/
theorem run_inv_all {step : σ → ι → σ} {Inv : σ → Prop}
    (hstep : ∀ s i, Inv s → Inv (step s i)) {s : σ} (hs : Inv s) (is : List ι) :
    Inv (run step s is) := by
  induction is generalizing s with
  | nil => exact hs
  | cons i is ih => exact ih (hstep s i hs)

/-- Where one step keeps `Good` exactly when it meets `D`, a run does so exactly
when all its steps do. -/
theorem run_iff_along {step : σ → ι → σ} {C D : σ → ι → Prop} {Inv Good : σ → Prop}
    (hinv : ∀ s i, Inv s → C s i → Inv (step s i))
    (hgood : ∀ s i, Inv s → C s i → (Good (step s i) ↔ Good s ∧ D s i))
    {s : σ} {is : List ι} (hs : Inv s) (h : Along step C s is) :
    Good (run step s is) ↔ Good s ∧ Along step D s is := by
  induction is generalizing s with
  | nil => simp [Along]
  | cons i is ih =>
      rw [run_cons, ih (hinv s i hs h.1) h.2, hgood s i hs h.1, and_assoc]
      rfl

/-- Where a step from a state of the invariant is right exactly when it meets
`D`, and a right step keeps the invariant, the steps of a run are all right
exactly when they all meet `D`. -/
theorem along_iff {step : σ → ι → σ} {P D : σ → ι → Prop} {Inv : σ → Prop}
    (h : ∀ s i, Inv s → (P s i ↔ D s i) ∧ (P s i → Inv (step s i))) {s : σ} (is : List ι)
    (hs : Inv s) : Along step P s is ↔ Along step D s is := by
  induction is generalizing s with
  | nil => exact Iff.rfl
  | cons i is ih =>
      obtain ⟨hiff, hinv⟩ := h s i hs
      constructor
      · rintro ⟨hP, hrest⟩
        exact ⟨hiff.mp hP, (ih (hinv hP)).mp hrest⟩
      · rintro ⟨hD, hrest⟩
        have hP := hiff.mpr hD
        exact ⟨hP, (ih (hinv hP)).mpr hrest⟩

/-! ## relational machines -/

/-- `Runs R s is t`: the inputs `is` can take the machine from `s` to `t`. -/
inductive Runs (R : σ → ι → σ → Prop) : σ → List ι → σ → Prop where
  | nil (s) : Runs R s [] s
  | cons {s i t is u} : R s i t → Runs R t is u → Runs R s (i :: is) u

/-- **Invariant rule**, relational form. -/
theorem Runs.inv {R : σ → ι → σ → Prop} {Inv : σ → Prop}
    (hstep : ∀ s i t, Inv s → R s i t → Inv t) {s t : σ} {is : List ι}
    (h : Runs R s is t) (hs : Inv s) : Inv t := by
  induction h with
  | nil => exact hs
  | cons hR _ ih => exact ih (hstep _ _ _ hs hR)

/-- Runs of a smaller relation are runs of the larger one. -/
theorem Runs.mono {R S : σ → ι → σ → Prop} (hRS : ∀ s i t, R s i t → S s i t)
    {s t : σ} {is : List ι} (h : Runs R s is t) : Runs S s is t := by
  induction h with
  | nil => exact .nil _
  | cons hR _ ih => exact .cons (hRS _ _ _ hR) ih

end Phi
