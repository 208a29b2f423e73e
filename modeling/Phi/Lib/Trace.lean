/-!
# Phi.Lib.Trace

Histories: what a program did, in order.

A property of a history is often a property of each entry given what went
before it (an answer follows its question, nothing happens after the end).
`Each P tr` says so for every entry of `tr`; it splits over concatenation, so
it is kept by a step as soon as the step's own entries satisfy it after the
history so far.  `collect f tr` gathers the data that the entries carry.
-/

namespace Phi

variable {ε α : Type}

/-! ## each entry given its past -/

/-- Every entry satisfies `P` after the entries before it. -/
def Each (P : List ε → ε → Prop) (tr : List ε) : Prop :=
  ∀ pre e post, tr = pre ++ e :: post → P pre e

@[simp] theorem each_nil (P : List ε → ε → Prop) : Each P [] := by
  intro pre e post h
  simp at h

/-- The history of one step comes after the history so far. -/
theorem each_append {P : List ε → ε → Prop} {tr es : List ε} :
    Each P (tr ++ es) ↔ Each P tr ∧ Each (fun pre e => P (tr ++ pre) e) es := by
  constructor
  · intro h
    constructor
    · intro pre e post he
      exact h pre e (post ++ es) (by rw [he, List.append_assoc, List.cons_append])
    · intro pre e post he
      exact h (tr ++ pre) e post (by rw [he, List.append_assoc])
  · intro ⟨h1, h2⟩ pre e post he
    obtain ⟨mid, rfl, hes⟩ | ⟨mid, hes, hpost⟩ := List.append_eq_append_iff.mp he
    · exact h2 mid e post hes
    · cases mid with
      | nil =>
          rw [List.append_nil] at hes
          subst hes
          have hx : P (tr ++ []) e := h2 [] e post hpost.symm
          rwa [List.append_nil] at hx
      | cons x mid =>
          obtain ⟨rfl, -⟩ := List.cons.inj hpost
          exact h1 pre e mid hes

@[simp] theorem each_singleton {P : List ε → ε → Prop} {e : ε} : Each P [e] ↔ P [] e := by
  constructor
  · intro h
    exact h [] e [] rfl
  · intro h pre x post he
    cases pre with
    | nil =>
        obtain ⟨rfl, -⟩ := List.cons.inj he
        exact h
    | cons y pre =>
        have hnil := (List.cons.inj he).2
        simp at hnil

/-- Entries of no concern add nothing. -/
theorem each_append_of_forall {P : List ε → ε → Prop} {tr es : List ε} (h : Each P tr)
    (hes : ∀ e ∈ es, ∀ pre, P pre e) : Each P (tr ++ es) := by
  rw [each_append]
  exact ⟨h, fun pre e post he => hes e (by rw [he]; simp) _⟩

/-- Properties that agree on the entries of a history hold of it together. -/
theorem each_congr {P Q : List ε → ε → Prop} {tr : List ε}
    (h : ∀ e ∈ tr, ∀ pre, P pre e ↔ Q pre e) : Each P tr ↔ Each Q tr := by
  have hmem : ∀ pre e post, tr = pre ++ e :: post → e ∈ tr := fun pre e post he => by
    rw [he]
    simp
  constructor
  · intro hP pre e post he
    exact (h e (hmem pre e post he) pre).mp (hP pre e post he)
  · intro hQ pre e post he
    exact (h e (hmem pre e post he) pre).mpr (hQ pre e post he)

/-! ## what the entries carry -/

/-- The data carried by the entries, in order. -/
def collect (f : ε → List α) (tr : List ε) : List α := tr.flatMap f

@[simp] theorem collect_nil (f : ε → List α) : collect f [] = [] := rfl

@[simp] theorem collect_cons (f : ε → List α) (e : ε) (tr : List ε) :
    collect f (e :: tr) = f e ++ collect f tr := List.flatMap_cons

@[simp] theorem collect_append (f : ε → List α) (tr es : List ε) :
    collect f (tr ++ es) = collect f tr ++ collect f es := List.flatMap_append

/-- Entries that carry nothing add nothing. -/
theorem collect_eq_nil {f : ε → List α} {tr : List ε} (h : ∀ e ∈ tr, f e = []) :
    collect f tr = [] := List.flatMap_eq_nil_iff.mpr h

end Phi
