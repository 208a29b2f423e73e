/-!
# Phi.Lib.Labels

Assembly with numbered local labels.

A text is a list of lines: operations, labels, jumps to the next label of a
number (`2f`) or to the last one (`1b`), and returns; a label may be used again.
What an operation does, which may be to fault, and when a condition holds are
parameters.  `Returns` is total correctness: the text comes to a return, in a
state with the property.  Straight code is run as a block, and
`returns_loop` is the rule for a loop that tests at its end.
-/

namespace Phi.Labels

inductive Line (ι κ : Type) where
  | op (i : ι)
  | label (n : Nat)
  | forward (c : κ) (n : Nat)
  | backward (c : κ) (n : Nat)
  | ret
deriving DecidableEq, Repr

variable {ι κ σ : Type}

def Line.isLabel (n : Nat) : Line ι κ → Bool
  | .label m => m = n
  | _ => false

/-- Straight code. -/
def ops (is : List ι) : List (Line ι κ) := is.map .op

/-- The lines from the next label `n` on. -/
def ahead (n : Nat) : List (Line ι κ) → Option (List (Line ι κ))
  | [] => none
  | x :: xs => if x.isLabel n then some (x :: xs) else ahead n xs

/-- The lines from the last label `n` on. -/
def lastFrom (n : Nat) : List (Line ι κ) → Option (List (Line ι κ))
  | [] => none
  | x :: xs => match lastFrom n xs with
      | some from_ => some from_
      | none => if x.isLabel n then some (x :: xs) else none

/-- The lines from the last label `n` before `rest` on. -/
def behind (n : Nat) (text rest : List (Line ι κ)) : Option (List (Line ι κ)) :=
  (lastFrom n (text.take (text.length - rest.length))).map (· ++ rest)

section

variable (exec : ι → σ → Option σ) (holds : κ → σ → Bool)

/-- Straight code run. -/
def block : List ι → σ → Option σ
  | [], s => some s
  | i :: is, s => exec i s >>= block is

/-- The lines `rest` of a text run, up to a return. -/
def run (text : List (Line ι κ)) : Nat → List (Line ι κ) → σ → Option σ
  | 0, _, _ => none
  | _ + 1, [], _ => none
  | n + 1, .op i :: rest, s => exec i s >>= run text n rest
  | n + 1, .label _ :: rest, s => run text n rest s
  | n + 1, .forward c l :: rest, s =>
      if holds c s then ahead l rest >>= fun next => run text n next s else run text n rest s
  | n + 1, .backward c l :: rest, s =>
      if holds c s then behind l text rest >>= fun next => run text n next s else run text n rest s
  | _ + 1, .ret :: _, s => some s

/-- The lines `rest` of a text come to a return. -/
def Returns (text rest : List (Line ι κ)) (s : σ) (P : σ → Prop) : Prop :=
  ∃ n t, run exec holds text n rest s = some t ∧ P t

end

theorem block_append (exec : ι → σ → Option σ) (is js : List ι) (s : σ) :
    block exec (is ++ js) s = block exec is s >>= block exec js := by
  induction is generalizing s with
  | nil => rfl
  | cons i is ih =>
      rw [List.cons_append, block, block, bind_assoc]
      exact congrArg _ (funext ih)

@[simp] theorem block_nil (exec : ι → σ → Option σ) (s : σ) : block exec [] s = some s := rfl

theorem block_cons (exec : ι → σ → Option σ) (i : ι) (is : List ι) (s : σ) :
    block exec (i :: is) s = exec i s >>= block exec is := rfl

/-! ## labels -/

theorem ahead_ops (n : Nat) (is : List ι) (rest : List (Line ι κ)) :
    ahead n (ops is ++ rest) = ahead n rest := by
  induction is with
  | nil => rfl
  | cons i is ih => exact ih

theorem lastFrom_cons_op (n : Nat) (i : ι) {xs : List (Line ι κ)} (h : lastFrom n xs = none) :
    lastFrom n (.op i :: xs) = none := by
  rw [lastFrom, h]
  rfl

/-- No label in straight code. -/
theorem lastFrom_ops (n : Nat) (is : List ι) {xs : List (Line ι κ)} (h : lastFrom n xs = none) :
    lastFrom n (ops is ++ xs) = none := by
  induction is with
  | nil => exact h
  | cons i is ih => exact lastFrom_cons_op n i ih

theorem lastFrom_append (n : Nat) {xs ys : List (Line ι κ)} {from_ : List (Line ι κ)}
    (h : lastFrom n ys = some from_) : lastFrom n (xs ++ ys) = some from_ := by
  induction xs with
  | nil => exact h
  | cons x xs ih =>
      rw [List.cons_append, lastFrom, ih]

/-- A jump back to the label in front of straight code. -/
theorem behind_ops (n : Nat) (before rest : List (Line ι κ)) (is : List ι) (c : κ) :
    behind n (before ++ .label n :: (ops is ++ .backward c n :: rest)) rest =
      some (.label n :: (ops is ++ .backward c n :: rest)) := by
  have hsplit : before ++ .label n :: (ops is ++ .backward c n :: rest) =
      (before ++ .label n :: (ops is ++ [.backward c n])) ++ rest := by
    simp
  have hnone : lastFrom n (ops is ++ [.backward c n] : List (Line ι κ)) = none :=
    lastFrom_ops n is rfl
  have hlast : lastFrom n (.label n :: (ops is ++ [.backward c n]) : List (Line ι κ)) =
      some (.label n :: (ops is ++ [.backward c n])) := by
    rw [lastFrom, hnone]
    simp [Line.isLabel]
  rw [behind, hsplit, List.length_append, Nat.add_sub_cancel, List.take_left,
    lastFrom_append n hlast]
  simp

/-! ## rules -/

section

variable {exec : ι → σ → Option σ} {holds : κ → σ → Bool} {text rest : List (Line ι κ)} {s : σ}
  {P : σ → Prop}

theorem returns_ret (h : P s) : Returns exec holds text (.ret :: rest) s P := ⟨1, s, rfl, h⟩

theorem returns_label {l : Nat} (h : Returns exec holds text rest s P) :
    Returns exec holds text (.label l :: rest) s P := by
  obtain ⟨n, t, hrun, ht⟩ := h
  exact ⟨n + 1, t, hrun, ht⟩

theorem returns_op {i : ι} {t : σ} (hi : exec i s = some t)
    (h : Returns exec holds text rest t P) : Returns exec holds text (.op i :: rest) s P := by
  obtain ⟨n, u, hrun, hu⟩ := h
  refine ⟨n + 1, u, ?_, hu⟩
  rw [run, hi]
  exact hrun

theorem returns_ops {is : List ι} {t : σ} (his : block exec is s = some t)
    (h : Returns exec holds text rest t P) : Returns exec holds text (ops is ++ rest) s P := by
  induction is generalizing s with
  | nil =>
      cases his
      exact h
  | cons i is ih =>
      obtain ⟨u, hu, hrest⟩ := Option.bind_eq_some_iff.mp his
      exact returns_op hu (ih hrest)

theorem returns_forward {c : κ} {l : Nat} {next : List (Line ι κ)} (hc : holds c s = true)
    (hto : ahead l rest = some next) (h : Returns exec holds text next s P) :
    Returns exec holds text (.forward c l :: rest) s P := by
  obtain ⟨n, t, hrun, ht⟩ := h
  refine ⟨n + 1, t, ?_, ht⟩
  rw [run, if_pos hc, hto]
  exact hrun

theorem returns_not_forward {c : κ} {l : Nat} (hc : holds c s = false)
    (h : Returns exec holds text rest s P) :
    Returns exec holds text (.forward c l :: rest) s P := by
  obtain ⟨n, t, hrun, ht⟩ := h
  refine ⟨n + 1, t, ?_, ht⟩
  rw [run, hc]
  exact hrun

theorem returns_backward {c : κ} {l : Nat} {next : List (Line ι κ)} (hc : holds c s = true)
    (hto : behind l text rest = some next) (h : Returns exec holds text next s P) :
    Returns exec holds text (.backward c l :: rest) s P := by
  obtain ⟨n, t, hrun, ht⟩ := h
  refine ⟨n + 1, t, ?_, ht⟩
  rw [run, if_pos hc, hto]
  exact hrun

theorem returns_not_backward {c : κ} {l : Nat} (hc : holds c s = false)
    (h : Returns exec holds text rest s P) :
    Returns exec holds text (.backward c l :: rest) s P := by
  obtain ⟨n, t, hrun, ht⟩ := h
  refine ⟨n + 1, t, ?_, ht⟩
  rw [run, hc]
  exact hrun

/-- **A loop that tests at its end.** The invariant `I k` is of the state at the
label with `k` to go: the body leaves less to go, or leaves the loop. -/
theorem returns_loop {I : Nat → σ → Prop} {l : Nat} {before : List (Line ι κ)} {is : List ι}
    {c : κ} (htext : text = before ++ .label l :: (ops is ++ .backward c l :: rest))
    (hbody : ∀ k s, I k s → ∃ t, block exec is s = some t ∧
      ((holds c t = true ∧ ∃ j < k, I j t) ∨
        (holds c t = false ∧ Returns exec holds text rest t P)))
    {k : Nat} (h : I k s) :
    Returns exec holds text (.label l :: (ops is ++ .backward c l :: rest)) s P := by
  induction k using Nat.strongRecOn generalizing s with
  | ind k ih =>
      obtain ⟨t, hblock, ⟨hc, j, hj, hI⟩ | ⟨hc, hleave⟩⟩ := hbody k s h
      · have hback : behind l text rest = some (.label l :: (ops is ++ .backward c l :: rest)) := by
          rw [htext]
          exact behind_ops l before rest is c
        exact returns_label (returns_ops hblock (returns_backward hc hback (ih j hj hI)))
      · exact returns_label (returns_ops hblock (returns_not_backward hc hleave))

end

/-! ## runs are determined -/

theorem run_succ {exec : ι → σ → Option σ} {holds : κ → σ → Bool} {text : List (Line ι κ)} {n : Nat}
    {rest : List (Line ι κ)} {s t : σ} (h : run exec holds text n rest s = some t) :
    run exec holds text (n + 1) rest s = some t := by
  induction n generalizing rest s with
  | zero => cases h
  | succ n ih =>
      cases rest with
      | nil => cases h
      | cons x rest =>
          cases x with
          | op i =>
              obtain ⟨u, hu, hrest⟩ := Option.bind_eq_some_iff.mp h
              rw [run, hu]
              exact ih hrest
          | label l => exact ih h
          | forward c l =>
              rw [run] at h ⊢
              split at h
              · next hc =>
                  obtain ⟨next, hto, hrest⟩ := Option.bind_eq_some_iff.mp h
                  rw [if_pos hc, hto]
                  exact ih hrest
              · next hc =>
                  rw [if_neg hc]
                  exact ih h
          | backward c l =>
              rw [run] at h ⊢
              split at h
              · next hc =>
                  obtain ⟨next, hto, hrest⟩ := Option.bind_eq_some_iff.mp h
                  rw [if_pos hc, hto]
                  exact ih hrest
              · next hc =>
                  rw [if_neg hc]
                  exact ih h
          | ret => exact h

theorem run_mono {exec : ι → σ → Option σ} {holds : κ → σ → Bool} {text : List (Line ι κ)}
    {n m : Nat} {rest : List (Line ι κ)} {s t : σ} (h : run exec holds text n rest s = some t)
    (hnm : n ≤ m) : run exec holds text m rest s = some t := by
  induction hnm with
  | refl => exact h
  | step _ ih => exact run_succ ih

/-- Whatever the bound, a text that returns returns in one state. -/
theorem Returns.of_run {exec : ι → σ → Option σ} {holds : κ → σ → Bool} {text : List (Line ι κ)}
    {n : Nat} {rest : List (Line ι κ)} {s t : σ} {P : σ → Prop}
    (h : Returns exec holds text rest s P) (hrun : run exec holds text n rest s = some t) :
    P t := by
  obtain ⟨m, u, hm, hu⟩ := h
  have hn := run_mono hrun (Nat.le_max_left n m)
  rw [run_mono hm (Nat.le_max_right n m)] at hn
  cases hn
  exact hu

end Phi.Labels
