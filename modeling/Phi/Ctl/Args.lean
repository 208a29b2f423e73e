import Phi.Lib.Utf8

/-!
# Phi.Ctl.Args

The command line of phictl (`_start` of `phictl/main.S`, and the option loop of
`cmd_exec` in `client.S`).

Global options may stand anywhere; what is left is the subcommand's, and `args`
has room for so many of them.  `own` is what is left without that limit, and
`startLoop_own` compares the two.
-/

namespace Phi.Ctl

open Utf8

/-- An argument, without its NUL. -/
abbrev Arg := List UInt8

/-- The entries of `args`. -/
def argsCap : Nat := 64

def optBdf : Arg := bytes "--bdf"
def optCard : Arg := bytes "--card"
def optSocket : Arg := bytes "--socket"
def optCwd : Arg := bytes "--cwd"
def dashdash : Arg := bytes "--"

/-- A global option, and its value. -/
inductive Global where
  | bdf (v : Arg)
  | card (v : Arg)
deriving DecidableEq

/-- The loop of `_start` over the command line, from label 1 on; none where a value is
missing. -/
def startLoop : List Arg → List Global → List Arg → Option (List Global × List Arg)
  | [], gs, args => some (gs, args)
  | a :: argv, gs, args =>
      if a = optBdf then match argv with
        | [] => none
        | v :: argv => startLoop argv (gs ++ [.bdf v]) args
      else if a = optCard then match argv with
        | [] => none
        | v :: argv => startLoop argv (gs ++ [.card v]) args
      else startLoop argv gs (if args.length < argsCap then args ++ [a] else args)

/-- What `cmd_exec` takes from its arguments: `cl_socket`, `cl_cwd`, and the rest. -/
structure ExecArgs where
  socket : Option Arg
  cwd : Option Arg
  argv : List Arg
deriving DecidableEq

/-- The option loop of `cmd_exec`; none for `usage`. -/
def execLoop : List Arg → Option Arg → Option Arg → Option ExecArgs
  | [], _, _ => none
  | a :: args, socket, cwd =>
      if a.head? = some 0x2d then
        if a = optSocket then match args with
          | [] => none
          | v :: args => execLoop args (some v) cwd
        else if a = optCwd then match args with
          | [] => none
          | v :: args => execLoop args socket (some v)
        else if a = dashdash then
          if args = [] then none else some ⟨socket, cwd, args⟩
        else none
      else some ⟨socket, cwd, a :: args⟩

/-! ## without the limit -/

/-- The arguments that are no global options. -/
def own : List Arg → List Arg
  | [] => []
  | a :: argv =>
      if a = optBdf ∨ a = optCard then match argv with
        | [] => []
        | _ :: argv => own argv
      else a :: own argv

theorem own_global {a : Arg} (h : a = optBdf ∨ a = optCard) (v : Arg) (argv : List Arg) :
    own (a :: v :: argv) = own argv := by
  conv => lhs; unfold own
  rw [if_pos h]

theorem own_cons {a : Arg} (h : ¬ (a = optBdf ∨ a = optCard)) (argv : List Arg) :
    own (a :: argv) = a :: own argv := by
  conv => lhs; unfold own
  rw [if_neg h]

/-- `_start` keeps the first of them. -/
theorem startLoop_own (argv : List Arg) (gs : List Global) (args : List Arg)
    {gs' : List Global} {args' : List Arg} (hle : args.length ≤ argsCap)
    (h : startLoop argv gs args = some (gs', args')) :
    args' = (args ++ own argv).take argsCap := by
  fun_induction startLoop argv gs args with
  | case1 gs args =>
      cases h
      simp [own, List.take_of_length_le hle]
  | case2 => cases h
  | case3 gs args v argv ih =>
      rw [own_global (.inl rfl)]
      exact ih hle h
  | case4 => cases h
  | case5 gs args v argv _ ih =>
      rw [own_global (.inr rfl)]
      exact ih hle h
  | case6 a argv gs args hbdf hcard ih =>
      rw [own_cons (by simp [hbdf, hcard])]
      by_cases hroom : args.length < argsCap
      · rw [if_pos hroom] at ih h
        rw [ih (by simp; omega) h, List.append_assoc, List.singleton_append]
      · rw [if_neg hroom] at ih h
        rw [ih hle h, List.take_append_of_le_length (by omega),
          List.take_append_of_le_length (by omega)]

theorem execLoop_socket (v : Arg) (args : List Arg) (socket cwd : Option Arg) :
    execLoop (optSocket :: v :: args) socket cwd = execLoop args (some v) cwd := rfl

theorem execLoop_cwd (v : Arg) (args : List Arg) (socket cwd : Option Arg) :
    execLoop (optCwd :: v :: args) socket cwd = execLoop args socket (some v) := rfl

theorem execLoop_dashdash (args : List Arg) (socket cwd : Option Arg) :
    execLoop (dashdash :: args) socket cwd =
      if args = [] then none else some ⟨socket, cwd, args⟩ := by
  conv => lhs; unfold execLoop
  rw [if_pos (by decide), if_neg (by decide), if_neg (by decide), if_pos rfl]

/-- Options found among the first arguments are found among all of them, and what
follows them is longer by what was left out. -/
theorem execLoop_take (args : List Arg) (socket cwd : Option Arg) (n : Nat) {x : ExecArgs}
    (h : execLoop (args.take n) socket cwd = some x) :
    execLoop args socket cwd = some { x with argv := x.argv ++ args.drop n } := by
  fun_induction execLoop args socket cwd generalizing n with
  | case1 => simp [execLoop] at h
  | case2 socket cwd hdash | case4 socket cwd hdash | case6 socket cwd hdash =>
      rcases n with _ | n <;> simp [execLoop, hdash] at h
  | case3 socket cwd v args hdash ih =>
      match n with
      | 0 => simp [execLoop] at h
      | 1 => exact nomatch h
      | n + 2 => exact ih n h
  | case5 socket cwd v args hdash _ ih =>
      match n with
      | 0 => simp [execLoop] at h
      | 1 => exact nomatch h
      | n + 2 => exact ih n h
  | case7 args socket cwd hne =>
      match n with
      | 0 => simp [execLoop] at h
      | n + 1 =>
          rw [List.take_succ_cons, execLoop_dashdash] at h
          split at h
          · cases h
          · cases h
            rw [List.drop_succ_cons, List.take_append_drop]
  | case8 a args socket cwd hdash hsocket hcwd hdashdash =>
      match n with
      | 0 => simp [execLoop] at h
      | n + 1 =>
          unfold execLoop at h
          rw [List.take_succ_cons] at h
          dsimp only at h
          rw [if_pos hdash, if_neg hsocket, if_neg hcwd, if_neg hdashdash] at h
          cases h
  | case9 a args socket cwd hdash =>
      match n with
      | 0 => simp [execLoop] at h
      | n + 1 =>
          unfold execLoop at h
          rw [List.take_succ_cons] at h
          dsimp only at h
          rw [if_neg hdash] at h
          cases h
          rw [List.drop_succ_cons, List.cons_append, List.take_append_drop]

theorem execLoop_length (args : List Arg) (socket cwd : Option Arg) {x : ExecArgs}
    (h : execLoop args socket cwd = some x) : x.argv.length ≤ args.length := by
  fun_induction execLoop args socket cwd with
  | case1 | case2 | case4 | case6 | case8 => cases h
  | case3 _ _ v args _ ih | case5 _ _ v args _ _ ih =>
      have hle := ih h
      simp only [List.length_cons]
      omega
  | case7 args | case9 a args =>
      cases h
      simp

end Phi.Ctl
