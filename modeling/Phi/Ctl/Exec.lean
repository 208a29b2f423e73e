import Phi.Card.Command
import Phi.Ctl.Frame
import Phi.Rpc.RoundTrip
import Phi.Rpc.Truncate

/-!
# Phi.Ctl.Exec

What `cmd_exec` asks the card to run.

The command line asks for arguments and a directory (`asked`); the frame holds
what is left of them.  `exec_right_iff` says on which command lines that is all
of it, or the client says that something went wrong.
-/

namespace Phi.Ctl

open Serve Rpc Utf8 Reader Card

/-! ## the client -/

/-- What of the system decides whether the frame is sent: the cards, and the daemon
at the socket.  Where it says no, phictl writes why and exits. -/
structure Host where
  takes : List Global → Option Arg → Bool

/-- What a run of phictl comes to, as far as a command's frame goes. -/
inductive Outcome where
  | reported
  | sent (tx : Tx)
  | other

def execVerb : Arg := bytes "exec"

/-- `cmd_exec`, up to `send_tx`. -/
def cmdExec (host : Host) (m : Nat → UInt8) (gs : List Global) (args : List Arg) : Outcome :=
  match execLoop args none none with
  | none => .reported
  | some x =>
      if host.takes gs x.socket then .sent (execFrame m x.argv x.cwd) else .reported

/-- `_start`. -/
def start (host : Host) (m : Nat → UInt8) (argv : List Arg) : Outcome :=
  match startLoop argv [] [] with
  | none | some (_, []) => .reported
  | some (gs, verb :: args) => if verb = execVerb then cmdExec host m gs args else .other

/-! ## what is asked for -/

/-- The command that the line asks for, however many arguments it has. -/
def asked (argv : List Arg) : Option ExecArgs := execLoop (own argv).tail none none

/-- The daemon's decoder rejects the frame; it then closes the connection, and the
client says so. -/
def Rejected (frame : List UInt8) : Prop :=
  ∀ d : Dec, d.win.content = frame →
    ∃ o d', d.next = some (o, d') ∧ ∀ tag body, o ≠ .frame tag body

/-- The frame is the command, to `phi-rpc` and to the agent. -/
def Decodes (frame : List UInt8) (argv : List Arg) (cwd : Option Arg) : Prop :=
  ∃ (av : List String) (dir : Option String), av.map bytes = argv ∧ dir.map bytes = cwd ∧
    decoderNext frame = some (.ok (.exec av cardEnv dir), []) ∧
    ∀ w : Window UInt8, w.content = frame →
      ∃ body w', rxTurn w = some (.frame (Tag.toByte .exec) body, w') ∧ w'.content = [] ∧
        ∀ arena, arena + arenaCap ≤ 2 ^ 64 → ∀ s, ∃ c t,
          exDecode arena w.cells ⟨w.head + 5, w.head + 5⟩ s = ((), c, t) ∧
            t.Holds av cardEnv dir

/-- The client reports an error, or its frame fits and is the command. -/
def Right (host : Host) (m : Nat → UInt8) (argv : List Arg) : Prop :=
  match start host m argv with
  | .reported | .other => True
  | .sent tx => tx.high ≤ txCap ∧
      (Rejected tx.frame ∨ ∃ x, asked argv = some x ∧ Decodes tx.frame x.argv x.cwd)

/-! ## the body read -/

theorem leBytes_putU16 {n : Nat} (h : n ≤ 65535) : leBytes 2 n = putU16 (UInt16.ofNat n) := by
  rw [putU16, toNat_ofNat_of_le h]

theorem read_wireStr (a : Arg) (more : List UInt8) :
    Read.str (wireStr a ++ more) = (decode (cutStr a)).map fun s => (s, more) := by
  have hle : (cutStr a).length ≤ 65535 := (length_cutStr_le a).1
  have htake : Reader.take (cutStr a).length (cutStr a ++ more) = some (cutStr a, more) :=
    reads_take rfl more
  unfold Read.str
  rw [wireStr, leBytes_putU16 hle, List.append_assoc, Reader.bind_apply, reads_u16 _ _,
    Option.bind_some, Reader.bind_apply, toNat_ofNat_of_le hle, htake]
  rfl

/-- The strings of a list, where all of them are UTF-8. -/
def texts (as : List Arg) : Option (List String) := as.mapM fun a => decode (cutStr a)

theorem texts_cons (a : Arg) (as : List Arg) :
    texts (a :: as) = (decode (cutStr a)).bind fun s => (texts as).map (s :: ·) := by
  rw [texts, List.mapM_cons]
  cases decode (cutStr a) with
  | none => rfl
  | some s =>
      rw [texts]
      cases as.mapM fun a => decode (cutStr a) with
      | none => rfl
      | some ss => rfl

theorem texts_eq_none_iff (as : List Arg) :
    texts as = none ↔ ∃ a ∈ as, decode (cutStr a) = none := by
  induction as with
  | nil => simp [texts]
  | cons a as ih =>
      rw [texts_cons, List.exists_mem_cons_iff, ← ih]
      cases decode (cutStr a) with
      | none => simp
      | some s => simp

/-- The texts are what was left of the strings. -/
theorem bytes_of_texts {as : List Arg} {ss : List String} (h : texts as = some ss) :
    ss.map bytes = as.map cutStr := by
  induction as generalizing ss with
  | nil =>
      cases h
      rfl
  | cons a as ih =>
      rw [texts_cons] at h
      obtain ⟨s, hs, hmap⟩ := Option.bind_eq_some_iff.mp h
      obtain ⟨rest, hrest, rfl⟩ := Option.map_eq_some_iff.mp hmap
      rw [List.map_cons, List.map_cons, ih hrest, bytes_of_decode hs]

theorem read_wireStrs (as : List Arg) (more : List UInt8) :
    Reader.many Read.str as.length (as.flatMap wireStr ++ more) =
      (texts as).map fun ss => (ss, more) := by
  induction as with
  | nil => rfl
  | cons a as ih =>
      rw [List.flatMap_cons, List.append_assoc, List.length_cons, Reader.many,
        Reader.bind_apply, read_wireStr, texts_cons]
      cases decode (cutStr a) with
      | none => rfl
      | some s =>
          rw [Option.map_some, Option.bind_some, Option.bind_some, Reader.bind_apply, ih]
          cases texts as with
          | none => rfl
          | some ss => rfl

theorem read_wirePair {e : String × String} (h : (bytes e.1).length ≤ maxString)
    (h' : (bytes e.2).length ≤ maxString) (more : List UInt8) :
    Read.pair (wireStr (bytes e.1) ++ wireStr (bytes e.2) ++ more) = some (e, more) := by
  unfold Read.pair
  rw [List.append_assoc, Reader.bind_apply, read_wireStr, cutStr, if_pos h, decode_bytes,
    Option.map_some, Option.bind_some, Reader.bind_apply, read_wireStr, cutStr, if_pos h',
    decode_bytes]
  rfl

theorem read_env (more : List UInt8) :
    Reader.many Read.pair 3 (envStrs.flatMap wireStr ++ more) = some (cardEnv, more) := by
  have hshort : ∀ e ∈ cardEnv, (bytes e.1).length ≤ maxString ∧ (bytes e.2).length ≤ maxString := by
    decide +kernel
  have hall : ∀ es : List (String × String),
      (∀ e ∈ es, (bytes e.1).length ≤ maxString ∧ (bytes e.2).length ≤ maxString) →
        Reader.many Read.pair es.length
          ((es.flatMap fun e => [bytes e.1, bytes e.2]).flatMap wireStr ++ more) =
            some (es, more) := by
    intro es hes
    induction es with
    | nil => rfl
    | cons e es ih =>
        obtain ⟨h, h'⟩ := hes e List.mem_cons_self
        have hcons : ((e :: es).flatMap fun e => [bytes e.1, bytes e.2]).flatMap wireStr ++ more =
            wireStr (bytes e.1) ++ wireStr (bytes e.2) ++
              ((es.flatMap fun e => [bytes e.1, bytes e.2]).flatMap wireStr ++ more) := by
          simp
        rw [hcons, List.length_cons, Reader.many, Reader.bind_apply, read_wirePair h h',
          Option.bind_some, Reader.bind_apply, ih fun x hx => hes x (List.mem_cons_of_mem e hx)]
        rfl
  exact hall cardEnv hshort

/-- What is read of the body. -/
theorem read_execBody {argv : List Arg} (h : argv.length ≤ 65535) (cwd : Option Arg) :
    Read.exec (execBody argv cwd) = (texts argv).bind fun av =>
      (decode (cutStr (cwd.getD []))).map fun d =>
        (.exec av cardEnv (if d = "" then none else some d), []) := by
  have hcwd := read_wireStr (cwd.getD []) []
  rw [List.append_nil] at hcwd
  unfold Read.exec Read.list execBody
  rw [leBytes_putU16 h, leBytes_putU16 (show 3 ≤ 65535 by decide)]
  simp only [List.append_assoc]
  rw [Reader.bind_apply, Reader.bind_apply, reads_u16 _ _, Option.bind_some,
    toNat_ofNat_of_le h, read_wireStrs]
  cases texts argv with
  | none => rfl
  | some av =>
      rw [Option.map_some, Option.bind_some, Reader.bind_apply, Reader.bind_apply,
        reads_u16 _ _, Option.bind_some, toNat_ofNat_of_le (by decide), read_env,
        Option.bind_some, Reader.bind_apply, hcwd]
      cases decode (cutStr (cwd.getD [])) with
      | none => rfl
      | some d => rfl

/-! ## the frame taken -/

theorem cut_reframe {tag : UInt8} {body : List UInt8} (h : 1 + body.length < 2 ^ 32) :
    cut (reframe tag body) =
      if Rpc.maxFrame < 1 + body.length then some (.length (1 + body.length), [])
      else some (.of tag body (validate tag body), []) := by
  have hfour : (putU32 (UInt32.ofNat (1 + body.length))).length = 4 := length_leBytes 4 _
  have hlen : (reframe tag body).length = 4 + (1 + body.length) := by
    rw [reframe, List.length_append, hfour, List.length_cons, Nat.add_comm body.length]
  have htake : ofLe ((reframe tag body).take 4) = 1 + body.length := by
    rw [reframe, List.take_left' hfour, putU32, UInt32.toNat_ofNat_of_lt' h, ofLe_leBytes h]
  have htag : (reframe tag body).getD 4 0 = tag := by
    rw [reframe, List.getD_eq_getElem?_getD, List.getElem?_append_right (by omega), hfour]
    rfl
  have hbody : (reframe tag body).drop 5 = body := by
    rw [reframe, List.drop_append, List.drop_eq_nil_of_le (by omega), hfour]
    rfl
  unfold cut
  dsimp only
  rw [if_neg (by omega), htake]
  by_cases hbig : Rpc.maxFrame < 1 + body.length
  · rw [if_pos (.inr hbig), if_pos hbig]
  · rw [if_neg (show ¬ (1 + body.length = 0 ∨ Rpc.maxFrame < 1 + body.length) by omega),
      if_neg hbig, if_neg (show ¬ (reframe tag body).length < 4 + (1 + body.length) by omega),
      ← hlen, List.take_length, List.drop_length, htag, hbody]

/-- The daemon's decoder takes the common turn. -/
theorem rejected_iff (frame : List UInt8) :
    Rejected frame ↔ ∃ o rest, cut frame = some (o, rest) ∧ ∀ tag body, o ≠ .frame tag body := by
  constructor
  · intro h
    obtain ⟨o, d', hnext, ho⟩ := h ⟨⟨Circular.write (fun _ => 0) 0 frame, 0, frame.length⟩, 0⟩
      (Circular.read_write _ 0 frame)
    rw [Dec.next_eq] at hnext
    obtain ⟨⟨o', w'⟩, hrx, hpair⟩ := Option.map_eq_some_iff.mp hnext
    obtain ⟨rfl, -⟩ := Prod.mk.inj hpair
    have hturn := rxTurn_content ⟨Circular.write (fun _ => 0) 0 frame, 0, frame.length⟩
    rw [hrx] at hturn
    refine ⟨o', w'.content, ?_, ho⟩
    rw [← Circular.read_write (fun _ => 0) 0 frame]
    exact hturn.symm
  · rintro ⟨o, rest, hcut, ho⟩ d hd
    have hturn := rxTurn_content d.win
    rw [hd, hcut] at hturn
    obtain ⟨⟨o', w'⟩, hrx, hpair⟩ := Option.map_eq_some_iff.mp hturn
    obtain ⟨rfl, -⟩ := Prod.mk.inj hpair
    exact ⟨o', _, by rw [d.next_eq, hrx]; rfl, ho⟩

section frame

variable {argv : List Arg} {cwd : Option Arg}

theorem sum_wireSize_le (as : List Arg) : (as.map wireSize).sum ≤ 65537 * as.length := by
  induction as with
  | nil => exact Nat.zero_le _
  | cons a as ih =>
      have hle : (cutStr a).length ≤ 65535 := (length_cutStr_le a).1
      rw [List.map_cons, List.sum_cons, wireSize, List.length_cons]
      omega

theorem execSize_lt (h : argv.length ≤ argsCap) (cwd : Option Arg) :
    execSize argv cwd < 2 ^ 32 := by
  have hargv := sum_wireSize_le argv
  have henv := sum_wireSize_le envStrs
  have hsix : envStrs.length = 6 := rfl
  have hcwd : (cutStr (cwd.getD [])).length ≤ 65535 := (length_cutStr_le _).1
  unfold execSize wireSize at *
  unfold argsCap at h
  omega

theorem decodeBody_exec (body : List UInt8) : decodeBody (Tag.toByte .exec) body =
    match Read.exec body with
    | none => .error .malformed
    | some (m, _) => .ok m := by
  unfold decodeBody
  rw [Tag.ofByte_toByte]
  rfl

theorem validate_exec (body : List UInt8) :
    validate (Tag.toByte .exec) body = 0 ↔ ∃ x, Read.exec body = some x := by
  have hdecode := decodeBody_exec body
  constructor
  · intro h
    exact fields_of_validate h
  · rintro ⟨x, hx⟩
    rw [hx] at hdecode
    obtain ⟨hzero, -⟩ | ⟨-, herr⟩ | ⟨-, herr⟩ := decodeBody_of_validate (Tag.toByte .exec) body
    · exact hzero
    · exact nomatch hdecode.symm.trans herr
    · exact nomatch hdecode.symm.trans herr

/-- The body is read unless one of the strings is no text. -/
theorem read_execBody_none (h : argv.length ≤ argsCap) :
    Read.exec (execBody argv cwd) = none ↔
      ∃ a ∈ argv ++ cwd.toList, decode (cutStr a) = none := by
  have hempty : decode (cutStr []) = some "" := decode_bytes ""
  have hcwd : decode (cutStr (cwd.getD [])) = none ↔
      ∃ a ∈ cwd.toList, decode (cutStr a) = none := by
    cases cwd with
    | none => simp [hempty]
    | some c => simp
  rw [read_execBody (Nat.le_trans h (by decide))]
  simp only [List.mem_append, or_and_right, exists_or]
  rw [← texts_eq_none_iff, ← hcwd]
  cases texts argv with
  | none => simp
  | some av => simp

/-- The daemon rejects a frame that is too long, or holds a string that is no text. -/
theorem rejected_exec (h : argv.length ≤ argsCap) :
    Rejected (reframe (Tag.toByte .exec) (execBody argv cwd)) ↔
      Rpc.maxFrame < execSize argv cwd ∨
        ∃ a ∈ argv ++ cwd.toList, decode (cutStr a) = none := by
  have hlt := execSize_lt h cwd
  rw [← length_execBody] at hlt ⊢
  rw [rejected_iff, cut_reframe hlt, ← read_execBody_none h]
  by_cases hbig : Rpc.maxFrame < 1 + (execBody argv cwd).length
  · rw [if_pos hbig]
    exact iff_of_true ⟨_, _, rfl, fun _ _ => nofun⟩ (.inl hbig)
  · rw [if_neg hbig]
    have hvalid := validate_exec (execBody argv cwd)
    constructor
    · rintro ⟨o, rest, hsome, ho⟩
      refine .inr ?_
      obtain ⟨rfl, -⟩ := Prod.mk.inj (Option.some.inj hsome)
      cases hread : Read.exec (execBody argv cwd) with
      | none => rfl
      | some x =>
          rw [hvalid.mpr ⟨x, hread⟩] at ho
          exact absurd rfl (ho _ _)
    · rintro (hlong | hnone)
      · exact absurd hlong hbig
      · refine ⟨_, _, rfl, fun tag body hof => ?_⟩
        obtain ⟨x, hx⟩ := hvalid.mp (outcome_of_frame hof).1
        rw [hnone] at hx
        cases hx

/-- What the frame decodes to, where it is not rejected. -/
theorem agent_decodes (h : argv.length ≤ argsCap)
    (hfit : ¬ Rpc.maxFrame < execSize argv cwd) {av : List String} {d : String}
    (hav : texts argv = some av) (hd : decode (cutStr (cwd.getD [])) = some d)
    (w : Window UInt8) (hw : w.content = reframe (Tag.toByte .exec) (execBody argv cwd)) :
    ∃ body w', rxTurn w = some (.frame (Tag.toByte .exec) body, w') ∧ w'.content = [] ∧
      ∀ arena, arena + arenaCap ≤ 2 ^ 64 → ∀ s, ∃ c t,
        exDecode arena w.cells ⟨w.head + 5, w.head + 5⟩ s = ((), c, t) ∧
          t.Holds av cardEnv (if d = "" then none else some d) := by
  have hread := read_execBody (Nat.le_trans h (by decide)) cwd
  rw [hav, Option.bind_some, hd, Option.map_some] at hread
  have hdecode := decodeBody_exec (execBody argv cwd)
  rw [hread] at hdecode
  have hturn := rxTurn_content w
  have hlt := execSize_lt h cwd
  rw [← length_execBody] at hlt hfit
  rw [hw, cut_reframe hlt, if_neg hfit,
    (validate_exec _).mpr ⟨_, hread⟩] at hturn
  obtain ⟨⟨o, w'⟩, hrx, hpair⟩ := Option.map_eq_some_iff.mp hturn
  obtain ⟨rfl, hleft⟩ := Prod.mk.inj hpair
  refine ⟨_, w', hrx, hleft, fun arena harena s => ?_⟩
  obtain ⟨av', env', cwd', c, hdecode', hwalk, -, hshort, hroom⟩ := exec_placed hrx arena s
  have hsame := Except.ok.inj (hdecode'.symm.trans hdecode)
  injection hsame with hargv henv hcwd
  subst hargv henv
  have hholds := s.holds_placed arena av' cardEnv cwd' (by omega) hshort
  rw [hcwd] at hholds
  exact ⟨c, _, hwalk, hholds⟩

theorem rpc_decodes (h : argv.length ≤ argsCap)
    (hfit : ¬ Rpc.maxFrame < execSize argv cwd) {av : List String} {d : String}
    (hav : texts argv = some av) (hd : decode (cutStr (cwd.getD [])) = some d) :
    decoderNext (reframe (Tag.toByte .exec) (execBody argv cwd)) =
      some (.ok (.exec av cardEnv (if d = "" then none else some d)), []) := by
  rw [← length_execBody] at hfit
  have hread := read_execBody (Nat.le_trans h (by decide)) cwd
  rw [hav, Option.bind_some, hd, Option.map_some] at hread
  have hnext : decoderNext (reframe (Tag.toByte .exec) (execBody argv cwd) ++ []) = _ :=
    decoderNext_reframe (by omega) []
  rw [List.append_nil, decodeBody_exec, hread] at hnext
  exact hnext

end frame

/-! ## when the command is the one asked for -/

/-- Nothing of the command is lost: `args` held all arguments, no string was cut, and
the directory, if there is one, has a name. -/
def Whole (argv : List Arg) (x : ExecArgs) : Prop :=
  (own argv).length ≤ argsCap ∧ (∀ a ∈ x.argv ++ x.cwd.toList, a.length ≤ maxString) ∧
    x.cwd ≠ some []

/-- The daemon refuses what is sent: the frame is too long, or a string of it is no text. -/
def Refused (x : ExecArgs) : Prop :=
  Rpc.maxFrame < execSize x.argv x.cwd ∨
    ∃ a ∈ x.argv ++ x.cwd.toList, decode (cutStr a) = none

/-- Where phictl sends the command at all, none of the strings is a runaway, all of them
fit the buffer before they are cut, and the command is whole or refused. -/
def Meets (host : Host) (argv : List Arg) : Prop :=
  ∀ gs args x, startLoop argv [] [] = some (gs, execVerb :: args) →
    execLoop args none none = some x → host.takes gs x.socket = true →
      (∀ a ∈ x.argv ++ x.cwd.toList, ¬ Runaway a) ∧ execReach x.argv x.cwd ≤ txCap ∧
        (Refused x ∨ Whole argv x)

/-- A line that gets to `cmd_exec`: what `args` kept, against what was asked for. -/
theorem asked_of_kept {argv args : List Arg} {gs : List Global} {x : ExecArgs}
    (hstart : startLoop argv [] [] = some (gs, execVerb :: args))
    (hexec : execLoop args none none = some x) :
    x.argv.length ≤ argsCap ∧ ∃ dropped, asked argv =
        some { x with argv := x.argv ++ dropped } ∧
      (dropped = [] ↔ (own argv).length ≤ argsCap) := by
  have hkept := startLoop_own argv [] [] (Nat.zero_le _) hstart
  rw [List.nil_append] at hkept
  cases hown : own argv with
  | nil =>
      rw [hown] at hkept
      exact nomatch hkept
  | cons verb rest =>
      rw [hown, argsCap, List.take_succ_cons] at hkept
      obtain ⟨rfl, rfl⟩ := List.cons.inj hkept
      have hlen := execLoop_length _ none none hexec
      rw [List.length_take] at hlen
      refine ⟨by unfold argsCap; omega, rest.drop 63, ?_, ?_⟩
      · rw [asked, hown]
        exact execLoop_take rest none none 63 hexec
      · rw [List.drop_eq_nil_iff, List.length_cons]
        unfold argsCap
        omega

theorem start_sent {host : Host} {m : Nat → UInt8} {argv args : List Arg} {gs : List Global}
    {x : ExecArgs} (hstart : startLoop argv [] [] = some (gs, execVerb :: args))
    (hexec : execLoop args none none = some x) (htakes : host.takes gs x.socket = true) :
    start host m argv = .sent (execFrame m x.argv x.cwd) := by
  unfold start
  rw [hstart]
  dsimp only
  rw [if_pos rfl, cmdExec, hexec]
  dsimp only
  rw [if_pos htakes]

/-- The frame that is sent, where none of its strings is a runaway. -/
theorem sent_frame (m : Nat → UInt8) {argv : List Arg} {cwd : Option Arg}
    (h : argv.length ≤ argsCap) (hsane : ∀ a ∈ argv ++ cwd.toList, ¬ Runaway a) :
    (execFrame m argv cwd).frame = reframe (Tag.toByte .exec) (execBody argv cwd) ∧
      (execFrame m argv cwd).high = execReach argv cwd := by
  obtain ⟨hframe, hhigh⟩ := built_execFrame m hsane
  refine ⟨?_, hhigh⟩
  have hlt := execSize_lt h cwd
  rw [← length_execBody] at hlt
  rw [hframe, reframe, putU32, UInt32.toNat_ofNat_of_lt' hlt]

theorem start_cases (host : Host) (m : Nat → UInt8) (argv : List Arg) :
    start host m argv = .reported ∨ start host m argv = .other ∨
      ∃ gs args x, startLoop argv [] [] = some (gs, execVerb :: args) ∧
        execLoop args none none = some x ∧ host.takes gs x.socket = true := by
  unfold start
  cases hstart : startLoop argv [] [] with
  | none => exact .inl rfl
  | some kept =>
      obtain ⟨gs, _ | ⟨verb, args⟩⟩ := kept
      · exact .inl rfl
      · dsimp only
        by_cases hverb : verb = execVerb
        · rw [if_pos hverb, cmdExec]
          cases hexec : execLoop args none none with
          | none => exact .inl rfl
          | some x =>
              dsimp only
              by_cases htakes : host.takes gs x.socket = true
              · exact .inr (.inr ⟨gs, args, x, by rw [hverb], hexec, htakes⟩)
              · rw [if_neg htakes]
                exact .inl rfl
        · rw [if_neg hverb]
          exact .inr (.inl rfl)

theorem cutStr_of_short {a : Arg} (h : a.length ≤ maxString) : cutStr a = a := if_pos h

/-- A whole command that is not refused is decoded as it was asked for. -/
theorem decodes_of_whole {argv : List Arg} {cwd : Option Arg}
    (h : argv.length ≤ argsCap) (hshort : ∀ a ∈ argv ++ cwd.toList, a.length ≤ maxString)
    (hname : cwd ≠ some []) (hfit : ¬ Rpc.maxFrame < execSize argv cwd)
    (htexts : ¬ ∃ a ∈ argv ++ cwd.toList, decode (cutStr a) = none) :
    Decodes (reframe (Tag.toByte .exec) (execBody argv cwd)) argv cwd := by
  obtain ⟨msg, hread⟩ : ∃ msg, Read.exec (execBody argv cwd) = some msg :=
    Option.ne_none_iff_exists'.mp fun hnone => htexts ((read_execBody_none h).mp hnone)
  rw [read_execBody (Nat.le_trans h (by decide))] at hread
  obtain ⟨av, hav, hrest⟩ := Option.bind_eq_some_iff.mp hread
  obtain ⟨d, hd, -⟩ := Option.map_eq_some_iff.mp hrest
  refine ⟨av, if d = "" then none else some d, ?_, ?_, rpc_decodes h hfit hav hd,
    agent_decodes h hfit hav hd⟩
  · rw [bytes_of_texts hav]
    conv => rhs; rw [← List.map_id argv]
    exact List.map_congr_left fun a ha => cutStr_of_short (hshort a (List.mem_append_left _ ha))
  · cases cwd with
    | none =>
        have hempty : d = "" := Option.some.inj (hd.symm.trans (decode_bytes ""))
        rw [if_pos hempty]
        rfl
    | some c =>
        rw [Option.getD_some, cutStr_of_short (hshort c (by simp))] at hd
        have hbytes := bytes_of_decode hd
        have hne : d ≠ "" := by
          rintro rfl
          exact hname (congrArg some hbytes.symm)
        rw [if_neg hne, Option.map_some, hbytes]

theorem right_of_meets {host : Host} {m : Nat → UInt8} {argv : List Arg} (h : Meets host argv) :
    Right host m argv := by
  unfold Right
  obtain hr | hr | ⟨gs, args, x, hstart, hexec, htakes⟩ := start_cases host m argv
  · rw [hr]
    trivial
  · rw [hr]
    trivial
  · rw [start_sent hstart hexec htakes]
    obtain ⟨hsane, hroom, hends⟩ := h gs args x hstart hexec htakes
    obtain ⟨hlen, dropped, hasked, hdropped⟩ := asked_of_kept hstart hexec
    obtain ⟨hframe, hhigh⟩ := sent_frame m hlen hsane
    dsimp only
    rw [hframe, hhigh]
    refine ⟨hroom, ?_⟩
    by_cases hrefused : Refused x
    · exact .inl ((rejected_exec hlen).mpr hrefused)
    · obtain ⟨hfits, hshort, hname⟩ := hends.resolve_left hrefused
      rw [hdropped.mpr hfits, List.append_nil] at hasked
      exact .inr ⟨x, hasked, decodes_of_whole hlen hshort hname
        (fun hbig => hrefused (.inl hbig)) fun hbad => hrefused (.inr hbad)⟩

theorem short_of_cutStr {a : Arg} (h : cutStr a = a) : a.length ≤ maxString :=
  h ▸ (length_cutStr_le a).1

/-- What decodes as it was asked for is whole. -/
theorem whole_of_decodes {argv dropped : List Arg} {cwd : Option Arg} (h : argv.length ≤ argsCap)
    (hfit : ¬ Rpc.maxFrame < execSize argv cwd)
    (htexts : ¬ ∃ a ∈ argv ++ cwd.toList, decode (cutStr a) = none)
    (hdecodes : Decodes (reframe (Tag.toByte .exec) (execBody argv cwd)) (argv ++ dropped) cwd) :
    dropped = [] ∧ (∀ a ∈ argv ++ cwd.toList, a.length ≤ maxString) ∧ cwd ≠ some [] := by
  obtain ⟨av, dir, hav, hdir, hnext, -⟩ := hdecodes
  obtain ⟨msg, hread⟩ : ∃ msg, Read.exec (execBody argv cwd) = some msg :=
    Option.ne_none_iff_exists'.mp fun hnone => htexts ((read_execBody_none h).mp hnone)
  rw [read_execBody (Nat.le_trans h (by decide))] at hread
  obtain ⟨ss, hss, hrest⟩ := Option.bind_eq_some_iff.mp hread
  obtain ⟨d, hd, -⟩ := Option.map_eq_some_iff.mp hrest
  have hmsg := (rpc_decodes h hfit hss hd).symm.trans hnext
  simp only [Option.some.injEq, Prod.mk.injEq, Except.ok.injEq, Msg.exec.injEq, and_true,
    true_and] at hmsg
  obtain ⟨rfl, rfl⟩ := hmsg
  have hbytes : argv.map cutStr = argv ++ dropped := (bytes_of_texts hss).symm.trans hav
  have hnil : dropped = [] := by
    have hcount := congrArg List.length hbytes
    rw [List.length_map, List.length_append] at hcount
    exact List.eq_nil_of_length_eq_zero (by omega)
  rw [hnil, List.append_nil] at hbytes
  -- a directory that comes back was not cut, and has a name
  have hname : ∀ c, cwd = some c → bytes d = c ∧ d ≠ "" := by
    intro c hc
    rw [hc] at hdir
    obtain ⟨e, he, rfl⟩ := Option.map_eq_some_iff.mp hdir
    obtain ⟨hne, hde⟩ := Option.ite_none_left_eq_some.mp he
    cases hde
    exact ⟨rfl, hne⟩
  refine ⟨hnil, fun a ha => short_of_cutStr ?_, fun hc => ?_⟩
  · rcases List.mem_append.mp ha with ha | ha
    · exact List.map_inj_left.mp (hbytes.trans (List.map_id argv).symm) a ha
    · have hc := Option.mem_toList.mp ha
      rw [hc, Option.getD_some] at hd
      exact (bytes_of_decode hd).symm.trans (hname a hc).1
  · obtain ⟨hempty, hne⟩ := hname [] hc
    have hdecode := decode_bytes d
    rw [hempty] at hdecode
    exact hne (Option.some.inj (hdecode.symm.trans (decode_bytes "")))

theorem meets_of_right {host : Host} {m : Nat → UInt8} {argv : List Arg}
    (hsane : ∀ y, asked argv = some y → ∀ a ∈ y.argv ++ y.cwd.toList, ¬ Runaway a)
    (h : Right host m argv) : Meets host argv := by
  intro gs args x hstart hexec htakes
  obtain ⟨hlen, dropped, hasked, hdropped⟩ := asked_of_kept hstart hexec
  have hsane : ∀ a ∈ x.argv ++ x.cwd.toList, ¬ Runaway a := fun a ha => by
    refine hsane _ hasked a ?_
    rw [List.mem_append] at ha ⊢
    exact ha.imp_left (List.mem_append_left dropped)
  obtain ⟨hframe, hhigh⟩ := sent_frame m hlen hsane
  unfold Right at h
  rw [start_sent hstart hexec htakes] at h
  dsimp only at h
  rw [hframe, hhigh] at h
  obtain ⟨hroom, hends⟩ := h
  refine ⟨hsane, hroom, ?_⟩
  by_cases hrefused : Refused x
  · exact .inl hrefused
  · obtain hrejected | ⟨y, hy, hdecodes⟩ := hends
    · exact .inl ((rejected_exec hlen).mp hrejected)
    · obtain rfl := Option.some.inj (hasked.symm.trans hy)
      obtain ⟨hnil, hshort, hname⟩ := whole_of_decodes hlen (fun hbig => hrefused (.inl hbig))
        (fun hbad => hrefused (.inr hbad)) hdecodes
      exact .inr ⟨hdropped.mp hnil, hshort, hname⟩

theorem meets_of_kept {host : Host} {argv args : List Arg} {gs : List Global} {x : ExecArgs}
    (hstart : startLoop argv [] [] = some (gs, execVerb :: args))
    (hexec : execLoop args none none = some x)
    (hsane : ∀ a ∈ x.argv ++ x.cwd.toList, ¬ Runaway a) (hroom : execReach x.argv x.cwd ≤ txCap)
    (hends : Refused x ∨ Whole argv x) : Meets host argv := by
  intro gs' args' x' hstart' hexec' _
  cases hstart.symm.trans hstart'
  cases hexec.symm.trans hexec'
  exact ⟨hsane, hroom, hends⟩

theorem not_right_of_kept {host : Host} {m : Nat → UInt8} {argv args : List Arg}
    {gs : List Global} {x y : ExecArgs}
    (hstart : startLoop argv [] [] = some (gs, execVerb :: args))
    (hexec : execLoop args none none = some x) (htakes : host.takes gs x.socket = true)
    (hasked : asked argv = some y) (hsane : ∀ a ∈ y.argv ++ y.cwd.toList, ¬ Runaway a)
    (hrefused : ¬ Refused x) (hwhole : ¬ Whole argv x) : ¬ Right host m argv := by
  intro h
  have hmeets := meets_of_right (fun z hz => by
    cases hasked.symm.trans hz
    exact hsane) h
  obtain ⟨-, -, hends⟩ := hmeets gs args x hstart hexec htakes
  exact hends.elim hrefused hwhole

instance (x : ExecArgs) : Decidable (Refused x) := inferInstanceAs (Decidable (_ ∨ _))

instance (argv : List Arg) (x : ExecArgs) : Decidable (Whole argv x) :=
  inferInstanceAs (Decidable (_ ∧ _ ∧ _))

/-- **The command is the one asked for, or an error is reported, exactly on these lines**,
runaways apart. -/
theorem exec_right_iff (host : Host) (m : Nat → UInt8) (argv : List Arg) :
    (Meets host argv → Right host m argv) ∧
      ((∀ y, asked argv = some y → ∀ a ∈ y.argv ++ y.cwd.toList, ¬ Runaway a) →
        Right host m argv → Meets host argv) :=
  ⟨right_of_meets, meets_of_right⟩

/-- A host on which nothing fails. -/
def Host.willing : Host := ⟨fun _ _ => true⟩

theorem exec_right_iff_ls : Right .willing (fun _ => 0) [execVerb, bytes "ls"] := by
  have hline : startLoop [execVerb, bytes "ls"] [] [] = some ([], [execVerb, bytes "ls"]) := by
    decide +kernel
  have hargs : execLoop [bytes "ls"] none none = some ⟨none, none, [bytes "ls"]⟩ := by
    decide +kernel
  exact (exec_right_iff .willing (fun _ => 0) [execVerb, bytes "ls"]).1
    (meets_of_kept hline hargs (by decide +kernel) (by decide +kernel) (.inr (by decide +kernel)))

/-- Of sixty-four arguments the last does not get to the card. -/
theorem exec_drops_argument :
    ¬ Right .willing (fun _ => 0) (execVerb :: List.replicate 64 (bytes "a")) := by
  have hline : startLoop (execVerb :: List.replicate 64 (bytes "a")) [] [] =
      some ([], execVerb :: List.replicate 63 (bytes "a")) := by decide +kernel
  have hargs : execLoop (List.replicate 63 (bytes "a")) none none =
      some ⟨none, none, List.replicate 63 (bytes "a")⟩ := by decide +kernel
  have hasked : asked (execVerb :: List.replicate 64 (bytes "a")) =
      some ⟨none, none, List.replicate 64 (bytes "a")⟩ := by decide +kernel
  exact not_right_of_kept hline hargs rfl hasked (by decide +kernel) (by decide +kernel)
    (by decide +kernel)

end Phi.Ctl
