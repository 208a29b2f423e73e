import Phi.Rpc.Decoders

/-!
# Phi.Card.Agent

The card's end of the rpc channel: `phi-agent`.

The agent has one thread and one session at a time.  Four loops read the
device: the idle one, and those of a command, a put and a get.  A turn here is
one round of the loop the agent is in; what the system calls of the round
return is given with it (`Calls`), and what the device takes and what a sample
of the card reads may depend on all that happened before (`Env`).
-/

namespace Phi.Card

open Rpc Serve

/-! ## constants -/

def eintr : Nat := 4
def inputBacklog : Nat := 1048576
def inCap : Nat := 4 * 1048576
def outputGraceMs : Nat := 300

/-- `agent_version`. -/
def version : String := "0.2.0"

/-- `msg_names`. -/
def name : Tag → String
  | .exec => "Exec"
  | .stdin => "Stdin"
  | .stdinEof => "StdinEof"
  | .stdout => "Stdout"
  | .stderr => "Stderr"
  | .exit => "Exit"
  | .putOpen => "PutOpen"
  | .putData => "PutData"
  | .putClose => "PutClose"
  | .get => "Get"
  | .getData => "GetData"
  | .getEnd => "GetEnd"
  | .error => "Error"
  | .ping => "Ping"
  | .pong => "Pong"
  | .sensors => "Sensors"
  | .sensorsReply => "SensorsReply"
  | .stat => "Stat"
  | .statReply => "StatReply"
  | .traffic => "Traffic"
  | .trafficReply => "TrafficReply"

/-! ## the outside -/

/-- What happened on the device: a frame was taken from it, or written to it
whole. -/
inductive Happening where
  | took (m : Msg)
  | sent (m : Msg)
deriving DecidableEq

/-- Whether the device takes the next frame, the message for an error number,
and what the card reads when it is sampled. -/
structure Env where
  works : List Happening → Bool
  strerror : Nat → String
  sample : List Happening → Stat

/-- `w_oserr`. -/
def Env.oserr (env : Env) (errno : Nat) : String :=
  env.strerror errno ++ " (os error " ++ toString errno ++ ")"

/-- What a read returns. -/
inductive Read where
  | data (bytes : List UInt8)
  | eof
  | failed (errno : Nat)

/-- What a write to the input pipe returns: an interrupted one is made again. -/
inductive Write where
  | written (n : Nat)
  | full
  | interrupted
  | broken

/-- Why `write_all` gave up. -/
inductive IoError where
  | zero
  | os (errno : Nat)

/-- `w_ioerr`. -/
def Env.ioerr (env : Env) : IoError → String
  | .zero => "failed to write whole buffer"
  | .os errno => env.oserr errno

/-- What `wait4` says of the command. -/
inductive Waited where
  | running
  | exited (status : Nat)
  | failed (errno : Nat)

/-- A poll of the two output pipes, and the reads that follow it. -/
structure Pump where
  outReady : Bool
  errReady : Bool
  out : Read
  err : Read

/-- What the system calls of one turn return; the error number of those that
only fail or succeed. -/
structure Calls where
  device : Read
  deviceReady : Bool
  pipes : Option Nat
  fork : Option Nat
  execve : Option Nat
  waited : Waited
  writes : List Write
  pump : Pump
  /-- The polls after the exit, with the milliseconds since. -/
  drain : List (Nat × Pump)
  opened : Option Nat
  chmod : Option Nat
  write : Option IoError
  fsync : Option Nat
  chunk : Read

/-! ## state -/

/-- A running command: its input not taken yet, and the pipes still open. -/
structure Command where
  queue : List UInt8
  inEof : Bool
  inOpen : Bool
  outOpen : Bool
  errOpen : Bool

/-- A command just started. -/
def Command.start : Command := ⟨[], false, true, true, true⟩

/-- The loop the agent is in; `dead` after it ended itself. -/
inductive Phase where
  | idle
  | exec (x : Command)
  | put (path : String)
  | get (path : String) (size : UInt64)
  | dead

structure Agent where
  rx : Window UInt8
  phase : Phase
  history : List Happening

def Agent.start (cells : Nat → UInt8) : Agent := ⟨⟨cells, 0, 0⟩, .idle, []⟩

namespace Agent

/-! ## the device -/

/-- `exit_group` after `dev_fail` or `dev_closed`. -/
def die (a : Agent) : Agent := { a with phase := .dead }

/-- `f_send`: a device that fails ends the agent. -/
def send (env : Env) (m : Msg) (a : Agent) : Agent :=
  match a.phase with
  | .dead => a
  | _ => if env.works a.history then { a with history := a.history ++ [.sent m] } else a.die

/-- The loop the agent goes on with. -/
def enter (p : Phase) (a : Agent) : Agent :=
  match a.phase with
  | .dead => a
  | _ => { a with phase := p }

/-- `fill`: so does one that closes or cannot be read. -/
def fill (r : Read) (a : Agent) : Agent :=
  match a.phase, r with
  | .dead, _ => a
  | _, .data bytes => { a with rx := rxFill a.rx bytes }
  | _, _ => a.die

theorem decodes_of_rxTurn {w w' : Window UInt8} {tag : UInt8} {body : List UInt8}
    (h : rxTurn w = some (.frame tag body, w')) : ∃ m, decodeBody tag body = .ok m := by
  unfold rxTurn at h
  split at h
  · cases h
  · dsimp only at h
    split at h
    · cases h
    · split at h
      · cases h
      · obtain ⟨hvalid, rfl, rfl⟩ := outcome_of_frame (Prod.mk.inj (Option.some.inj h)).1
        obtain ⟨-, m, hm⟩ | ⟨hv, -⟩ | ⟨hv, -⟩ := decodeBody_of_validate _ _
        · exact ⟨m, hm⟩
        · rw [hvalid] at hv
          cases hv
        · rw [hvalid] at hv
          cases hv

/-- `next_frame`: the frame it finds, decoded. -/
def nextFrame (a : Agent) : Agent × Option Msg :=
  match a.phase with
  | .dead => (a, none)
  | _ =>
      let (_, found, rx) := nextRxFrame a.rx.size a.rx
      match found.map fun f => decodeBody f.1 f.2 with
      | some (.ok m) => ({ a with rx, history := a.history ++ [.took m] }, some m)
      | _ => ({ a with rx }, none)

/-- Every frame that `next_frame` finds is decoded. -/
theorem decodes_of_nextRxFrame {n : Nat} {w : Window UInt8} {tag : UInt8} {body : List UInt8}
    (h : (nextRxFrame n w).2.1 = some (tag, body)) : ∃ m, decodeBody tag body = .ok m := by
  induction n generalizing w with
  | zero => cases h
  | succ n ih =>
      unfold nextRxFrame at h
      split at h
      · cases h
      · next hturn =>
          cases h
          exact decodes_of_rxTurn hturn
      · exact ih h

/-- So the agent takes every frame that `next_frame` finds. -/
theorem nextFrame_isSome {a : Agent} (h : a.phase ≠ .dead) :
    a.nextFrame.2.isSome = (nextRxFrame a.rx.size a.rx).2.1.isSome := by
  unfold nextFrame
  split
  · next hphase => exact absurd hphase h
  · dsimp only
    cases hfound : (nextRxFrame a.rx.size a.rx).2.1 with
    | none => rfl
    | some f =>
        obtain ⟨m, hm⟩ := decodes_of_nextRxFrame hfound
        simp [hm]

/-- `next_blocking`, one read of it. -/
def nextBlocking (r : Read) (a : Agent) : Agent × Option Msg :=
  match a.nextFrame with
  | (a, some m) => (a, some m)
  | (a, none) => (a.fill r).nextFrame

/-- `stat_reply`. -/
def statReply (env : Env) (a : Agent) : Agent := a.send env (.statReply (env.sample a.history))

end Agent

/-! ## a command -/

/-- A string no system call takes. -/
def hasNul (s : String) : Bool := s.toList.contains (Char.ofNat 0)

/-- The environment: of the entries with one key, the last. -/
def keptEnv : List (String × String) → List (String × String)
  | [] => []
  | e :: es => if es.any fun f => f.1 = e.1 then keptEnv es else e :: keptEnv es

/-- `ex_nul`. -/
def execNul (argv : List String) (env : List (String × String)) (cwd : Option String) : Bool :=
  argv.any hasNul || (keptEnv env).any (fun e => hasNul e.1 || hasNul e.2) || cwd.any hasNul

namespace Command

/-- `in_push`. -/
def push (data : List UInt8) (x : Command) : Command :=
  if x.inEof ∨ x.inOpen = false ∨ inCap < x.queue.length + data.length then x
  else { x with queue := x.queue ++ data }

/-- `in_flush`: closed once all is written after the end of the input, or as
soon as it breaks. -/
def flush : List Write → Command → Command
  | ws, x =>
      if x.inOpen = false then x
      else if x.queue = [] then if x.inEof then { x with inOpen := false } else x
      else match ws with
        | [] | .full :: _ | .written 0 :: _ => x
        | .interrupted :: ws => flush ws x
        | .broken :: _ => { x with inOpen := false, queue := [] }
        | .written n :: ws => flush ws { x with queue := x.queue.drop n }

end Command

/-- One of the command's output pipes. -/
inductive Output where
  | out
  | err

namespace Output

def message : Output → List UInt8 → Msg
  | .out, bytes => .stdout bytes
  | .err, bytes => .stderr bytes

def isOpen (x : Command) : Output → Bool
  | .out => x.outOpen
  | .err => x.errOpen

def close (x : Command) : Output → Command
  | .out => { x with outOpen := false }
  | .err => { x with errOpen := false }

end Output

/-- The code of a wait status: the exit status, or 128 and the signal. -/
def exitCode (status : Nat) : Int32 :=
  if status % 128 = 0 then Int32.ofNat (status / 256 % 256) else Int32.ofNat (128 + status % 128)

namespace Agent

def onCommand (f : Command → Command) (a : Agent) : Agent :=
  match a.phase with
  | .exec x => { a with phase := .exec (f x) }
  | _ => a

/-- `run_exec`. -/
def runExec (env : Env) (c : Calls) (argv : List String) (vars : List (String × String))
    (cwd : Option String) (a : Agent) : Agent :=
  match argv with
  | [] => a.send env (.error "empty argv")
  | prog :: _ =>
      if execNul argv vars cwd then
        a.send env (.error (prog ++ ": " ++ "nul byte found in provided data"))
      else match c.pipes <|> c.fork <|> c.execve with
        | some errno => a.send env (.error (prog ++ ": " ++ env.oserr errno))
        | none => a.enter (.exec .start)

/-- `pump_read`. -/
def pumpRead (env : Env) (o : Output) (r : Read) (a : Agent) : Agent :=
  match r with
  | .data bytes => a.send env (o.message bytes)
  | .eof => a.onCommand o.close
  | .failed errno => if errno = eintr then a else a.onCommand o.close

/-- The read of a pipe that the poll found ready; a closed one is not polled. -/
def pumpReady (env : Env) (o : Output) (ready : Bool) (r : Read) (a : Agent) : Agent :=
  match a.phase with
  | .exec x => if ready && o.isOpen x then a.pumpRead env o r else a
  | _ => a

/-- `pump_poll`. -/
def pumpPoll (env : Env) (p : Pump) (a : Agent) : Agent :=
  (a.pumpReady env .out p.outReady p.out).pumpReady env .err p.errReady p.err

/-- `ex_frame`. -/
def execFrame (env : Env) (m : Msg) (a : Agent) : Agent :=
  match m with
  | .stdin data => a.onCommand (Command.push data)
  | .stdinEof => a.onCommand fun x => { x with inEof := true }
  | .stat => a.statReply env
  | _ => a

/-- The loop of `ex_done`: until both pipes are closed or the grace is over. -/
def drain (env : Env) : List (Nat × Pump) → Agent → Agent
  | [], a => a
  | (ms, p) :: ps, a => if outputGraceMs ≤ ms then a else drain env ps (a.pumpPoll env p)

/-- `ex_done`. -/
def execDone (env : Env) (c : Calls) (status : Nat) (a : Agent) : Agent :=
  let a := a.onCommand fun x => { x with inOpen := false }
  let a := a.drain env c.drain
  (a.send env (.exit (exitCode status))).enter .idle

/-- The command's input not taken yet leaves the device to be read. -/
def wantsInput (a : Agent) : Bool :=
  match a.phase with
  | .exec x => x.queue.length < inputBacklog
  | _ => false

/-- The poll of `ex_loop`, and what it found ready. -/
def execPoll (env : Env) (c : Calls) (a : Agent) : Agent :=
  let reads := c.deviceReady && a.wantsInput
  let a := a.pumpPoll env c.pump
  let a := if reads then a.fill c.device else a
  match a.nextFrame with
  | (a, some m) => a.execFrame env m
  | (a, none) => a

/-- A turn of `ex_loop`. -/
def execTurn (env : Env) (c : Calls) (a : Agent) : Agent :=
  match c.waited with
  | .failed _ => a.die
  | .exited status => a.execDone env c status
  | .running =>
      match (a.onCommand (Command.flush c.writes)).nextFrame with
      | (a, some m) => (a.execFrame env m).pumpPoll env c.pump
      | (a, none) => a.execPoll env c

/-! ## a put -/

/-- `run_put`, up to its loop. -/
def runPut (env : Env) (c : Calls) (path : String) (a : Agent) : Agent :=
  if hasNul path then
    a.send env (.error (path ++ ": " ++ "file name contained an unexpected NUL byte"))
  else match c.opened <|> c.chmod with
    | some errno => a.send env (.error (path ++ ": " ++ env.oserr errno))
    | none => a.enter (.put path)

/-- A frame during a put. -/
def putFrame (env : Env) (c : Calls) (path : String) (m : Msg) (a : Agent) : Agent :=
  match m with
  | .putData _ => match c.write with
      | none => a
      | some e => (a.send env (.error (path ++ ": " ++ env.ioerr e))).enter .idle
  | .putClose => match c.fsync with
      | none => (a.send env (.exit 0)).enter .idle
      | some errno => (a.send env (.error (path ++ ": " ++ env.oserr errno))).enter .idle
  | .stat => a.statReply env
  | _ => a

/-- A turn of the loop of `run_put`. -/
def putTurn (env : Env) (c : Calls) (path : String) (a : Agent) : Agent :=
  match a.nextBlocking c.device with
  | (a, some m) => a.putFrame env c path m
  | (a, none) => a

/-! ## a get -/

/-- `run_get`, up to its loop. -/
def runGet (env : Env) (c : Calls) (path : String) (a : Agent) : Agent :=
  if hasNul path then
    a.send env (.error (path ++ ": " ++ "file name contained an unexpected NUL byte"))
  else match c.opened with
    | some errno => a.send env (.error (path ++ ": " ++ env.oserr errno))
    | none => a.enter (.get path 0)

/-- A frame during a get. -/
def getFrame (env : Env) (m : Msg) (a : Agent) : Agent :=
  match m with
  | .stat => a.statReply env
  | _ => a

/-- The next chunk of the file. -/
def getChunk (env : Env) (r : Read) (path : String) (size : UInt64) (a : Agent) : Agent :=
  match r with
  | .data bytes =>
      (a.send env (.getData bytes)).enter (.get path (size + UInt64.ofNat bytes.length))
  | .eof => (a.send env (.getEnd size)).enter .idle
  | .failed errno =>
      if errno = eintr then a
      else (a.send env (.error (path ++ ": " ++ env.oserr errno))).enter .idle

/-- A frame already here or arriving now. -/
def nextReady (ready : Bool) (r : Read) (a : Agent) : Agent × Option Msg :=
  match a.nextFrame with
  | (a, some m) => (a, some m)
  | (a, none) => if ready then (a.fill r).nextFrame else (a, none)

/-- A turn of the loop of `run_get`. -/
def getTurn (env : Env) (c : Calls) (path : String) (size : UInt64) (a : Agent) : Agent :=
  match a.nextReady c.deviceReady c.device with
  | (a, some m) => a.getFrame env m
  | (a, none) => a.getChunk env c.chunk path size

/-! ## the loop outside a session -/

/-- A frame outside a session. -/
def mainFrame (env : Env) (c : Calls) (m : Msg) (a : Agent) : Agent :=
  match m with
  | .exec argv vars cwd => a.runExec env c argv vars cwd
  | .putOpen path _ => a.runPut env c path
  | .get path => a.runGet env c path
  | .ping => a.send env (.pong version)
  | .stat => a.statReply env
  | .stdin _ | .stdinEof | .putData _ | .putClose => a
  | m => a.send env (.error ("unexpected " ++ name m.tag ++ " outside a session"))

/-- A turn of `main_loop`. -/
def mainTurn (env : Env) (c : Calls) (a : Agent) : Agent :=
  match a.nextBlocking c.device with
  | (a, some m) => a.mainFrame env c m
  | (a, none) => a

/-- One turn of the loop the agent is in. -/
def turn (env : Env) (a : Agent) (c : Calls) : Agent :=
  match a.phase with
  | .idle => a.mainTurn env c
  | .exec _ => a.execTurn env c
  | .put path => a.putTurn env c path
  | .get path size => a.getTurn env c path size
  | .dead => a

end Agent

end Phi.Card
