/-!
# Phi.Serve.Tag

The message tags of the rpc channel, and the byte each is on the wire.
-/

namespace Phi.Serve

inductive Tag where
  | exec | stdin | stdinEof | stdout | stderr | exit
  | putOpen | putData | putClose | get | getData | getEnd
  | error | ping | pong
  | sensors | sensorsReply | stat | statReply | traffic | trafficReply
deriving DecidableEq, Repr

/-- The tag's byte, `TAG_EXEC` to `TAG_TRAFFIC_REPLY`. -/
def Tag.toByte : Tag → UInt8
  | .exec => 1
  | .stdin => 2
  | .stdinEof => 3
  | .stdout => 4
  | .stderr => 5
  | .exit => 6
  | .putOpen => 7
  | .putData => 8
  | .putClose => 9
  | .get => 10
  | .getData => 11
  | .getEnd => 12
  | .error => 13
  | .ping => 14
  | .pong => 15
  | .sensors => 16
  | .sensorsReply => 17
  | .stat => 18
  | .statReply => 19
  | .traffic => 20
  | .trafficReply => 21

/-- The tag with this byte. -/
def Tag.ofByte (b : UInt8) : Option Tag :=
  match b.toNat with
  | 1 => some .exec
  | 2 => some .stdin
  | 3 => some .stdinEof
  | 4 => some .stdout
  | 5 => some .stderr
  | 6 => some .exit
  | 7 => some .putOpen
  | 8 => some .putData
  | 9 => some .putClose
  | 10 => some .get
  | 11 => some .getData
  | 12 => some .getEnd
  | 13 => some .error
  | 14 => some .ping
  | 15 => some .pong
  | 16 => some .sensors
  | 17 => some .sensorsReply
  | 18 => some .stat
  | 19 => some .statReply
  | 20 => some .traffic
  | 21 => some .trafficReply
  | _ => none

@[simp] theorem Tag.ofByte_toByte (t : Tag) : Tag.ofByte t.toByte = some t := by
  cases t <;> rfl

theorem Tag.toByte_of_ofByte {b : UInt8} {t : Tag} (h : Tag.ofByte b = some t) : t.toByte = b := by
  have hb : UInt8.ofNat b.toNat = b := UInt8.ofNat_toNat
  unfold Tag.ofByte at h
  split at h
  case h_22 => cases h
  all_goals
    next hn =>
      cases h
      rw [← hb, hn]
      rfl

end Phi.Serve
