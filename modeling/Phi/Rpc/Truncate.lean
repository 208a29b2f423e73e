import Phi.Rpc.Stream

/-!
# Phi.Rpc.Truncate

Bodies cut short.

A reader that succeeds would succeed with more input and leave the more; so
the readers of every message but the raw ones fail on a strict prefix of what
they read, and a frame made of one is malformed.
-/

namespace Phi.Rpc

open Phi.Serve Reader

/-! ## the readers -/

theorem extends_map {α β : Type} {r : Reader α} (hr : Extends r) (f : α → β) :
    Extends (do let a ← r; pure (f a)) := hr.bind fun a => extends_pure (f a)

theorem extends_u8 : Extends Read.u8 := extends_map (extends_take 1) _

theorem extends_u16 : Extends Read.u16 := extends_map (extends_take 2) _

theorem extends_u32 : Extends Read.u32 := extends_map (extends_take 4) _

theorem extends_u64 : Extends Read.u64 := extends_map (extends_take 8) _

theorem extends_i16 : Extends Read.i16 := extends_map extends_u16 _

theorem extends_str : Extends Read.str :=
  extends_u16.bind fun n => (extends_take n.toNat).bind fun _ => extends_check _

theorem extends_list {α : Type} {item : Reader α} (h : Extends item) : Extends (Read.list item) :=
  extends_u16.bind fun n => h.many n.toNat

theorem extends_dev : Extends Read.dev :=
  extends_str.bind fun _ => extends_u64.bind fun _ => extends_map extends_u64 _

theorem extends_devs : Extends Read.devs := extends_list extends_dev

theorem extends_cpu : Extends Read.cpu :=
  extends_u16.bind fun _ => extends_u32.bind fun _ => extends_map extends_u32 _

theorem extends_mem : Extends Read.mem :=
  extends_u64.bind fun _ => extends_u64.bind fun _ => extends_u64.bind fun _ =>
    extends_u64.bind fun _ => extends_u64.bind fun _ => extends_map extends_u64 _

theorem extends_load : Extends Read.load :=
  extends_u16.bind fun _ => extends_u16.bind fun _ => extends_map extends_u16 _

theorem extends_proc : Extends Read.proc :=
  extends_u32.bind fun _ => extends_u8.bind fun _ => extends_u8.bind fun _ =>
    extends_u64.bind fun _ => extends_u64.bind fun _ => extends_u32.bind fun _ =>
      extends_map extends_str _

theorem extends_stat : Extends Read.stat :=
  extends_u64.bind fun _ => (extends_list extends_cpu).bind fun _ => extends_mem.bind fun _ =>
    extends_load.bind fun _ => extends_u32.bind fun _ => extends_u32.bind fun _ =>
      (extends_list extends_i16).bind fun _ => extends_i16.bind fun _ => extends_u32.bind fun _ =>
        extends_u32.bind fun _ => extends_devs.bind fun _ => extends_devs.bind fun _ =>
          (extends_list extends_proc).bind fun _ => extends_u32.bind fun _ =>
            extends_map extends_u32 _

theorem extends_pair : Extends Read.pair := extends_str.bind fun _ => extends_map extends_str _

theorem extends_exec : Extends Read.exec :=
  (extends_list extends_str).bind fun _ => (extends_list extends_pair).bind fun _ =>
    extends_map extends_str _

theorem extends_putOpen : Extends Read.putOpen :=
  extends_str.bind fun _ => extends_map extends_u32 _

theorem extends_traffic : Extends Read.traffic :=
  extends_u64.bind fun _ => extends_u64.bind fun _ => extends_u64.bind fun _ =>
    extends_u64.bind fun _ => extends_u64.bind fun _ => extends_map extends_u64 _

/-! ## messages -/

/-- The messages whose body is raw bytes. -/
def Msg.IsRaw : Msg → Prop
  | .stdin _ | .stdout _ | .stderr _ | .putData _ | .getData _ => True
  | _ => False

/-- The readers of the others. -/
theorem extends_fields {m : Msg} (hm : ¬ m.IsRaw) : Extends (Read.fields m.tag) := by
  cases m with
  | exec argv env cwd => exact extends_exec
  | exit code => exact extends_map extends_u32 _
  | putOpen path mode => exact extends_putOpen
  | get path => exact extends_map extends_str _
  | getEnd size => exact extends_map extends_u64 _
  | error text => exact extends_map extends_str _
  | pong version => exact extends_map extends_str _
  | sensorsReply text => exact extends_map extends_str _
  | statReply s => exact extends_map extends_stat _
  | trafficReply t => exact extends_map extends_traffic _
  | stdin data | stdout data | stderr data | putData data | getData data =>
      exact absurd trivial hm
  | stdinEof | putClose | ping | sensors | stat | traffic => exact extends_pure _

theorem decodeBody_cut {m : Msg} (hm : ¬ m.IsRaw) {p more : List UInt8}
    (hp : m.fields = p ++ more) (hmore : more ≠ []) :
    decodeBody m.tag.toByte p = .error .malformed := by
  unfold decodeBody
  rw [Tag.ofByte_toByte]
  dsimp only
  rw [(extends_fields hm).cut (fields_read m) hp hmore]

/-- A frame with this tag and these fields, and a length to match. -/
def reframe (tag : UInt8) (p : List UInt8) : List UInt8 :=
  putU32 (UInt32.ofNat (1 + p.length)) ++ tag :: p

/-- A frame within the limit is decoded by its own bytes. -/
theorem decoderNext_reframe {tag : UInt8} {p : List UInt8} (hfit : 1 + p.length ≤ maxFrame)
    (rest : List UInt8) :
    decoderNext (reframe tag p ++ rest) = some (decodeBody tag p, rest) := by
  have hput : (putU32 (UInt32.ofNat (1 + p.length))).length = 4 := length_leBytes _ _
  have hsmall : 1 + p.length < 2 ^ 32 := by
    unfold maxFrame at hfit
    omega
  have hlen : ofLe ((reframe tag p ++ rest).take 4) = 1 + p.length := by
    rw [reframe, List.append_assoc, List.take_left' hput, putU32,
      UInt32.toNat_ofNat_of_lt' hsmall, ofLe_leBytes hsmall]
  have htotal : (reframe tag p).length = 4 + (1 + p.length) := by
    rw [reframe, List.length_append, hput, List.length_cons, Nat.add_comm p.length]
  have htag : (reframe tag p ++ rest).getD 4 0 = tag := by
    rw [reframe, List.append_assoc, List.getD_eq_getElem?_getD,
      List.getElem?_append_right (by omega), hput]
    rfl
  have hbody : ((reframe tag p ++ rest).take (4 + (1 + p.length))).drop 5 = p := by
    rw [← htotal, List.take_left, reframe, List.drop_append, List.drop_eq_nil_of_le (by omega),
      hput]
    rfl
  have hwhole : ¬ (reframe tag p ++ rest).length < 4 + (1 + p.length) := by
    rw [List.length_append, htotal]
    omega
  have h4 : 4 ≤ (reframe tag p ++ rest).length := by
    rw [List.length_append, htotal]
    omega
  rw [decoderNext_eq hlen h4 (by omega) hfit, if_neg hwhole, htag, hbody, ← htotal, List.drop_left]

/-- **A body cut short is malformed**: every strict prefix of the fields, by
itself and as a frame with the shorter length, whatever follows. -/
theorem truncated_malformed (m : Msg) (hm : ¬ m.IsRaw) (p more : List UInt8)
    (hp : m.fields = p ++ more) (hmore : more ≠ []) :
    decodeBody m.tag.toByte p = .error .malformed ∧
      (1 + p.length ≤ maxFrame → ∀ rest,
        decoderNext (reframe m.tag.toByte p ++ rest) = some (.error .malformed, rest)) := by
  have hcut := decodeBody_cut hm hp hmore
  refine ⟨hcut, fun hfit rest => ?_⟩
  rw [decoderNext_reframe hfit, hcut]

/-- An exit status without its last byte. -/
theorem truncated_malformed_exit :
    decodeBody 6 [3, 0, 0] = .error .malformed ∧
      (1 + 3 ≤ maxFrame → ∀ rest,
        decoderNext (reframe 6 [3, 0, 0] ++ rest) = some (.error .malformed, rest)) :=
  truncated_malformed (.exit 3) id [3, 0, 0] [0] rfl (by decide)

end Phi.Rpc
