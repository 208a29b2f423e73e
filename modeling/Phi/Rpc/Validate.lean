import Phi.Rpc.Msg

/-!
# Phi.Rpc.Validate

The body checks of the two assembly decoders.

The host daemon (`host/asm/phictl/wire.S`) and the card's agent
(`card/agent/wire.S`, `text.S`) walk a body with the same routines: a cursor,
a check that so many bytes are left, and a table of walks by tag.  They build
no message.  Each walk is the forgetful form of what `phi-rpc` reads, so they
accept the same bodies.
-/

namespace Phi.Rpc

open Phi.Serve Utf8 Reader

/-! ## UTF-8 -/

/-- What a first byte asks for: how many bytes follow, and between what the
next of them lies. -/
def utf8Lead (a : Nat) : Option (Nat × Nat × Nat) :=
  if a < 0xc2 then none
  else if a ≤ 0xdf then some (1, 0x80, 0xbf)
  else if a ≤ 0xef then
    some (2, if a = 0xe0 then 0xa0 else 0x80, if a = 0xed then 0x9f else 0xbf)
  else if a ≤ 0xf4 then
    some (3, if a = 0xf0 then 0x90 else 0x80, if a = 0xf4 then 0x8f else 0xbf)
  else none

/-- One turn of the loop of `utf8_ok`: the bytes after the character. -/
def utf8Next (a : UInt8) (bs : List UInt8) : Option (List UInt8) :=
  if a.toNat < 0x80 then some bs
  else match utf8Lead a.toNat with
    | none => none
    | some (more, lo, hi) =>
        if bs.length < more then none
        else if (bs.getD 0 0).toNat < lo ∨ hi < (bs.getD 0 0).toNat then none
        else if ((bs.take more).drop 1).all isTail then some (bs.drop more)
        else none

/-- The loop of `utf8_ok`; every turn moves past a byte at least. -/
def utf8Loop : Nat → List UInt8 → Bool
  | _, [] => true
  | 0, _ :: _ => false
  | n + 1, a :: bs => match utf8Next a bs with
      | none => false
      | some rest => utf8Loop n rest

/-- `utf8_ok`. -/
def utf8Ok (bs : List UInt8) : Bool := utf8Loop bs.length bs

/-! ## the walks -/

/-- `v_need`. -/
def vNeed (n : Nat) : Reader Unit := skip n

/-- `v_u16`. -/
def vU16 : Reader Nat := do
  let b ← take 2
  pure (ofLe b)

/-- `v_str`. -/
def vStr : Reader Unit := do
  let n ← vU16
  let b ← take n
  check (if utf8Ok b then some () else none)

/-- `v_devs`. -/
def vDevs : Reader Unit := do
  let n ← vU16
  times (do vStr; vNeed 16) n

def vOk : Reader Unit := pure ()
def vExit : Reader Unit := vNeed 4
def vGetEnd : Reader Unit := vNeed 8
def vTrafficReply : Reader Unit := vNeed 48
def vStrOnly : Reader Unit := vStr

def vPutOpen : Reader Unit := do
  vStr
  vNeed 4

def vExec : Reader Unit := do
  let n ← vU16
  times vStr n
  let n ← vU16
  times (do vStr; vStr) n
  vStr

def vStatReply : Reader Unit := do
  vNeed 8
  let n ← vU16
  vNeed (n * 10)
  vNeed (48 + 6 + 8)
  let n ← vU16
  vNeed (n + n)
  vNeed (2 + 4 + 4)
  vDevs
  vDevs
  let n ← vU16
  times (do vNeed 26; vStr) n
  vNeed 8

/-- `v_table`, none where it holds `v_tag`. -/
def vTable : List (Option (Reader Unit)) :=
  [none, some vExec, some vOk, some vOk, some vOk, some vOk, some vExit,
    some vPutOpen, some vOk, some vOk, some vStrOnly, some vOk, some vGetEnd,
    some vStrOnly, some vOk, some vStrOnly, some vOk, some vStrOnly, some vOk,
    some vStatReply, some vOk, some vTrafficReply]

def tagLast : Nat := 21

/-- `validate`: 0 for a body that decodes, 1 for an unknown tag, 2 for a
malformed body. -/
def validate (tag : UInt8) (body : List UInt8) : Nat :=
  if tagLast < tag.toNat then 1
  else match vTable.getD tag.toNat none with
    | none => 1
    | some v => if (v body).isSome then 0 else 2

/-! ## the UTF-8 check is the one of the strings -/

/-- The bytes after a first byte that is no character of its own. -/
theorem encoded_cons_iff {a : UInt8} {tl : List UInt8} (ha : ¬ a.toNat < 0x80) :
    Encoded (a :: tl) ↔ ∃ more lo hi, utf8Lead a.toNat = some (more, lo, hi) ∧ tl.length = more ∧
      ¬ ((tl.getD 0 0).toNat < lo ∨ hi < (tl.getD 0 0).toNat) ∧
      (tl.drop 1).all isTail = true := by
  constructor
  · intro h
    cases h with
    | one ha' => exact absurd ha' ha
    | two ha ha' hb =>
        rw [isTail_iff] at hb
        refine ⟨1, 0x80, 0xbf, ?_, rfl, ?_, rfl⟩
        · unfold utf8Lead
          rw [if_neg (by omega), if_pos (by omega)]
        · simp only [List.getD_cons_zero]
          omega
    | three ha ha' hb hlo hhi hc =>
        rw [isTail_iff] at hb
        refine ⟨2, if a.toNat = 0xe0 then 0xa0 else 0x80, if a.toNat = 0xed then 0x9f else 0xbf,
          ?_, rfl, ?_, by simpa using hc⟩
        · unfold utf8Lead
          rw [if_neg (by omega), if_neg (by omega), if_pos (by omega)]
        · simp only [List.getD_cons_zero]
          split <;> split <;> omega
    | four ha ha' hb hlo hhi hc hd =>
        rw [isTail_iff] at hb
        refine ⟨3, if a.toNat = 0xf0 then 0x90 else 0x80, if a.toNat = 0xf4 then 0x8f else 0xbf,
          ?_, rfl, ?_, by simpa using ⟨hc, hd⟩⟩
        · unfold utf8Lead
          rw [if_neg (by omega), if_neg (by omega), if_neg (by omega), if_pos (by omega)]
        · simp only [List.getD_cons_zero]
          split <;> split <;> omega
  · rintro ⟨more, lo, hi, hlead, hlen, hnext, htails⟩
    unfold utf8Lead at hlead
    split at hlead
    · cases hlead
    · split at hlead
      · cases hlead
        obtain ⟨b, rfl⟩ := List.length_eq_one_iff.mp hlen
        simp only [List.getD_cons_zero] at hnext
        exact .two (by omega) (by omega) (isTail_iff.mpr (by omega))
      · split at hlead
        · cases hlead
          obtain ⟨b, c, rfl⟩ := List.length_eq_two.mp hlen
          simp only [List.getD_cons_zero] at hnext
          have hc : isTail c = true := by simpa using htails
          split at hnext
          · split at hnext
            · omega
            · exact .three (by omega) (by omega) (isTail_iff.mpr (by omega)) (by omega) (by omega)
                hc
          · split at hnext
            · exact .three (by omega) (by omega) (isTail_iff.mpr (by omega)) (by omega) (by omega)
                hc
            · exact .three (by omega) (by omega) (isTail_iff.mpr (by omega)) (by omega) (by omega)
                hc
        · split at hlead
          · cases hlead
            obtain ⟨b, c, d, rfl⟩ := List.length_eq_three.mp hlen
            simp only [List.getD_cons_zero] at hnext
            obtain ⟨hc, hd⟩ : isTail c = true ∧ isTail d = true := by simpa using htails
            split at hnext
            · split at hnext
              · omega
              · exact .four (by omega) (by omega) (isTail_iff.mpr (by omega)) (by omega) (by omega)
                  hc hd
            · split at hnext
              · exact .four (by omega) (by omega) (isTail_iff.mpr (by omega)) (by omega) (by omega)
                  hc hd
              · exact .four (by omega) (by omega) (isTail_iff.mpr (by omega)) (by omega) (by omega)
                  hc hd
          · cases hlead

/-- A first byte asks for one more at least. -/
theorem utf8Lead_pos {a more lo hi : Nat} (h : utf8Lead a = some (more, lo, hi)) : 0 < more := by
  unfold utf8Lead at h
  grind

/-- A turn takes one character. -/
theorem utf8Next_eq_some_iff {a : UInt8} {bs rest : List UInt8} :
    utf8Next a bs = some rest ↔ ∃ tl, bs = tl ++ rest ∧ Encoded (a :: tl) := by
  unfold utf8Next
  by_cases ha : a.toNat < 0x80
  · rw [if_pos ha]
    constructor
    · intro h
      cases h
      exact ⟨[], rfl, .one ha⟩
    · rintro ⟨tl, rfl, henc⟩
      cases henc with
      | one _ => rfl
      | two ha' _ _ => omega
      | three ha' _ _ _ _ _ => omega
      | four ha' _ _ _ _ _ _ => omega
  · rw [if_neg ha]
    constructor
    · intro h
      split at h
      · cases h
      · next more lo hi hlead =>
          split at h
          · cases h
          · next hlen =>
              split at h
              · cases h
              · next hnext =>
                  split at h
                  · next htails =>
                      cases h
                      refine ⟨bs.take more, (List.take_append_drop _ _).symm, ?_⟩
                      rw [encoded_cons_iff ha, List.length_take_of_le (by omega)]
                      refine ⟨more, lo, hi, hlead, rfl, ?_, htails⟩
                      rwa [List.getD_eq_getElem?_getD,
                        List.getElem?_take_of_lt (utf8Lead_pos hlead),
                        ← List.getD_eq_getElem?_getD]
                  · cases h
    · rintro ⟨tl, rfl, henc⟩
      obtain ⟨more, lo, hi, hlead, rfl, hnext, htails⟩ := (encoded_cons_iff ha).mp henc
      have hpos := utf8Lead_pos hlead
      have hfirst : (tl ++ rest).getD 0 0 = tl.getD 0 0 := by
        rw [List.getD_eq_getElem?_getD, List.getElem?_append_left hpos,
          ← List.getD_eq_getElem?_getD]
      rw [hlead]
      dsimp only
      rw [if_neg (by simp), hfirst, if_neg hnext, List.take_left, if_pos htails, List.drop_left]

/-- The loop accepts the encodings of texts. -/
theorem utf8Loop_iff {n : Nat} {bs : List UInt8} (h : bs.length ≤ n) :
    utf8Loop n bs = true ↔ ∃ cs, bs = encode cs := by
  induction n generalizing bs with
  | zero =>
      rw [List.length_eq_zero_iff.mp (Nat.le_zero.mp h)]
      exact iff_of_true rfl ⟨[], rfl⟩
  | succ n ih =>
      cases bs with
      | nil => exact iff_of_true rfl ⟨[], rfl⟩
      | cons a bs =>
          rw [List.length_cons] at h
          rw [exists_encode_cons_iff, utf8Loop]
          cases hnext : utf8Next a bs with
          | none =>
              refine iff_of_false (by simp) ?_
              rintro ⟨tl, rest, hsplit, henc, -⟩
              rw [utf8Next_eq_some_iff.mpr ⟨tl, hsplit, henc⟩] at hnext
              cases hnext
          | some rest =>
              obtain ⟨tl, hsplit, henc⟩ := utf8Next_eq_some_iff.mp hnext
              have hlen := congrArg List.length hsplit
              rw [List.length_append] at hlen
              dsimp only
              rw [ih (by omega)]
              constructor
              · intro hrest
                exact ⟨tl, rest, hsplit, henc, hrest⟩
              · rintro ⟨tl', rest', hsplit', henc', hrest'⟩
                rw [utf8Next_eq_some_iff.mpr ⟨tl', hsplit', henc'⟩] at hnext
                cases hnext
                exact hrest'

theorem utf8Ok_eq (bs : List UInt8) : utf8Ok bs = (decode bs).isSome := by
  rw [Bool.eq_iff_iff, isSome_decode_iff]
  exact utf8Loop_iff (Nat.le_refl _)

/-! ## each walk forgets what the reader reads -/

theorem u16_bind {β : Type} (f : Nat → Reader β) :
    (Read.u16 >>= fun n => f n.toNat) = vU16 >>= f := by
  unfold Read.u16 vU16
  rw [bind_assoc, bind_assoc]
  refine take_bind_congr fun b hb => ?_
  have hlt := ofLe_lt b
  rw [hb] at hlt
  rw [pure_bind, pure_bind, UInt16.toNat_ofNat_of_lt' (by unfold UInt16.size; omega)]

theorem forget_str : forget Read.str = vStr := by
  have h := u16_bind fun n => (do
    let b ← take n
    check (if utf8Ok b then some () else none) : Reader Unit)
  unfold Read.str vStr
  rw [← h, forget_bind]
  congr 1
  funext n
  rw [forget_bind]
  congr 1
  funext b
  rw [forget_check, utf8Ok_eq]
  cases decode b with
  | none => rfl
  | some s => rfl

theorem forget_list {α : Type} (r : Reader α) :
    forget (Read.list r) = vU16 >>= fun n => times (forget r) n := by
  rw [← u16_bind]
  unfold Read.list
  rw [forget_bind]
  simp only [forget_many]

@[simp] theorem forget_u8 : forget Read.u8 = skip 1 := by
  simp [Read.u8, ← forget_take, forget]

@[simp] theorem forget_u16 : forget Read.u16 = skip 2 := by
  simp [Read.u16, ← forget_take, forget]

@[simp] theorem forget_u32 : forget Read.u32 = skip 4 := by
  simp [Read.u32, ← forget_take, forget]

@[simp] theorem forget_u64 : forget Read.u64 = skip 8 := by
  simp [Read.u64, ← forget_take, forget]

@[simp] theorem forget_i16 : forget Read.i16 = skip 2 := by
  rw [← forget_u16]
  simp [Read.i16, forget]

/-- The last field of a record. -/
theorem forget_last {α β : Type} (r : Reader α) (f : α → β) :
    forget (r >>= fun a => pure (f a)) = forget r := by
  rw [forget_field fun a => forget_pure (f a)]
  exact bind_pure (forget r)

theorem forget_cpu : forget Read.cpu = skip 10 := by
  have h : forget Read.cpu = (do skip 2; skip 4; skip 4) := by
    simp only [← forget_u16, ← forget_u32]
    exact forget_field fun _ => forget_field fun _ => forget_last _ _
  rw [h]
  simp only [skip_bind_skip]

theorem forget_mem : forget Read.mem = skip 48 := by
  have h : forget Read.mem = (do skip 8; skip 8; skip 8; skip 8; skip 8; skip 8) := by
    simp only [← forget_u64]
    exact forget_field fun _ => forget_field fun _ => forget_field fun _ => forget_field fun _ =>
      forget_field fun _ => forget_last _ _
  rw [h]
  simp only [skip_bind_skip]

theorem forget_traffic : forget Read.traffic = skip 48 := by
  have h : forget Read.traffic = (do skip 8; skip 8; skip 8; skip 8; skip 8; skip 8) := by
    simp only [← forget_u64]
    exact forget_field fun _ => forget_field fun _ => forget_field fun _ => forget_field fun _ =>
      forget_field fun _ => forget_last _ _
  rw [h]
  simp only [skip_bind_skip]

theorem forget_load : forget Read.load = skip 6 := by
  have h : forget Read.load = (do skip 2; skip 2; skip 2) := by
    simp only [← forget_u16]
    exact forget_field fun _ => forget_field fun _ => forget_last _ _
  rw [h]
  simp only [skip_bind_skip]

theorem forget_dev : forget Read.dev = (do vStr; vNeed 16) := by
  have h : forget Read.dev = (do vStr; skip 8; skip 8) := by
    simp only [← forget_u64, ← forget_str]
    exact forget_field fun _ => forget_field fun _ => forget_last _ _
  rw [h]
  simp only [skip_bind_skip, vNeed]

theorem forget_devs : forget Read.devs = vDevs := by
  unfold Read.devs vDevs
  rw [forget_list, forget_dev]

theorem forget_proc : forget Read.proc = (do vNeed 26; vStr) := by
  have h : forget Read.proc = (do skip 4; skip 1; skip 1; skip 8; skip 8; skip 4; vStr) := by
    simp only [← forget_u64, ← forget_u32, ← forget_u8, ← forget_str]
    exact forget_field fun _ => forget_field fun _ => forget_field fun _ => forget_field fun _ =>
      forget_field fun _ => forget_field fun _ => forget_last _ _
  rw [h]
  simp only [skip_bind_skip_bind, vNeed]

theorem forget_pair : forget Read.pair = (do vStr; vStr) := by
  simp only [← forget_str]
  exact forget_field fun _ => forget_last _ _

/-- A list of items of one size. -/
theorem forget_list_skip {α : Type} {r : Reader α} {k : Nat} (h : forget r = skip k) :
    forget (Read.list r) = vU16 >>= fun n => skip (n * k) := by
  rw [forget_list, h]
  simp only [times_skip]

theorem forget_stat : forget Read.stat = vStatReply := by
  have hcpus := forget_list_skip forget_cpu
  have htemps := forget_list_skip forget_i16
  have hprocs := forget_list Read.proc
  rw [forget_proc] at hprocs
  have h : forget Read.stat = (do
      skip 8
      forget (Read.list Read.cpu)
      skip 48
      skip 6
      skip 4
      skip 4
      forget (Read.list Read.i16)
      skip 2
      skip 4
      skip 4
      vDevs
      vDevs
      forget (Read.list Read.proc)
      skip 4
      skip 4) := by
    simp only [← forget_u64, ← forget_u32, ← forget_i16, ← forget_mem, ← forget_load,
      ← forget_devs]
    exact forget_field fun _ => forget_field fun _ => forget_field fun _ => forget_field fun _ =>
      forget_field fun _ => forget_field fun _ => forget_field fun _ => forget_field fun _ =>
      forget_field fun _ => forget_field fun _ => forget_field fun _ => forget_field fun _ =>
      forget_field fun _ => forget_field fun _ => forget_last _ _
  rw [h, hcpus, htemps, hprocs]
  unfold vStatReply vNeed
  simp only [bind_assoc, skip_bind_skip_bind, skip_bind_skip, Nat.mul_two]

theorem forget_exec : forget Read.exec = vExec := by
  have h : forget Read.exec =
      (do forget (Read.list Read.str); forget (Read.list Read.pair); vStr) := by
    rw [← forget_str]
    exact forget_field fun _ => forget_field fun _ => forget_last _ _
  rw [h, forget_list, forget_list, forget_str, forget_pair]
  unfold vExec
  simp only [bind_assoc]

theorem forget_putOpen : forget Read.putOpen = vPutOpen := by
  unfold vPutOpen vNeed
  rw [← forget_str, ← forget_u32]
  exact forget_field fun _ => forget_last _ _

/-- The table's walk of each tag passes the bodies that are read. -/
theorem vTable_getD (t : Tag) : ∃ v, vTable.getD t.toByte.toNat none = some v ∧
    ∀ body, (v body).isSome = (Read.fields t body).isSome := by
  have hforget : ∀ {v : Reader Unit} {r : Reader Msg}, forget r = v →
      ∀ body, (v body).isSome = (r body).isSome := by
    rintro v r rfl body
    exact isSome_forget r body
  have hstr : ∀ f : String → Msg, forget (Read.str >>= fun s => pure (f s)) = vStr := fun f => by
    rw [forget_last, forget_str]
  cases t with
  | exec => exact ⟨vExec, rfl, hforget forget_exec⟩
  | exit => exact ⟨vExit, rfl, hforget ((forget_last _ _).trans forget_u32)⟩
  | putOpen => exact ⟨vPutOpen, rfl, hforget forget_putOpen⟩
  | get => exact ⟨vStrOnly, rfl, hforget (hstr _)⟩
  | getEnd => exact ⟨vGetEnd, rfl, hforget ((forget_last _ _).trans forget_u64)⟩
  | error => exact ⟨vStrOnly, rfl, hforget (hstr _)⟩
  | pong => exact ⟨vStrOnly, rfl, hforget (hstr _)⟩
  | sensorsReply => exact ⟨vStrOnly, rfl, hforget (hstr _)⟩
  | statReply => exact ⟨vStatReply, rfl, hforget ((forget_last _ _).trans forget_stat)⟩
  | trafficReply => exact ⟨vTrafficReply, rfl, hforget ((forget_last _ _).trans forget_traffic)⟩
  | stdin => exact ⟨vOk, rfl, fun _ => rfl⟩
  | stdinEof => exact ⟨vOk, rfl, fun _ => rfl⟩
  | stdout => exact ⟨vOk, rfl, fun _ => rfl⟩
  | stderr => exact ⟨vOk, rfl, fun _ => rfl⟩
  | putData => exact ⟨vOk, rfl, fun _ => rfl⟩
  | putClose => exact ⟨vOk, rfl, fun _ => rfl⟩
  | getData => exact ⟨vOk, rfl, fun _ => rfl⟩
  | ping => exact ⟨vOk, rfl, fun _ => rfl⟩
  | sensors => exact ⟨vOk, rfl, fun _ => rfl⟩
  | stat => exact ⟨vOk, rfl, fun _ => rfl⟩
  | traffic => exact ⟨vOk, rfl, fun _ => rfl⟩

/-- A byte that is no tag finds no walk. -/
theorem vTable_of_not_tag {b : UInt8} (h : Tag.ofByte b = none) :
    tagLast < b.toNat ∨ vTable.getD b.toNat none = none := by
  by_cases hb : tagLast < b.toNat
  · exact .inl hb
  · right
    have hzero : b.toNat = 0 := by
      unfold Tag.ofByte at h
      unfold tagLast at hb
      split at h
      case h_22 =>
        grind
      all_goals cases h
    rw [hzero]
    rfl

/-- **The assembly decoders accept the bodies `phi-rpc` decodes**, and tell an
unknown tag from a malformed body as it does. -/
theorem decodeBody_of_validate (tag : UInt8) (body : List UInt8) :
    (validate tag body = 0 ∧ ∃ m, decodeBody tag body = .ok m) ∨
      (validate tag body = 1 ∧ decodeBody tag body = .error (.tag tag)) ∨
      (validate tag body = 2 ∧ decodeBody tag body = .error .malformed) := by
  unfold validate decodeBody
  cases htag : Tag.ofByte tag with
  | none =>
      refine .inr (.inl ⟨?_, rfl⟩)
      obtain hlast | hnone := vTable_of_not_tag htag
      · rw [if_pos hlast]
      · rw [hnone]
        simp
  | some t =>
      obtain ⟨v, hv, hbody⟩ := vTable_getD t
      have hlast : ¬ tagLast < t.toByte.toNat := by
        cases t <;> decide
      rw [← Tag.toByte_of_ofByte htag, if_neg hlast, hv]
      dsimp only
      rw [hbody]
      cases Read.fields t body with
      | none => exact .inr (.inr ⟨rfl, rfl⟩)
      | some x => exact .inl ⟨rfl, x.1, rfl⟩

/-- A body that passes is read. -/
theorem fields_of_validate {t : Tag} {body : List UInt8}
    (h : validate t.toByte body = 0) : ∃ x, Read.fields t body = some x := by
  obtain ⟨-, msg, hmsg⟩ | ⟨hone, -⟩ | ⟨htwo, -⟩ := decodeBody_of_validate t.toByte body
  · unfold decodeBody at hmsg
    rw [Tag.ofByte_toByte] at hmsg
    dsimp only at hmsg
    cases hread : Read.fields t body with
    | none => rw [hread] at hmsg; exact nomatch hmsg
    | some x => exact ⟨x, rfl⟩
  · rw [h] at hone
    exact absurd hone (by decide)
  · rw [h] at htwo
    exact absurd htwo (by decide)

theorem tag_of_validate {tag : UInt8} {body : List UInt8} (h : validate tag body = 0) :
    ∃ t, Tag.ofByte tag = some t := by
  obtain ⟨-, msg, hmsg⟩ | ⟨hone, -⟩ | ⟨htwo, -⟩ := decodeBody_of_validate tag body
  · unfold decodeBody at hmsg
    cases htag : Tag.ofByte tag with
    | none => rw [htag] at hmsg; exact nomatch hmsg
    | some t => exact ⟨t, rfl⟩
  · rw [h] at hone
    exact absurd hone (by decide)
  · rw [h] at htwo
    exact absurd htwo (by decide)

end Phi.Rpc
