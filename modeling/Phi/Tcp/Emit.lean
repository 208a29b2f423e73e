import Phi.Lib.Checksum
import Phi.Tcp.Frame

/-!
# Phi.Tcp.Emit

`tcp_send_segment` byte by byte: the Ethernet, IP and TCP headers written into
`seg`, the payload behind them, and the two checksums.

The machine adds the words as it loads them, low byte first, into a 32-bit
register, folds twice and stores the complement.  No addition of it carries
out of the register, so what the register holds is the sum, and the two
headers verify at a receiver that reads the words high byte first.
-/

namespace Phi.Tcp

open Circular

/-! ## stores -/

def st8 (off : Nat) (v : UInt8) (m : Nat → UInt8) : Nat → UInt8 := write m off [v]

def st16 (off : Nat) (v : BitVec 16) (m : Nat → UInt8) : Nat → UInt8 :=
  write m off (leBytes 2 v.toNat)

def st32 (off : Nat) (v : W32) (m : Nat → UInt8) : Nat → UInt8 :=
  write m off (leBytes 4 v.toNat)

/-- `BSWAP16`. -/
def bswap16 (v : BitVec 16) : BitVec 16 := v.rotateLeft 8

/-- `bswapl`. -/
def bswap32 (v : W32) : W32 :=
  v <<< 24 ||| (v &&& 0xff00#32) <<< 8 ||| (v >>> 8) &&& 0xff00#32 ||| v >>> 24

/-! ## the checksum -/

/-- What the loop adds: the words from `off` on, and an odd last byte. -/
def addends (m : Nat → UInt8) (off : Nat) : Nat → List W32
  | 0 => []
  | 1 => [BitVec.ofNat 32 (m off).toNat]
  | len + 2 =>
      BitVec.ofNat 32 ((m off).toNat + 256 * (m (off + 1)).toNat) :: addends m (off + 2) len

/-- The register after all that was added. -/
def accumulate (a : W32) (ws : List W32) : W32 := ws.foldl (· + ·) a

/-- The two folds. -/
def folded (a : W32) : W32 :=
  let b := (a &&& 0xffff#32) + a >>> 16
  (b + b >>> 16) &&& 0xffff#32

/-- `checksum`: the sum folded, not yet inverted. -/
def checksum (m : Nat → UInt8) (off len : Nat) (init : W32) : W32 :=
  folded (accumulate init (addends m off len))

/-- No addition carries out of the register. -/
def CarryFree (a : W32) : List W32 → Prop
  | [] => True
  | w :: ws => a.toNat + w.toNat < 2 ^ 32 ∧ CarryFree (a + w) ws

/-- Nor do those of the two folds. -/
def FoldFree (a : W32) : Prop :=
  let b := (a &&& 0xffff#32) + a >>> 16
  (a &&& 0xffff#32).toNat + (a >>> 16).toNat < 2 ^ 32 ∧ b.toNat + (b >>> 16).toNat < 2 ^ 32

/-! ## the headers -/

def ethIp : BitVec 16 := 0x0800#16
def ipprotoTcp : UInt8 := 6

/-- What the forwarder keeps for its side of the wire.  The addresses are in
network order, as they lie in memory. -/
structure Sender where
  haveCardMac : Bool
  cardMac : W64
  hostMac : BitVec 48
  hostIp : W32
  cardIp : W32
  ipId : W64
  seg : Nat → UInt8

namespace Sender

/-- `eth_header`: broadcast before the card's MAC is known. -/
def ethHeader (s : Sender) (type : BitVec 16) (m : Nat → UInt8) : Nat → UInt8 :=
  (if s.haveCardMac then
      m |> st32 0 (s.cardMac.setWidth 32) |> st16 4 ((s.cardMac >>> 32).setWidth 16)
    else m |> st32 0 0xffffffff#32 |> st16 4 0xffff#16)
  |> st32 6 (s.hostMac.setWidth 32)
  |> st16 10 ((s.hostMac >>> 32).setWidth 16)
  |> st16 12 (bswap16 type)

/-- The IP header at 14, its length and checksum still zero. -/
def ipHeader (s : Sender) (m : Nat → UInt8) : Nat → UInt8 :=
  m |> st8 14 0x45 |> st8 15 0
    |> st16 16 0#16
    |> st16 18 (bswap16 (s.ipId.setWidth 16))
    |> st16 20 0x0040#16
    |> st8 22 64 |> st8 23 ipprotoTcp
    |> st16 24 0#16
    |> st32 26 s.hostIp
    |> st32 30 s.cardIp

end Sender

/-- The TCP header at 34, its checksum still zero. -/
def tcpHeader (flags : BitVec 8) (seq : W32) (c : Conn) (m : Nat → UInt8) : Nat → UInt8 :=
  m |> st16 34 (bswap16 (BitVec.ofNat 16 c.lport))
    |> st16 36 (bswap16 (BitVec.ofNat 16 c.rport))
    |> st32 38 (bswap32 seq)
    |> st32 42 (bswap32 c.rcvNxt)
    |> st8 46 0x50
    |> st8 47 (UInt8.ofBitVec flags)
    |> st16 48 (bswap16 (BitVec.ofNat 16 c.window))
    |> st16 50 0#16
    |> st16 52 0#16

/-- A SYN carries the MSS option. -/
def synOption (flags : BitVec 8) (m : Nat → UInt8) : Nat → UInt8 :=
  if flags &&& tcpSyn = 0#8 then m
  else m |> st8 46 0x60 |> st8 54 2 |> st8 55 4 |> st16 56 (bswap16 (BitVec.ofNat 16 mss))

/-- Length of the TCP header, from its data offset. -/
def headerLen (m : Nat → UInt8) : Nat := (m 46).toNat / 16 * 4

/-! ## a segment -/

namespace Sender

section emit

variable (s : Sender) (flags : BitVec 8) (payload : List UInt8) (seq : W32) (c : Conn)

/-- The headers written, the options among them. -/
def headers : Nat → UInt8 :=
  s.seg |> s.ethHeader ethIp |> s.ipHeader |> tcpHeader flags seq c |> synOption flags

/-- Length of the TCP header and the payload. -/
def tcpLen : Nat := headerLen (s.headers flags seq c) + payload.length

/-- The payload and the total length in place. -/
def filled : Nat → UInt8 :=
  let m := s.headers flags seq c
  write m (34 + headerLen m) payload
    |> st16 16 (bswap16 (BitVec.ofNat 16 (20 + s.tcpLen flags payload seq c)))

/-- The IP checksum in place. -/
def ipSealed : Nat → UInt8 :=
  let m := s.filled flags payload seq c
  m |> st16 24 ((~~~checksum m 14 20 0#32).setWidth 16)

/-- The words of the pseudo header, in the order they are added: the first is
what the register starts with. -/
def pseudoFirst : W32 := s.hostIp &&& 0xffff#32

def pseudoRest : List W32 :=
  [s.hostIp >>> 16, s.cardIp &&& 0xffff#32, s.cardIp >>> 16, 0x600#32,
    (bswap16 (BitVec.ofNat 16 (s.tcpLen flags payload seq c))).setWidth 32]

/-- Both checksums in place. -/
def built : Nat → UInt8 :=
  let m := s.ipSealed flags payload seq c
  m |> st16 50 ((~~~checksum m 34 (s.tcpLen flags payload seq c)
    (accumulate s.pseudoFirst (s.pseudoRest flags payload seq c))).setWidth 16)

/-- `tcp_send_segment`: the frame handed to `net_send`. -/
def tcpSendSegment : Sender × Option (List UInt8) :=
  if s.haveCardMac then
    ({ s with ipId := s.ipId + 1#64, seg := s.built flags payload seq c },
      some (read (s.built flags payload seq c) 0 (34 + s.tcpLen flags payload seq c)))
  else (s, none)

end emit

end Sender

/-! ## what a receiver adds up -/

def ipHeaderOf (frame : List UInt8) : List UInt8 := (frame.drop 14).take 20

def tcpOf (frame : List UInt8) : List UInt8 := frame.drop 34

/-- The addresses, the protocol and the length of the TCP part. -/
def pseudoHeaderOf (frame : List UInt8) : List UInt8 :=
  (frame.drop 26).take 8 ++ 0 :: (frame.drop 23).take 1 ++
    [UInt8.ofNat ((tcpOf frame).length / 256), UInt8.ofNat (tcpOf frame).length]

/-- Both checksums of the frame verify, and the register that made them never
overflowed. -/
structure Sender.ChecksumsRight (s : Sender) (flags : BitVec 8) (payload : List UInt8) (seq : W32)
    (c : Conn) (frame : List UInt8) : Prop where
  ip : Checksum.Verifies (ipHeaderOf frame)
  tcp : Checksum.Verifies (pseudoHeaderOf frame ++ tcpOf frame)
  ipAdds : CarryFree 0#32 (addends (s.filled flags payload seq c) 14 20)
  ipFolds : FoldFree (accumulate 0#32 (addends (s.filled flags payload seq c) 14 20))
  tcpAdds : CarryFree s.pseudoFirst (s.pseudoRest flags payload seq c ++
    addends (s.ipSealed flags payload seq c) 34 (s.tcpLen flags payload seq c))
  tcpFolds : FoldFree (accumulate s.pseudoFirst (s.pseudoRest flags payload seq c ++
    addends (s.ipSealed flags payload seq c) 34 (s.tcpLen flags payload seq c)))

/-! ## what the stores leave -/

section stores

variable (m : Nat → UInt8) {off i n o : Nat}

theorem apply_st8 (v : UInt8) : st8 off v m i = if i = off then v else m i := by
  rw [st8, write_apply]
  by_cases h : i = off
  · subst h
    simp
  · rw [if_neg h, if_neg (by simp only [List.length_singleton]; omega)]

theorem apply_st8_of_ne (v : UInt8) (h : i < off ∨ off < i) : st8 off v m i = m i :=
  write_of_not_mem m (by simp only [List.length_singleton]; omega)

theorem apply_st16_of_ne (v : BitVec 16) (h : i < off ∨ off + 1 < i) : st16 off v m i = m i :=
  write_of_not_mem m (by rw [length_leBytes]; omega)

theorem apply_st32_of_ne (v : W32) (h : i < off ∨ off + 3 < i) : st32 off v m i = m i :=
  write_of_not_mem m (by rw [length_leBytes]; omega)

theorem read_st8_of_ne (v : UInt8) (h : o + n ≤ off ∨ off < o) :
    read (st8 off v m) o n = read m o n :=
  read_congr fun _ hk => apply_st8_of_ne m v (by omega)

theorem read_st16_of_ne (v : BitVec 16) (h : o + n ≤ off ∨ off + 1 < o) :
    read (st16 off v m) o n = read m o n :=
  read_congr fun _ hk => apply_st16_of_ne m v (by omega)

theorem read_st32_of_ne (v : W32) (h : o + n ≤ off ∨ off + 3 < o) :
    read (st32 off v m) o n = read m o n :=
  read_congr fun _ hk => apply_st32_of_ne m v (by omega)

theorem read_st16 (v : BitVec 16) : read (st16 off v m) off 2 = leBytes 2 v.toNat := by
  have h := read_write m off (leBytes 2 v.toNat)
  rwa [length_leBytes] at h

theorem read_st32 (v : W32) : read (st32 off v m) off 4 = leBytes 4 v.toNat := by
  have h := read_write m off (leBytes 4 v.toNat)
  rwa [length_leBytes] at h

end stores

/-! ## the sum in the register -/

theorem toNat_accumulate {a : W32} {ws : List W32}
    (h : a.toNat + (ws.map BitVec.toNat).sum < 2 ^ 32) :
    CarryFree a ws ∧ (accumulate a ws).toNat = a.toNat + (ws.map BitVec.toNat).sum := by
  induction ws generalizing a with
  | nil => exact ⟨trivial, by simp [accumulate]⟩
  | cons w ws ih =>
      rw [List.map_cons, List.sum_cons] at h
      have hadd : (a + w).toNat = a.toNat + w.toNat := by
        rw [BitVec.toNat_add]
        exact Nat.mod_eq_of_lt (by omega)
      obtain ⟨hfree, hsum⟩ := ih (a := a + w) (by omega)
      refine ⟨⟨by omega, hfree⟩, ?_⟩
      rw [accumulate, List.foldl_cons, ← accumulate, hsum, hadd, List.map_cons, List.sum_cons]
      omega

/-- The words the loop adds are those of the bytes it reads. -/
theorem sum_addends (m : Nat → UInt8) (off len : Nat) :
    ((addends m off len).map BitVec.toNat).sum = Checksum.leSum (read m off len) := by
  induction off, len using addends.induct with
  | case1 off => rfl
  | case2 off =>
      have hb := (m off).toNat_lt
      have hread : read m off 1 = [m off] := rfl
      simp only [hread, addends, List.map_cons, List.map_nil, List.sum_cons, List.sum_nil,
        BitVec.toNat_ofNat, Checksum.leSum]
      omega
  | case3 off len ih =>
      have ha := (m off).toNat_lt
      have hb := (m (off + 1)).toNat_lt
      have hread : read m off (len + 2) = m off :: m (off + 1) :: read m (off + 2) len := by
        rw [Nat.add_comm len 2, read_append]
        rfl
      rw [hread, Checksum.leSum, addends, List.map_cons, List.sum_cons, ih, BitVec.toNat_ofNat]
      omega

/-- The folds keep the sum modulo 65535, and a sum that is zero. -/
theorem folded_spec (a : W32) : FoldFree a ∧ (folded a).toNat < 65536 ∧
    (folded a).toNat % 65535 = a.toNat % 65535 ∧ (a.toNat = 0 → (folded a).toNat = 0) := by
  have hlow : ∀ x : W32, (x &&& 0xffff#32).toNat = x.toNat % 65536 := fun x => by
    rw [BitVec.toNat_and]
    exact Nat.and_two_pow_sub_one_eq_mod x.toNat 16
  have hhigh : ∀ x : W32, (x >>> 16).toNat = x.toNat / 65536 := fun x => by
    rw [BitVec.toNat_ushiftRight, Nat.shiftRight_eq_div_pow]
  have ha := a.isLt
  have hfirst : ((a &&& 0xffff#32) + a >>> 16).toNat = a.toNat % 65536 + a.toNat / 65536 := by
    rw [BitVec.toNat_add, hlow, hhigh]
    exact Nat.mod_eq_of_lt (by omega)
  have hsecond : ∀ b : W32, b.toNat = a.toNat % 65536 + a.toNat / 65536 →
      (b + b >>> 16).toNat = b.toNat + b.toNat / 65536 := fun b hb => by
    rw [BitVec.toNat_add, hhigh]
    exact Nat.mod_eq_of_lt (by omega)
  have hmod : (a.toNat % 65536 + a.toNat / 65536) % 65535 = a.toNat % 65535 := by omega
  have hle : a.toNat % 65536 + a.toNat / 65536 ≤ 131070 := by omega
  have hnull : a.toNat = 0 → a.toNat % 65536 + a.toNat / 65536 = 0 := by omega
  simp only [FoldFree, folded, hlow, hhigh, hsecond _ hfirst, hfirst, ← hmod]
  clear hsecond hfirst hmod
  generalize a.toNat % 65536 + a.toNat / 65536 = b at *
  -- whether the first fold carried
  by_cases hb : b < 65536
  · have hdiv : b / 65536 = 0 := by omega
    rw [hdiv]
    omega
  · have hdiv : b / 65536 = 1 := by omega
    rw [hdiv]
    omega

/-- The complement of `checksum`, as it is stored. -/
theorem toNat_complement (a : W32) :
    ((~~~folded a).setWidth 16).toNat = 65535 - (folded a).toNat := by
  have hlt := (folded_spec a).2.1
  rw [BitVec.toNat_setWidth, BitVec.toNat_not]
  omega

/-- A checksum stored over a zero word makes the words before and behind it
verify, once the register held their sum. -/
theorem verifies_sealed {m : Nat → UInt8} {p : List UInt8} {a : W32} {off k n : Nat}
    (hp : p.length % 2 = 0) (hk : k % 2 = 0) (hzero : read m (off + k) 2 = [0, 0])
    (ha : a.toNat = Checksum.leSum (p ++ read m off (k + (2 + n)))) :
    Checksum.Verifies
      (p ++ read (st16 (off + k) ((~~~folded a).setWidth 16) m) off (k + (2 + n))) := by
  obtain ⟨-, hlt, hmod, hnull⟩ := folded_spec a
  rw [read_append, read_append, hzero, ← List.append_assoc, ← List.append_assoc] at ha
  rw [read_append, read_append, read_st16, read_st16_of_ne _ _ (by omega),
    read_st16_of_ne _ _ (by omega), toNat_complement, ← List.append_assoc, ← List.append_assoc]
  refine Checksum.verifies_of_complement ?_ hlt ?_ ?_
  · rw [List.length_append, length_read]
    omega
  · rw [← ha, hmod]
  · rw [← ha]
    exact hnull

/-! ## what the frame holds -/

namespace Sender

section emit

variable (s : Sender) (flags : BitVec 8) (payload : List UInt8) (seq : W32) (c : Conn)

theorem headerLen_headers : headerLen (s.headers flags seq c) =
    if flags &&& tcpSyn = 0#8 then 20 else 24 := by
  unfold headerLen headers synOption
  split
  · simp (disch := omega) [tcpHeader, apply_st8, apply_st16_of_ne]
  · simp (disch := omega) [apply_st8, apply_st16_of_ne]

theorem headerLen_cases : headerLen (s.headers flags seq c) = 20 ∨
    headerLen (s.headers flags seq c) = 24 := by
  rw [headerLen_headers]
  split
  · exact .inl rfl
  · exact .inr rfl

/-- The checksum fields of the headers are zero. -/
theorem read_headers_zero : read (s.headers flags seq c) 24 2 = [0, 0] ∧
    read (s.headers flags seq c) 50 2 = [0, 0] := by
  unfold headers synOption
  split <;>
    simp (disch := omega) [tcpHeader, ipHeader, read_st16, read_st8_of_ne, read_st16_of_ne,
      read_st32_of_ne, leBytes]

/-- The addresses and the protocol. -/
theorem read_headers : s.headers flags seq c 23 = ipprotoTcp ∧
    read (s.headers flags seq c) 26 4 = leBytes 4 s.hostIp.toNat ∧
    read (s.headers flags seq c) 30 4 = leBytes 4 s.cardIp.toNat := by
  unfold headers synOption
  split <;>
    simp (disch := omega) [tcpHeader, ipHeader, read_st32, read_st8_of_ne, read_st16_of_ne,
      read_st32_of_ne, apply_st8, apply_st16_of_ne, apply_st32_of_ne]

/-- Below the payload and off the total length, `filled` is the headers. -/
theorem filled_apply {i : Nat} (h : i < 16 ∨ 18 ≤ i) (hi : i < 54) :
    s.filled flags payload seq c i = s.headers flags seq c i := by
  have hlen := s.headerLen_cases flags seq c
  rw [filled, apply_st16_of_ne _ _ (by omega), write_of_not_mem _ (by omega)]

theorem ipSealed_apply {i : Nat} (h : i < 16 ∨ 18 ≤ i) (h' : i < 24 ∨ 26 ≤ i) (hi : i < 54) :
    s.ipSealed flags payload seq c i = s.headers flags seq c i := by
  rw [ipSealed, apply_st16_of_ne _ _ (by omega), s.filled_apply flags payload seq c h hi]

/-! ### the two checksums -/

theorem ip_right : (accumulate 0#32 (addends (s.filled flags payload seq c) 14 20)).toNat =
      Checksum.leSum (read (s.filled flags payload seq c) 14 20) ∧
    CarryFree 0#32 (addends (s.filled flags payload seq c) 14 20) := by
  have hle := Checksum.leSum_le (read (s.filled flags payload seq c) 14 20)
  rw [length_read] at hle
  have hsmall : (0#32).toNat +
      ((addends (s.filled flags payload seq c) 14 20).map BitVec.toNat).sum < 2 ^ 32 := by
    rw [sum_addends, BitVec.toNat_ofNat]
    omega
  obtain ⟨hfree, hsum⟩ := toNat_accumulate hsmall
  rw [hsum, sum_addends, BitVec.toNat_ofNat]
  exact ⟨by omega, hfree⟩

theorem verifies_ip : Checksum.Verifies (read (s.ipSealed flags payload seq c) 14 20) := by
  have hzero : read (s.filled flags payload seq c) 24 2 = [0, 0] := by
    rw [← (s.read_headers_zero flags seq c).1]
    exact read_congr fun k hk => s.filled_apply flags payload seq c (by omega) (by omega)
  exact verifies_sealed (p := []) (k := 10) (n := 8) rfl rfl hzero
    (s.ip_right flags payload seq c).1

theorem toNat_bswap16 (v : BitVec 16) :
    (bswap16 v).toNat = v.toNat % 256 * 256 + v.toNat / 256 := by
  have hv := v.isLt
  have hor := Nat.two_pow_add_eq_or_of_lt (i := 8) (b := v.toNat / 256) (by omega)
    (v.toNat % 256)
  have hmod : v.toNat * 256 % 65536 = 2 ^ 8 * (v.toNat % 256) := by omega
  rw [bswap16, BitVec.toNat_rotateLeft, Nat.shiftLeft_eq, Nat.shiftRight_eq_div_pow]
  show v.toNat * 256 % 65536 ||| v.toNat / 256 = _
  rw [hmod, ← hor]
  omega

/-- The words of the pseudo header. -/
def pseudoBytes : List UInt8 :=
  leBytes 4 s.hostIp.toNat ++ leBytes 4 s.cardIp.toNat ++ [0, ipprotoTcp,
    UInt8.ofNat (s.tcpLen flags payload seq c / 256), UInt8.ofNat (s.tcpLen flags payload seq c)]

theorem sum_pseudo (h : s.tcpLen flags payload seq c < 65536) :
    s.pseudoFirst.toNat + ((s.pseudoRest flags payload seq c).map BitVec.toNat).sum =
      Checksum.leSum (s.pseudoBytes flags payload seq c) := by
  have hlow : ∀ x : W32, (x &&& 0xffff#32).toNat = x.toNat % 65536 := fun x => by
    rw [BitVec.toNat_and]
    exact Nat.and_two_pow_sub_one_eq_mod x.toNat 16
  have hhigh : ∀ x : W32, (x >>> 16).toNat = x.toNat / 65536 := fun x => by
    rw [BitVec.toNat_ushiftRight, Nat.shiftRight_eq_div_pow]
  have hlen : ∀ n, n < 65536 →
      Checksum.leSum [0, ipprotoTcp, UInt8.ofNat (n / 256), UInt8.ofNat n] =
        1536 + (n % 256 * 256 + n / 256) := fun n hn => by
    simp only [Checksum.leSum, UInt8.toNat_ofNat', ipprotoTcp, UInt8.reduceToNat]
    omega
  rw [pseudoBytes, Checksum.leSum_append _ _ (by simp), Checksum.leSum_append _ _ (by simp),
    hlen _ h, Checksum.leSum_leBytes_four s.hostIp.isLt, Checksum.leSum_leBytes_four s.cardIp.isLt]
  simp only [pseudoFirst, pseudoRest, List.map_cons, List.map_nil, List.sum_cons, List.sum_nil,
    hlow, hhigh, BitVec.toNat_setWidth, toNat_bswap16, BitVec.toNat_ofNat,
    Nat.mod_eq_of_lt (show s.tcpLen flags payload seq c < 2 ^ 16 from h)]
  omega

theorem tcpLen_le (h : payload.length ≤ mss) : 20 ≤ s.tcpLen flags payload seq c ∧
    s.tcpLen flags payload seq c ≤ 1484 := by
  have hhdr := s.headerLen_cases flags seq c
  rw [mss] at h
  rw [tcpLen]
  omega

theorem tcp_right (h : payload.length ≤ mss) :
    (accumulate s.pseudoFirst (s.pseudoRest flags payload seq c ++
        addends (s.ipSealed flags payload seq c) 34 (s.tcpLen flags payload seq c))).toNat =
      Checksum.leSum (s.pseudoBytes flags payload seq c ++
        read (s.ipSealed flags payload seq c) 34 (s.tcpLen flags payload seq c)) ∧
    CarryFree s.pseudoFirst (s.pseudoRest flags payload seq c ++
      addends (s.ipSealed flags payload seq c) 34 (s.tcpLen flags payload seq c)) := by
  obtain ⟨-, hlen⟩ := s.tcpLen_le flags payload seq c h
  have hpseudo := s.sum_pseudo flags payload seq c (by omega)
  have hsum : s.pseudoFirst.toNat + ((s.pseudoRest flags payload seq c ++
      addends (s.ipSealed flags payload seq c) 34 (s.tcpLen flags payload seq c)).map
        BitVec.toNat).sum =
      Checksum.leSum (s.pseudoBytes flags payload seq c ++
        read (s.ipSealed flags payload seq c) 34 (s.tcpLen flags payload seq c)) := by
    rw [Checksum.leSum_append _ _ (by simp [pseudoBytes]), List.map_append, List.sum_append,
      sum_addends]
    omega
  have hle := Checksum.leSum_le (s.pseudoBytes flags payload seq c ++
    read (s.ipSealed flags payload seq c) 34 (s.tcpLen flags payload seq c))
  rw [List.length_append, length_read] at hle
  have htwelve : (s.pseudoBytes flags payload seq c).length = 12 := by simp [pseudoBytes]
  obtain ⟨hfree, hacc⟩ := toNat_accumulate (a := s.pseudoFirst) (by
    rw [hsum]
    omega)
  exact ⟨hacc.trans hsum, hfree⟩

theorem verifies_tcp (h : payload.length ≤ mss) :
    Checksum.Verifies (s.pseudoBytes flags payload seq c ++
      read (s.built flags payload seq c) 34 (s.tcpLen flags payload seq c)) := by
  obtain ⟨hge, -⟩ := s.tcpLen_le flags payload seq c h
  have hzero : read (s.ipSealed flags payload seq c) 50 2 = [0, 0] := by
    rw [← (s.read_headers_zero flags seq c).2]
    exact read_congr fun k hk =>
      s.ipSealed_apply flags payload seq c (by omega) (by omega) (by omega)
  have hsplit : s.tcpLen flags payload seq c = 16 + (2 + (s.tcpLen flags payload seq c - 18)) := by
    omega
  have hsum := (s.tcp_right flags payload seq c h).1
  rw [accumulate, List.foldl_append, ← accumulate, ← accumulate] at hsum
  rw [built, checksum]
  rw [hsplit] at hsum ⊢
  exact verifies_sealed (k := 16) (by simp [pseudoBytes]) rfl hzero hsum

/-! ### the frame -/

theorem built_apply {i : Nat} (h : i < 16 ∨ 18 ≤ i) (h' : i < 24 ∨ 26 ≤ i) (hi : i < 50) :
    s.built flags payload seq c i = s.headers flags seq c i := by
  rw [built, apply_st16_of_ne _ _ (by omega),
    s.ipSealed_apply flags payload seq c h h' (by omega)]

theorem pseudoHeaderOf_frame : pseudoHeaderOf (read (s.built flags payload seq c) 0
      (34 + s.tcpLen flags payload seq c)) = s.pseudoBytes flags payload seq c := by
  obtain ⟨hproto, hhost, hcard⟩ := s.read_headers flags seq c
  have hread : ∀ o n, 26 ≤ o → o + n ≤ 34 →
      read (s.built flags payload seq c) o n = read (s.headers flags seq c) o n := by
    intro o n ho hn
    exact read_congr fun k hk =>
      s.built_apply flags payload seq c (by omega) (by omega) (by omega)
  have hone : read (s.built flags payload seq c) 23 1 = [ipprotoTcp] := by
    rw [← hproto, ← s.built_apply flags payload seq c (by omega) (by omega) (by omega)]
    rfl
  have haddrs : read (s.built flags payload seq c) 26 8 =
      leBytes 4 s.hostIp.toNat ++ leBytes 4 s.cardIp.toNat := by
    rw [← hhost, ← hcard, ← hread 26 4 (by omega) (by omega), ← hread 30 4 (by omega) (by omega)]
    exact read_append _ 26 4 4
  have hlen : 34 + s.tcpLen flags payload seq c - 34 = s.tcpLen flags payload seq c := by omega
  simp only [pseudoHeaderOf, tcpOf, drop_read, Nat.zero_add, length_read, hlen,
    take_read _ (show 8 ≤ 34 + s.tcpLen flags payload seq c - 26 by omega),
    take_read _ (show 1 ≤ 34 + s.tcpLen flags payload seq c - 23 by omega), haddrs, hone,
    pseudoBytes, List.append_assoc, List.cons_append, List.nil_append]

end emit

end Sender

/-! ## what the connections send -/

/-- No segment carries more than `MSS`. -/
def Short (es : List Effect) : Prop := ∀ g, .emit g ∈ es → g.payload.length ≤ mss

section short

theorem Short.append {es fs : List Effect} (h : Short es) (h' : Short fs) : Short (es ++ fs) := by
  intro g hg
  cases List.mem_append.mp hg with
  | inl hl => exact h g hl
  | inr hr => exact h' g hr

theorem Bare.short {es : List Effect} (h : Bare es) : Short es := by
  intro g hg
  obtain ⟨g', heq, hbare⟩ := h _ hg
  cases heq
  simp only [OutSegment.bare, Bool.and_eq_true, decide_eq_true_eq] at hbare
  simp [hbare.1]

theorem short_of_none {es : List Effect} (h : ∀ g, .emit g ∉ es) : Short es :=
  fun g hg => absurd hg (h g)

/-- One routine after another. -/
theorem short_bind {r : Res} {f : Conn → Res} (hr : Short r.effects)
    (hf : ∀ c, Short (f c).effects) : Short (r.bind f).effects := hr.append (hf _)

theorem short_sendSegment (mac : Bool) (flags : BitVec 8) (bs : List UInt8) (q : W32) (c : Conn)
    (h : bs.length ≤ mss) : Short (sendSegment mac flags bs q c).effects := by
  rw [effects_sendSegment]
  cases mac with
  | false => simp [Short]
  | true => simpa [Short] using h

theorem short_tcpConnect (old : Conn) (fd : Int) (lport rport us : Nat) (mac : Bool)
    (t : Timespec) : Short (tcpConnect old fd lport rport us mac t).effects :=
  short_bind (short_sendSegment mac _ _ _ _ (Nat.zero_le _)) fun _ => short_of_none (by simp)

theorem short_tcpIn (mac : Bool) (t : Timespec) (s : Segment) (c : Conn) :
    Short (tcpIn mac t s c).effects := by
  have hstore : ∀ c, Short (storePayload s c).effects := fun c => by
    rw [effects_storePayload]
    split <;> exact short_of_none (by simp)
  have hfin : ∀ c, Short (takeFin s c).effects := fun c => by
    unfold takeFin
    split <;> exact short_of_none (by simp)
  unfold tcpIn
  split
  · exact short_of_none (by simp)
  · split
    · unfold applySynAck
      split
      · exact (bare_sendAck mac _).short
      · exact short_of_none (by simp)
    · obtain ⟨-, -, hes⟩ | ⟨-, -, es, hes, heff⟩ := applyPayload_spec mac s (applyAck s t c)
      · exact hes.short
      · rw [heff]
        exact ((hstore _).append (hfin _)).append hes.short

variable (io : StepIO)

theorem short_writeHost (c : Conn) : Short (writeHost io c).effects := by
  obtain ⟨-, h⟩ | ⟨n, es, -, hes, -, h⟩ | ⟨es, hes, -, -, -, -, h⟩ := writeHost_spec io c
  · rw [h]
    exact short_of_none (by simp)
  · rw [h]
    have hwrite : ∀ bs, Short [.hostWrite bs] := fun bs => short_of_none (by simp)
    exact (hwrite _).append hes.short
  · rw [h]
    exact hes.short.append (short_of_none (by simp))

theorem short_sendLoop (quota : Nat) (c : Conn) : Short (sendLoop io quota c).effects := by
  induction quota generalizing c with
  | zero => exact short_of_none (by simp [sendLoop])
  | succ quota ih =>
      unfold sendLoop
      split
      · exact short_of_none (by simp)
      · obtain ⟨-, -, -, -, -, heff⟩ := sendOne_spec io c
        refine short_bind ?_ ih
        rw [heff]
        refine short_sendSegment _ _ _ _ _ ?_
        rw [length_read, Conn.nextLen]
        omega

theorem short_sendFin (c : Conn) : Short (sendFin io c).effects := by
  obtain h | ⟨-, -, -, -, -, -, -, -, h⟩ := sendFin_spec io c
  · rw [h]
    exact short_of_none (by simp)
  · rw [h]
    exact (short_sendSegment _ _ _ _ _ (Nat.zero_le _)).append (short_of_none (by simp))

theorem short_resend (c : Conn) : Short (resend io c).effects := by
  obtain ⟨-, h | ⟨-, h⟩ | ⟨-, -, h⟩ | ⟨-, -, -, h⟩⟩ := resend_spec io c
  · rw [h]
    exact short_of_none (by simp)
  · rw [h]
    exact short_sendSegment _ _ _ _ _ (Nat.zero_le _)
  · rw [h]
    refine short_sendSegment _ _ _ _ _ ?_
    rw [length_read, Conn.resendLen]
    omega
  · rw [h]
    exact short_sendSegment _ _ _ _ _ (Nat.zero_le _)

theorem short_retransmit (c : Conn) : Short (retransmit io c).effects := by
  obtain h | ⟨-, -, -, -, h⟩ | ⟨-, c', -, h⟩ := retransmit_spec io c
  · rw [h]
    exact short_of_none (by simp)
  · rw [h]
    exact short_of_none (by simp)
  · rw [h]
    exact short_resend io c'

theorem short_connStep (c : Conn) : Short (connStep io c).effects := by
  have hshut : ∀ c, Short (shutHost c).effects := fun c => by
    unfold shutHost
    split <;> exact short_of_none (by simp)
  have hread : ∀ c, Short (readHost io c).effects := fun c => by
    obtain ⟨b, h⟩ | ⟨bs, -, -, h⟩ := readHost_spec io c
    · rw [h]
      exact short_of_none (by simp)
    · rw [h]
      exact short_of_none (by simp)
  have hdata : ∀ c, Short (sendData io c).effects := fun c => by
    unfold sendData
    split
    · exact short_sendLoop io _ c
    · exact short_of_none (by simp)
  have hclose : ∀ c, Short (closeHost c).effects := fun c => by
    unfold closeHost
    split
    · dsimp only
      split <;> exact short_of_none (by simp)
    · exact short_of_none (by simp)
  have hmid : ∀ c, Short (middleParts io c).effects := fun c =>
    short_bind (short_bind (short_bind (short_bind (hshut c) hread) hdata) (short_sendFin io))
      (short_retransmit io)
  unfold connStep
  split
  · exact hclose c
  · dsimp only
    split
    · exact short_bind (short_writeHost io c) hclose
    · exact short_bind (short_bind (short_writeHost io c) hmid) hclose

/-- Whatever happens to a connection, no segment of it carries more than `MSS`. -/
theorem short_apply (e : Event) (c : Conn) : Short (e.apply c).effects := by
  unfold Event.apply
  cases e with
  | segment s mac t =>
      dsimp only
      split
      · exact short_of_none (by simp)
      · exact short_tcpIn mac t s c
  | turn io =>
      dsimp only
      split
      · exact short_of_none (by simp)
      · exact short_connStep io c

end short

/-! ## every segment -/

/-- Every frame of at most a segment's payload verifies. -/
theorem checksums_right (s : Sender) (flags : BitVec 8) (payload : List UInt8) (seq : W32)
    (c : Conn) (h : payload.length ≤ mss) :
    ∀ frame ∈ (s.tcpSendSegment flags payload seq c).2,
      s.ChecksumsRight flags payload seq c frame := by
  intro frame hframe
  have heq : frame = read (s.built flags payload seq c) 0
      (34 + s.tcpLen flags payload seq c) := by
    unfold Sender.tcpSendSegment at hframe
    split at hframe
    · exact (Option.some.inj hframe).symm
    · cases hframe
  have hip : ipHeaderOf frame = read (s.ipSealed flags payload seq c) 14 20 := by
    rw [heq, ipHeaderOf, drop_read, take_read _ (by omega), Sender.built,
      read_st16_of_ne _ _ (by omega)]
  have htcp : tcpOf frame = read (s.built flags payload seq c) 34
      (s.tcpLen flags payload seq c) := by
    rw [heq, tcpOf, drop_read, Nat.add_sub_cancel_left]
  refine ⟨?_, ?_, (s.ip_right flags payload seq c).2, (folded_spec _).1,
    (s.tcp_right flags payload seq c h).2, (folded_spec _).1⟩
  · rw [hip]
    exact s.verifies_ip flags payload seq c
  · rw [htcp, heq, s.pseudoHeaderOf_frame flags payload seq c]
    exact s.verifies_tcp flags payload seq c h

/-- A sender on 10.0.0.1 that talks to 10.0.0.2. -/
def subnetSender : Sender :=
  ⟨true, 0x0605040302#64, 0x010203040506#48, 0x0100000a#32, 0x0200000a#32, 7#64, fun _ => 0xee⟩

/-- Three bytes of payload. -/
theorem checksums_right_odd :
    (subnetSender.tcpSendSegment (tcpAck ||| tcpPsh) [1, 2, 3] 9#32 emptySlot).2.isSome = true ∧
      ∀ frame ∈ (subnetSender.tcpSendSegment (tcpAck ||| tcpPsh) [1, 2, 3] 9#32 emptySlot).2,
        subnetSender.ChecksumsRight (tcpAck ||| tcpPsh) [1, 2, 3] 9#32 emptySlot frame :=
  ⟨rfl, checksums_right subnetSender (tcpAck ||| tcpPsh) [1, 2, 3] 9#32 emptySlot (by decide)⟩

end Phi.Tcp
