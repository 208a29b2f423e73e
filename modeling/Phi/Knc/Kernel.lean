import Phi.Mvex.Machine

/-!
# Phi.Knc.Kernel

The generator of `libknc`'s kernels (`knc-mvex-gen`): what it writes for each
width, line by line.

Both directions work on groups: the unpack kernel on eight values at a time,
the pack kernel on four words.  Within a group the lines come phase by phase,
so that neighbouring lines belong to different values.  Labels, comments and
the final `ret` are left out.
-/

namespace Phi.Knc

open Mvex

/-! ## registers and places -/

/-- `Zmm(n)`. -/
def zmm (n : Nat) : Zmm := Fin.ofNat 32 n

/-- A base register that the encoder takes. -/
class Based (base : Gpr) : Prop where
  noSib : base.num &&& 7 ≠ 4

instance : Based .rax := ⟨by decide⟩
instance : Based .rdx := ⟨by decide⟩
instance : Based .rsi := ⟨by decide⟩
instance : Based .rdi := ⟨by decide⟩

/-- `mem(base, disp)`. -/
def mem (base : Gpr) (disp : Nat) [Based base] : Mem :=
  ⟨base, BitVec.ofNat 32 disp, Based.noSib⟩

abbrev z (r : Zmm) : Src := .reg r

/-- `GROUP`. -/
def group : Nat := 8

/-- `WORD_REGS`. -/
def wordRegs : Nat := 10

inductive Mode where
  | plain | for_ | delta
deriving DecidableEq, Repr

/-- The word of its lane that value `v` starts in, and how far up. -/
def place (bits v : Nat) : Nat × Nat := (bits * v / 32, bits * v % 32)

def shiftRight (dst src : Zmm) (n : Nat) : Line := .bytes (vpsrld dst (z src) (UInt8.ofNat n) 0)

def shiftLeft (dst src : Zmm) (n : Nat) : Line := .bytes (vpslld dst (z src) (UInt8.ofNat n) 0)

def temp (p half : Nat) : Zmm := zmm (wordRegs + (2 * p + half))

def maskReg : Zmm := 30

/-- The frame of reference. -/
def baseReg : Zmm := 26

/-- The running sum. -/
def accReg : Zmm := 27

def maskSymbol (bits : Nat) : String := "knc_mask_b" ++ toString bits

/-- A row of `mask_constants`. -/
def maskConstant (bits : Nat) : BitVec 32 := 0xffffffff#32 >>> (32 - bits)

/-! ## unpack_kernel -/

section group

variable (bits start : Nat)

def firstWord : Nat := (place bits start).1

def lastWord : Nat := (bits * (start + group - 1) + bits - 1) / 32

def nWords : Nat := lastWord bits start - firstWord bits start + 1

/-- The assertion of the generator. -/
theorem nWords_le (h : bits ≤ 32) : nWords bits start ≤ wordRegs := by
  have hlast : bits * (start + group - 1) + bits - 1 ≤ bits * start + 255 := by
    rw [show start + group - 1 = start + 7 from rfl, Nat.mul_add]
    omega
  simp only [nWords, lastWord, firstWord, place, wordRegs]
  omega

def wreg (w : Nat) : Zmm := zmm (w - firstWord bits start)

/-- Where the finished value `start + p` is. -/
def result (p : Nat) : Zmm :=
  if bits = 32 then wreg bits start (place bits (start + p)).1 else temp p 0

/-- The low part of the values that are not word aligned. -/
def lowLines (p : Nat) : List Line :=
  let (w, s) := place bits (start + p)
  if s ≠ 0 then [shiftRight (temp p 0) (wreg bits start w) s] else []

/-- The high part of the values that straddle two words. -/
def highLines (p : Nat) : List Line :=
  let (w, s) := place bits (start + p)
  if s + bits > 32 then [shiftLeft (temp p 1) (wreg bits start (w + 1)) (32 - s)] else []

def joinLines (p : Nat) : List Line :=
  let (_, s) := place bits (start + p)
  if s + bits > 32 then [.bytes (vpord (temp p 0) (temp p 0) (z (temp p 1)) 0)] else []

/-- The mask, but for a value that ends at the top of a word. -/
def maskLines (p : Nat) : List Line :=
  let (w, s) := place bits (start + p)
  if s + bits ≠ 32 then
    let src := if s = 0 then wreg bits start w else temp p 0
    [.bytes (vpandd (temp p 0) src (z maskReg) 0)]
  else []

/-- The four passes over the values of a group. -/
def extractLines : List Line :=
  (List.range group).flatMap (lowLines bits start) ++
    (List.range group).flatMap (highLines bits start) ++
    (List.range group).flatMap (joinLines bits start) ++
    (List.range group).flatMap (maskLines bits start)

/-- The group's words. -/
def loadLines : List Line :=
  (List.range (nWords bits start)).flatMap fun w =>
    [.bytes (vmovapsLoad (zmm w) (mem .rsi (64 * (firstWord bits start + w))))]

def storeLine (v : Nat) (r : Zmm) : Line := .bytes (vmovapsStore (mem .rdi (64 * v)) r)

/-- What the mode does with the finished values. -/
def finishLines : Mode → List Line
  | .plain => (List.range group).flatMap fun p => [storeLine (start + p) (result bits start p)]
  | .for_ =>
      ((List.range group).flatMap fun p =>
        [.bytes (vpaddd (temp p 0) baseReg (z (result bits start p)) 0)]) ++
      (List.range group).flatMap fun p => [storeLine (start + p) (temp p 0)]
  | .delta =>
      (List.range group).flatMap fun p =>
        [.bytes (vpaddd accReg accReg (z (result bits start p)) 0), storeLine (start + p) accReg]

def groupLines (mode : Mode) : List Line :=
  loadLines bits start ++ extractLines bits start ++ finishLines bits start mode

end group

def maskLoad (bits : Nat) : List Line :=
  if bits < 32 then
    [.leaq (maskSymbol bits) .rax, .bytes (vmovapsLoad maskReg (mem .rax 0))]
  else []

def baseLoad : Mode → List Line
  | .plain => []
  | .for_ => [.bytes (vmovapsLoad baseReg (mem .rdx 0))]
  | .delta => [.bytes (vmovapsLoad accReg (mem .rdx 0))]

/-- `unpack_kernel`. -/
def unpackKernel (bits : Nat) (mode : Mode) : List Line :=
  baseLoad mode ++ maskLoad bits ++
    (List.range (64 / group)).flatMap fun g => groupLines bits (group * g) mode

/-! ## transform_kernel -/

/-- `transform_kernel`, for the two modes that have one. -/
def transformKernel (mode : Mode) : List Line :=
  [.bytes (vmovapsLoad 26 (mem .rdx 0))] ++
    (List.range 64).flatMap fun v =>
      [.bytes (vmovapsLoad 27 (mem .rsi (64 * v))),
        .bytes (vpsubd 28 27 (z 26) 0), .bytes (vmovapsStore (mem .rdi (64 * v)) 28)] ++
        if mode = .delta then [.bytes (vmovapdLoad 26 (z 27) 0)] else []

/-! ## pack_kernel -/

/-- A value's contribution to a word. -/
structure Piece where
  value : Nat
  left : Bool
  amount : Nat
deriving DecidableEq, Repr

/-- `pieces[w].push`. -/
def pushPiece (pieces : Nat → List Piece) (w : Nat) (p : Piece) : Nat → List Piece := fun q =>
  if q = w then pieces q ++ [p] else pieces q

def pieceStep (bits : Nat) (pieces : Nat → List Piece) (v : Nat) : Nat → List Piece :=
  let (w, s) := place bits v
  let pieces := pushPiece pieces w ⟨v, true, s⟩
  if s + bits > 32 then pushPiece pieces (w + 1) ⟨v, false, 32 - s⟩ else pieces

/-- The pieces of each packed word. -/
def pieces (bits : Nat) : Nat → List Piece := (List.range 64).foldl (pieceStep bits) fun _ => []

/-- `PACK_WORDS`. -/
def packWords : Nat := 4

/-- `WAYS`. -/
def ways : Nat := 2

def acc (j way : Nat) : Zmm := zmm (ways * j + way)

def tmp (j : Nat) : Zmm := zmm (packWords * ways + j)

/-- The first pieces of a word go straight to its accumulators. -/
def packDst (i j : Nat) : Zmm := if i < ways then acc j i else tmp j

section packGroup

variable (bits base : Nat)

def groupSize : Nat := min (base + packWords) (2 * bits) - base

/-- Piece `i` of the group's word `j`. -/
def piece (i j : Nat) : Option Piece := (pieces bits (base + j))[i]?

def packSteps : Nat :=
  ((List.range (groupSize bits base)).map fun j => (pieces bits (base + j)).length).foldl max 0

def packLoad (i j : Nat) : List Line :=
  match piece bits base i j with
  | some p => [.bytes (vmovapsLoad (packDst i j) (mem .rsi (64 * p.value)))]
  | none => []

def packMask (i j : Nat) : List Line :=
  if bits < 32 ∧ i < (pieces bits (base + j)).length then
    [.bytes (vpandd (packDst i j) (packDst i j) (z maskReg) 0)]
  else []

def packShift (i j : Nat) : List Line :=
  match piece bits base i j with
  | some p =>
      if p.amount = 0 then []
      else if p.left then [shiftLeft (packDst i j) (packDst i j) p.amount]
      else [shiftRight (packDst i j) (packDst i j) p.amount]
  | none => []

def packJoin (i j : Nat) : List Line :=
  if ways ≤ i ∧ i < (pieces bits (base + j)).length then
    [.bytes (vpord (acc j (i % ways)) (acc j (i % ways)) (z (tmp j)) 0)]
  else []

/-- The passes over piece `i` of every word of the group. -/
def packStep (i : Nat) : List Line :=
  (List.range (groupSize bits base)).flatMap (packLoad bits base i) ++
    (List.range (groupSize bits base)).flatMap (packMask bits base i) ++
    (List.range (groupSize bits base)).flatMap (packShift bits base i) ++
    (List.range (groupSize bits base)).flatMap (packJoin bits base i)

def packMerge (j : Nat) : List Line :=
  if 1 < (pieces bits (base + j)).length then
    [.bytes (vpord (acc j 0) (acc j 0) (z (acc j 1)) 0)]
  else []

def packGroup : List Line :=
  (List.range (packSteps bits base)).flatMap (packStep bits base) ++
    (List.range (groupSize bits base)).flatMap (packMerge bits base) ++
    (List.range (groupSize bits base)).flatMap fun j => [storeLine (base + j) (acc j 0)]

end packGroup

/-- `pack_kernel`. -/
def packKernel (bits : Nat) : List Line :=
  maskLoad bits ++
    (List.range ((2 * bits + packWords - 1) / packWords)).flatMap fun g =>
      packGroup bits (packWords * g)

end Phi.Knc
