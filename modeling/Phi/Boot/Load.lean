import Phi.Disk.Transfer
import Phi.Ring.Format

/-!
# Phi.Boot.Load

Loading a kernel (`do_boot` of `boot.S`): where the ring region, the kernel,
the command line and the initramfs go, the checks in between, and the writes.

Addresses are 64-bit.  The kernel is told two of them, and one size, in 32-bit
fields of its header.  The command line is put together in a buffer of 4 KiB
before its length is looked at, and then compared with what the kernel allows,
not with the buffer.  The ring region is compared with the end of the
initramfs; without one that is twice the load address, wherever the kernel
ends.
-/

namespace Phi.Boot

open Ring Disk

/-! ## what a boot is given -/

/-- A file mapped whole: `map_file_whole` refuses an empty one, and the length
is a signed 64-bit size. -/
structure Image where
  len : Nat
  bytes : Memory
  pos : 0 < len
  lt : len < 2 ^ 63

/-- What a boot starts from: the download address in SPAD2, the images, and the
options. -/
structure Request where
  download : W32
  kernel : Image
  initrd : Option Image
  cmdline : List UInt8
  raw : Bool
  ringBase : Nat
  ringSize : Nat
  base_lt : ringBase < 2 ^ 64
  size_lt : ringSize < 2 ^ 64

/-- The card's memory and the aperture over it, the mappings the system grants,
and what the region's header says of the host. -/
structure Machine where
  card : Memory
  aperLen : Nat
  maps : Nat → Bool
  info : HostInfo

/-- What a boot stops with. -/
inductive BootErr where
  | bootaddr
  | short
  | bootflag
  | magic
  | protocol
  | cmdline
  | initrdOverlap
  | initrdGddr
  | ringDl
  | ringKernel
  | mmap
  | fit
  | write
deriving DecidableEq, Repr

/-- `add` on two registers. -/
def add64 (a b : Nat) : Nat := (a + b) % 2 ^ 64

/-! ## parse_bzimage -/

def offBootFlag : Nat := 0x1fe
def offHeader : Nat := 0x202
def offVersion : Nat := 0x206
def offTypeOfLoader : Nat := 0x210
def offRamdiskImage : Nat := 0x218
def offRamdiskSize : Nat := 0x21c
def offCmdLinePtr : Nat := 0x228
def offCmdlineSize : Nat := 0x238
def minImageLen : Nat := 0x264

/-- The little-endian half word at an offset. -/
def read16 (m : Memory) (off : Nat) : Nat := (m off).toNat + 256 * (m (off + 1)).toNat

/-- `parse_bzimage`: the length of command line that the kernel allows. -/
def parseBzimage (k : Image) : Except BootErr Nat :=
  if k.len < minImageLen then .error .short
  else if read16 k.bytes offBootFlag ≠ 0xaa55 then .error .bootflag
  else if rmRead32 k.bytes offHeader ≠ 0x53726448#32 then .error .magic
  else if read16 k.bytes offVersion < 0x203 then .error .protocol
  else if read16 k.bytes offVersion < 0x206 then .ok 255
  else .ok (rmRead32 k.bytes offCmdlineSize).toNat

/-! ## the command line -/

def cmdlineBufLen : Nat := 4096

def text (cs : String) : List UInt8 := cs.toList.map fun c => UInt8.ofNat c.toNat

/-- `w_dec`. -/
def wDec (n : Nat) : List UInt8 := (Nat.toDigits 10 n).map fun c => UInt8.ofNat c.toNat

/-- `w_hex`. -/
def wHex (n : Nat) : List UInt8 :=
  text "0x" ++ (Nat.toDigits 16 n).map fun c => UInt8.ofNat c.toNat

/-- A space, or one of the five control characters from the tab on. -/
def isSpace (b : UInt8) : Bool := b = 32 || b - 9 ≤ 4

/-- `trim`. -/
def trim (bs : List UInt8) : List UInt8 :=
  ((bs.dropWhile isSpace).reverse.dropWhile isSpace).reverse

/-- `ring_params`. -/
def ringParams (base size : Nat) : List UInt8 :=
  text "memmap=" ++ wDec (size >>> 10) ++ text "K$" ++ wHex base ++ text " phi.ring=" ++
    wHex base ++ text "," ++ wHex size ++ text " mem=" ++ wDec (gddrBytes >>> 20) ++ text "M"

/-- What step 3 puts at `cmdline_buf`, its NUL included. -/
def buildCmdline (b : Request) : List UInt8 :=
  let line := trim b.cmdline
  let tail :=
    if b.raw then []
    else (if line = [] then [] else text " ") ++ ringParams b.ringBase b.ringSize
  line ++ tail ++ [0]

/-! ## the placement -/

/-- The load address: the page of the download address. -/
def bootAddr (download : W32) : Nat := (download &&& 0xfffff000#32).toNat

/-- Where the command line goes: behind the kernel. -/
def Request.cmdlineAddr (b : Request) : Nat := add64 (bootAddr b.download) b.kernel.len

/-- Where an initramfs goes: at twice the load address. -/
def Request.initrdAddr (b : Request) : Nat := add64 (bootAddr b.download) (bootAddr b.download)

def Request.initrdLen (b : Request) : Nat := b.initrd.elim 0 Image.len

/-- Step 4: the initramfs clear of the command line and inside the card's
memory. -/
def checkInitrd (b : Request) : Except BootErr Unit :=
  match b.initrd with
  | none => .ok ()
  | some r =>
      if b.initrdAddr < add64 (add64 b.cmdlineAddr ((buildCmdline b).length - 1)) 1 then
        .error .initrdOverlap
      else if gddrBytes < add64 b.initrdAddr r.len then .error .initrdGddr
      else .ok ()

/-- The ring region against everything. -/
def checkRegion (b : Request) : Except BootErr Unit :=
  if b.ringBase < bootAddr b.download then
    if bootAddr b.download < add64 b.ringBase b.ringSize then .error .ringDl else .ok ()
  else if b.ringBase < add64 b.initrdAddr b.initrdLen then .error .ringKernel
  else .ok ()

/-- Steps 1 to 4: everything that is checked before the first write. -/
def checkRequest (b : Request) : Except BootErr Unit :=
  if bootAddr b.download = 0 ∨ 0x80000000 < bootAddr b.download then .error .bootaddr
  else do
    let max ← parseBzimage b.kernel
    if max < (buildCmdline b).length - 1 then .error .cmdline
    else do
      checkInitrd b
      checkRegion b

/-! ## the writes -/

/-- The header as the card gets it: the initramfs where there is one, the
command line, the type of the loader. -/
def patchHeader (b : Request) : Memory :=
  let m := b.kernel.bytes
  let m₁ :=
    match b.initrd with
    | none => m
    | some r =>
        fb32 (fb32 m offRamdiskImage (low b.initrdAddr)) offRamdiskSize (low r.len)
  let m₂ := fb32 m₁ offCmdLinePtr (low b.cmdlineAddr)
  fun i => if i = offTypeOfLoader then 0xff else m₂ i

/-- A copy to the card, and the range it went to. -/
def put (h : Machine) (card : Memory) (dst : Nat) (bs : List UInt8) :
    Except BootErr (Memory × Access) :=
  match writeCardMemory h.aperLen card dst bs with
  | none => .error .write
  | some card' => .ok (card', ⟨dst, bs.length⟩)

/-- What a boot leaves: the card's memory, the ranges written, the header as
written. -/
structure Loaded where
  card : Memory
  region : Access
  kernel : Access
  cmdline : Access
  initrd : Option Access
  header : Memory

/-- Step 5: the region, formatted in a mapping of its size. -/
def formatRegion (h : Machine) (b : Request) : Except BootErr Memory :=
  if h.maps b.ringSize then
    match regionFormat defaultPlan b.ringSize h.info with
    | none => .error .fit
    | some (_, image) => .ok image
  else .error .mmap

/-- Step 8: the initramfs, if there is one. -/
def putInitrd (h : Machine) (card : Memory) (b : Request) :
    Except BootErr (Memory × Option Access) :=
  match b.initrd with
  | none => .ok (card, none)
  | some r => do
      let (card, initrd) ← put h card b.initrdAddr (Circular.read r.bytes 0 r.len)
      return (card, some initrd)

/-- `do_boot`, up to the boot interrupt. -/
def doBoot (h : Machine) (b : Request) : Except BootErr Loaded := do
  checkRequest b
  let image ← formatRegion h b
  let (card, region) ← put h h.card b.ringBase (Circular.read image 0 b.ringSize)
  let header := patchHeader b
  let (card, kernel) ← put h card (bootAddr b.download) (Circular.read header 0 b.kernel.len)
  let (card, cmdline) ← put h card b.cmdlineAddr (buildCmdline b)
  let (card, initrd) ← putInitrd h card b
  return ⟨card, region, kernel, cmdline, initrd, header⟩

end Phi.Boot
