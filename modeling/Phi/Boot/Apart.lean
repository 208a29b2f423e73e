import Phi.Boot.Load

/-!
# Phi.Boot.Apart

When a boot that goes through has placed everything apart.

Every write is checked against the card's memory when it is made, so no range
reaches past it.  What else can go wrong is a command line longer than its
buffer, an address or a size that does not fit its field of the header, and,
without an initramfs, a kernel that reaches the ring region.
-/

namespace Phi.Boot

open Ring Disk

/-! ## the property -/

/-- Two ranges have no byte in common. -/
def Disjoint (a b : Access) : Prop := a.off + a.len ≤ b.off ∨ b.off + b.len ≤ a.off

/-- The ranges a boot wrote. -/
def Loaded.ranges (l : Loaded) : List Access :=
  [l.region, l.kernel, l.cmdline] ++ l.initrd.toList

/-- **Everything apart**: the ranges are disjoint and inside the card's memory,
the fields of the header name the command line and the initramfs, and the
command line was put together inside its buffer. -/
structure PlacedApart (b : Request) (l : Loaded) : Prop where
  apart : l.ranges.Pairwise Disjoint
  inside : ∀ a ∈ l.ranges, a.Inside gddrBytes
  cmdLinePtr : (rmRead32 l.header offCmdLinePtr).toNat = l.cmdline.off
  ramdisk : ∀ a ∈ l.initrd, (rmRead32 l.header offRamdiskImage).toNat = a.off ∧
    (rmRead32 l.header offRamdiskSize).toNat = a.len
  buffer : (buildCmdline b).length ≤ cmdlineBufLen

/-- What the checks leave out: a command line that fits its buffer; with an
initramfs, addresses and a size of 32 bits; without one, a command line whose
address is of 32 bits and which ends before a region above the load address. -/
def Request.Roomy (b : Request) : Prop :=
  (buildCmdline b).length ≤ cmdlineBufLen ∧
    match b.initrd with
    | some r => bootAddr b.download < 2 ^ 31 ∧ r.len < 2 ^ 32
    | none =>
        bootAddr b.download + b.kernel.len < 2 ^ 32 ∧
          (b.ringBase < bootAddr b.download ∨
            bootAddr b.download + b.kernel.len + (buildCmdline b).length ≤ b.ringBase)

/-! ## what an accepted boot went through -/

theorem bind_eq_ok {ε α β : Type} {x : Except ε α} {f : α → Except ε β} {y : β} :
    (x >>= f) = .ok y ↔ ∃ a, x = .ok a ∧ f a = .ok y := by
  cases x <;> simp [bind, Except.bind]

theorem add64_eq {a b : Nat} (h : a + b < 2 ^ 64) : add64 a b = a + b := Nat.mod_eq_of_lt h

/-- A write that is made lies inside the card's memory. -/
theorem put_eq_ok {h : Machine} {card card' : Memory} {dst : Nat} {bs : List UInt8} {a : Access}
    (hput : put h card dst bs = .ok (card', a)) :
    a = ⟨dst, bs.length⟩ ∧ dst + bs.length ≤ gddrBytes := by
  unfold put at hput
  split at hput
  · cases hput
  · next hw =>
      obtain ⟨-, rfl⟩ := Prod.mk.inj (Except.ok.inj hput)
      unfold writeCardMemory at hw
      split at hw
      · cases hw
      · next hle =>
          split at hw
          · next hc =>
              simp only [aperCheck, Bool.and_eq_true, decide_eq_true_eq] at hc
              rw [Nat.mod_eq_of_lt hc.1] at hle
              exact ⟨rfl, by omega⟩
          · cases hw

/-- The load address is at most 2 GiB and not 0. -/
theorem checkRequest_bootAddr {b : Request} (h : checkRequest b = .ok ()) :
    0 < bootAddr b.download ∧ bootAddr b.download ≤ 0x80000000 := by
  unfold checkRequest at h
  split at h
  · cases h
  · omega

theorem checkRequest_parts {b : Request} (h : checkRequest b = .ok ()) :
    checkInitrd b = .ok () ∧ checkRegion b = .ok () := by
  unfold checkRequest at h
  split at h
  · cases h
  · obtain ⟨max, -, h⟩ := bind_eq_ok.mp h
    split at h
    · cases h
    · obtain ⟨⟨⟩, hi, hr⟩ := bind_eq_ok.mp h
      exact ⟨hi, hr⟩

/-- The ranges of an accepted boot. -/
structure Accepted (b : Request) (l : Loaded) : Prop where
  boot_pos : 0 < bootAddr b.download
  boot_le : bootAddr b.download ≤ 0x80000000
  initrd_ok : checkInitrd b = .ok ()
  region_ok : checkRegion b = .ok ()
  size_pos : 0 < b.ringSize
  region : l.region = ⟨b.ringBase, b.ringSize⟩
  kernel : l.kernel = ⟨bootAddr b.download, b.kernel.len⟩
  cmdline : l.cmdline = ⟨b.cmdlineAddr, (buildCmdline b).length⟩
  initrd : l.initrd = b.initrd.map fun r => ⟨b.initrdAddr, r.len⟩
  header : l.header = patchHeader b
  inside : ∀ a ∈ l.ranges, a.Inside gddrBytes

theorem putInitrd_eq_ok {h : Machine} {card card' : Memory} {b : Request} {o : Option Access}
    (hput : putInitrd h card b = .ok (card', o)) :
    (o = b.initrd.map fun r => ⟨b.initrdAddr, r.len⟩) ∧ ∀ a ∈ o, a.Inside gddrBytes := by
  unfold putInitrd at hput
  split at hput
  · next hn =>
      obtain ⟨-, rfl⟩ := Prod.mk.inj (Except.ok.inj hput)
      simp [hn]
  · next r hr =>
      obtain ⟨⟨card₁, a⟩, hp, hput⟩ := bind_eq_ok.mp hput
      obtain ⟨-, rfl⟩ := Prod.mk.inj (Except.ok.inj hput)
      obtain ⟨rfl, hle⟩ := put_eq_ok hp
      simpa [hr, Access.Inside] using hle

theorem formatRegion_pos {h : Machine} {b : Request} {image : Memory}
    (hf : formatRegion h b = .ok image) : 0 < b.ringSize := by
  unfold formatRegion at hf
  split at hf
  · split at hf
    · cases hf
    · next hr =>
        exact Nat.lt_of_lt_of_le (by decide) (planEnd_le_of_format hr)
  · cases hf

theorem accepted_of_ok {h : Machine} {b : Request} {l : Loaded} (hok : doBoot h b = .ok l) :
    Accepted b l := by
  obtain ⟨⟨⟩, hcheck, hok⟩ := bind_eq_ok.mp hok
  obtain ⟨image, hformat, hok⟩ := bind_eq_ok.mp hok
  obtain ⟨⟨card₁, region⟩, hregion, hok⟩ := bind_eq_ok.mp hok
  obtain ⟨⟨card₂, kernel⟩, hkernel, hok⟩ := bind_eq_ok.mp hok
  obtain ⟨⟨card₃, cmdline⟩, hcmdline, hok⟩ := bind_eq_ok.mp hok
  obtain ⟨⟨card₄, initrd⟩, hinitrd, hok⟩ := bind_eq_ok.mp hok
  obtain rfl := Except.ok.inj hok
  obtain ⟨hpos, hle⟩ := checkRequest_bootAddr hcheck
  obtain ⟨hi, hr⟩ := checkRequest_parts hcheck
  obtain ⟨rfl, inRegion⟩ := put_eq_ok hregion
  obtain ⟨rfl, inKernel⟩ := put_eq_ok hkernel
  obtain ⟨rfl, inCmdline⟩ := put_eq_ok hcmdline
  obtain ⟨rfl, inInitrd⟩ := putInitrd_eq_ok hinitrd
  refine ⟨hpos, hle, hi, hr, formatRegion_pos hformat, by simp, by simp, rfl, rfl, rfl, ?_⟩
  intro a ha
  simp only [Loaded.ranges, List.mem_append, List.mem_cons, List.not_mem_nil, or_false,
    Option.mem_toList] at ha
  rcases ha with (rfl | rfl | rfl) | ha
  · exact inRegion
  · exact inKernel
  · exact inCmdline
  · exact inInitrd a ha

open Ring Disk

/-! ## the header's fields -/

theorem read_loaderType (m : Memory) {a : Nat} (h : offTypeOfLoader < a) :
    rmRead32 (fun i => if i = offTypeOfLoader then 0xff else m i) a = rmRead32 m a := by
  have hne : ∀ k, a + k ≠ offTypeOfLoader := fun k => by omega
  simp [rmRead32, hne, show a ≠ offTypeOfLoader by omega]

theorem patchHeader_cmdLinePtr (b : Request) :
    rmRead32 (patchHeader b) offCmdLinePtr = low b.cmdlineAddr := by
  rw [patchHeader, read_loaderType _ (by decide), read_fb32_same]

theorem patchHeader_ramdisk {b : Request} {r : Image} (hr : b.initrd = some r) :
    rmRead32 (patchHeader b) offRamdiskImage = low b.initrdAddr ∧
      rmRead32 (patchHeader b) offRamdiskSize = low r.len := by
  simp only [patchHeader, hr]
  constructor
  · rw [read_loaderType _ (by decide), read_fb32_ne _ _ (by decide), read_fb32_ne _ _ (by decide),
      read_fb32_same]
  · rw [read_loaderType _ (by decide), read_fb32_ne _ _ (by decide), read_fb32_same]

/-- A field of 32 bits names a value exactly when the value fits. -/
theorem low_toNat_iff {n : Nat} : (low n).toNat = n ↔ n < 2 ^ 32 := by
  rw [low, BitVec.toNat_ofNat]
  constructor
  · intro h
    rw [← h]
    exact Nat.mod_lt _ (by decide)
  · exact Nat.mod_eq_of_lt

/-! ## the ranges of an accepted boot -/

theorem buildCmdline_pos (b : Request) : 0 < (buildCmdline b).length := by
  simp only [buildCmdline, List.length_append, List.length_singleton]
  omega

section accepted

variable {b : Request} {l : Loaded}

theorem Accepted.cmdlineAddr_eq (h : Accepted b l) :
    b.cmdlineAddr = bootAddr b.download + b.kernel.len := by
  have hle := h.boot_le
  have hlt := b.kernel.lt
  exact add64_eq (by omega)

theorem Accepted.initrdAddr_eq (h : Accepted b l) :
    b.initrdAddr = 2 * bootAddr b.download := by
  have hle := h.boot_le
  rw [Request.initrdAddr, add64_eq (by omega)]
  omega

theorem Accepted.insides (h : Accepted b l) :
    b.ringBase + b.ringSize ≤ gddrBytes ∧ bootAddr b.download + b.kernel.len ≤ gddrBytes ∧
      b.cmdlineAddr + (buildCmdline b).length ≤ gddrBytes ∧
      ∀ r, b.initrd = some r → b.initrdAddr + r.len ≤ gddrBytes := by
  have hin := h.inside
  simp only [Loaded.ranges, h.region, h.kernel, h.cmdline, h.initrd, Access.Inside] at hin
  refine ⟨hin ⟨b.ringBase, b.ringSize⟩ (by simp), hin ⟨bootAddr b.download, b.kernel.len⟩ (by simp),
    hin ⟨b.cmdlineAddr, (buildCmdline b).length⟩ (by simp), ?_⟩
  intro r hr
  exact hin ⟨b.initrdAddr, r.len⟩ (by simp [hr])

/-- An initramfs lies behind the command line. -/
theorem Accepted.initrd_after (h : Accepted b l) {r : Image} (hr : b.initrd = some r) :
    bootAddr b.download + b.kernel.len + (buildCmdline b).length ≤ 2 * bootAddr b.download := by
  obtain ⟨-, -, hc, -⟩ := h.insides
  have hpos := buildCmdline_pos b
  have hok := h.initrd_ok
  rw [h.cmdlineAddr_eq] at hc
  unfold gddrBytes at hc
  simp only [checkInitrd, hr] at hok
  split at hok
  · cases hok
  · next hle =>
      rw [h.initrdAddr_eq, h.cmdlineAddr_eq, add64_eq (a := _ + _) (by omega),
        add64_eq (by omega)] at hle
      omega

/-- The region lies below the load address or from the end of the initramfs on,
or of where it would be. -/
theorem Accepted.region_clear (h : Accepted b l) :
    (b.ringBase < bootAddr b.download ∧ b.ringBase + b.ringSize ≤ bootAddr b.download) ∨
      (bootAddr b.download ≤ b.ringBase ∧ 2 * bootAddr b.download + b.initrdLen ≤ b.ringBase) := by
  obtain ⟨hr, -, -, hi⟩ := h.insides
  have hok := h.region_ok
  have hlen : b.initrdAddr + b.initrdLen < 2 ^ 64 := by
    have hle := h.boot_le
    rw [Request.initrdLen]
    cases hb : b.initrd with
    | none =>
        rw [h.initrdAddr_eq]
        simp
        omega
    | some r =>
        have := hi r hb
        unfold gddrBytes at this
        simp
        omega
  unfold gddrBytes at hr
  unfold checkRegion at hok
  rw [add64_eq (show b.ringBase + b.ringSize < 2 ^ 64 by omega), add64_eq hlen,
    h.initrdAddr_eq] at hok
  split at hok <;> split at hok
  · cases hok
  · omega
  · cases hok
  · omega

/-- A placement with room leaves everything apart. -/
theorem placedApart_of_roomy (h : Accepted b l) (hroom : b.Roomy) : PlacedApart b l := by
  obtain ⟨hbuf, hroom⟩ := hroom
  have hclear := h.region_clear
  have hpos := h.boot_pos
  have hca := h.cmdlineAddr_eq
  have hia := h.initrdAddr_eq
  cases hr : b.initrd with
  | none =>
      rw [hr] at hroom
      obtain ⟨hlt, hend⟩ := hroom
      refine ⟨?_, h.inside, ?_, ?_, hbuf⟩
      · simp only [Loaded.ranges, h.region, h.kernel, h.cmdline, h.initrd, hr, Option.map_none,
          Option.toList_none, List.append_nil, hca]
        simp [Disjoint]
        omega
      · rw [h.header, h.cmdline, patchHeader_cmdLinePtr, low_toNat_iff, hca]
        exact hlt
      · simp [h.initrd, hr]
  | some r =>
      rw [hr] at hroom
      have hafter := h.initrd_after hr
      have hlen : b.initrdLen = r.len := by simp [Request.initrdLen, hr]
      obtain ⟨hboot, hrlt⟩ := hroom
      refine ⟨?_, h.inside, ?_, ?_, hbuf⟩
      · simp only [Loaded.ranges, h.region, h.kernel, h.cmdline, h.initrd, hr, Option.map_some,
          Option.toList_some, hca, hia]
        simp [Disjoint]
        omega
      · have hbuilt := buildCmdline_pos b
        rw [h.header, h.cmdline, patchHeader_cmdLinePtr, low_toNat_iff, hca]
        omega
      · obtain ⟨himage, hsize⟩ := patchHeader_ramdisk hr
        simp only [h.initrd, hr, h.header, himage, hsize]
        simp only [Option.map_some, Option.mem_def, Option.some.injEq, forall_eq', low_toNat_iff,
          hia]
        omega

theorem roomy_of_placedApart (h : Accepted b l) (hp : PlacedApart b l) : b.Roomy := by
  refine ⟨hp.buffer, ?_⟩
  have hclear := h.region_clear
  have hpos := h.boot_pos
  have hsize := h.size_pos
  have hca := h.cmdlineAddr_eq
  have hia := h.initrdAddr_eq
  have hptr := hp.cmdLinePtr
  rw [h.header, h.cmdline, patchHeader_cmdLinePtr, low_toNat_iff, hca] at hptr
  cases hr : b.initrd with
  | none =>
      refine ⟨hptr, ?_⟩
      have hapart := hp.apart
      simp only [Loaded.ranges, h.region, h.kernel, h.cmdline, h.initrd, hr, Option.map_none,
        Option.toList_none, List.append_nil, hca] at hapart
      simp [Disjoint] at hapart
      omega
  | some r =>
      obtain ⟨himage, hrsize⟩ := patchHeader_ramdisk hr
      have hram := hp.ramdisk ⟨b.initrdAddr, r.len⟩ (by simp [h.initrd, hr])
      rw [h.header, himage, hrsize, low_toNat_iff, low_toNat_iff, hia] at hram
      exact ⟨by omega, hram.2⟩

end accepted

/-- A boot that goes through has placed everything apart exactly when there was
room for what its checks leave out. -/
theorem placedApart_iff {h : Machine} {b : Request} {l : Loaded} (hok : doBoot h b = .ok l) :
    PlacedApart b l ↔ b.Roomy :=
  ⟨roomy_of_placedApart (accepted_of_ok hok), placedApart_of_roomy (accepted_of_ok hok)⟩

open Ring Disk

/-! ## boots that go through -/

/-- A write inside the card's memory and the aperture is made. -/
theorem put_ok {h : Machine} {dst : Nat} {bs : List UInt8} (card : Memory)
    (hgddr : dst + bs.length ≤ gddrBytes) (haper : gddrBytes ≤ h.aperLen) :
    put h card dst bs = .ok (Circular.write card dst bs, ⟨dst, bs.length⟩) := by
  rw [put, writeCardMemory_eq card hgddr (Nat.le_trans hgddr haper)]

/-- A request whose checks pass and whose ranges lie inside the card's memory
goes through. -/
theorem exists_doBoot_eq_ok {h : Machine} {b : Request} (hcheck : checkRequest b = .ok ())
    (hmap : h.maps b.ringSize = true) (hfit : planEnd defaultPlan ≤ b.ringSize)
    (haper : gddrBytes ≤ h.aperLen) (hregion : b.ringBase + b.ringSize ≤ gddrBytes)
    (hkernel : bootAddr b.download + b.kernel.len ≤ gddrBytes)
    (hcmdline : b.cmdlineAddr + (buildCmdline b).length ≤ gddrBytes)
    (hinitrd : ∀ r, b.initrd = some r → b.initrdAddr + r.len ≤ gddrBytes) :
    ∃ l, doBoot h b = .ok l := by
  obtain ⟨image, himage, -⟩ := regionFormat_eq_some h.info hfit
  have hformat : formatRegion h b = .ok image := by simp [formatRegion, hmap, himage]
  have hput : ∀ card, ∃ w, putInitrd h card b = .ok w := by
    intro card
    unfold putInitrd
    cases hr : b.initrd with
    | none => exact ⟨_, rfl⟩
    | some r =>
        have hle := hinitrd r hr
        simp only
        rw [put_ok card (by simpa using hle) haper]
        exact ⟨_, rfl⟩
  unfold doBoot
  rw [hcheck, hformat]
  simp only [bind, Except.bind]
  rw [put_ok _ (by simpa using hregion) haper]
  simp only
  rw [put_ok _ (by simpa using hkernel) haper]
  simp only
  rw [put_ok _ hcmdline haper]
  simp only
  obtain ⟨w, hw⟩ := hput (Circular.write (Circular.write (Circular.write h.card b.ringBase
    (Circular.read image 0 b.ringSize)) (bootAddr b.download)
    (Circular.read (patchHeader b) 0 b.kernel.len)) b.cmdlineAddr (buildCmdline b))
  rw [hw]
  exact ⟨_, rfl⟩

/-- The checks one by one. -/
theorem checkRequest_eq_ok {b : Request} {max : Nat} (hboot : 0 < bootAddr b.download)
    (hle : bootAddr b.download ≤ 0x80000000) (hparse : parseBzimage b.kernel = .ok max)
    (hlen : (buildCmdline b).length - 1 ≤ max) (hi : checkInitrd b = .ok ())
    (hr : checkRegion b = .ok ()) : checkRequest b = .ok () := by
  rw [checkRequest, if_neg (by omega), hparse]
  simp only [bind, Except.bind]
  rw [if_neg (by omega), hi]
  exact hr

theorem checkInitrd_eq_ok {b : Request} {r : Image} (hr : b.initrd = some r)
    (hclear : add64 (add64 b.cmdlineAddr ((buildCmdline b).length - 1)) 1 ≤ b.initrdAddr)
    (hin : add64 b.initrdAddr r.len ≤ gddrBytes) : checkInitrd b = .ok () := by
  simp [checkInitrd, hr, Nat.not_lt.mpr hclear, Nat.not_lt.mpr hin]

/-- A card with an aperture of 8 GiB, on a machine that grants every mapping. -/
def idleMachine : Machine := ⟨fun _ => 0, 8 <<< 30, fun _ => true, ⟨0, 0, 0⟩⟩

/-- The header of a kernel of protocol 2.15 that allows a command line of 2047
bytes. -/
def kernelHeader : Memory :=
  Memory.ofWords [(offBootFlag, 0xaa55#32), (offHeader, 0x53726448#32), (offVersion, 0x20f#32),
    (offCmdlineSize, 2047#32)]

/-- A kernel of this many MiB. -/
def kernelOf (mib : Nat) (h : 0 < mib ∧ mib < 1024) : Image where
  len := mib * 1048576
  bytes := kernelHeader
  pos := by omega
  lt := by omega

theorem parse_kernelOf {mib : Nat} (h : 0 < mib ∧ mib < 1024) :
    parseBzimage (kernelOf mib h) = .ok 2047 := by
  have hlen : ¬ mib * 1048576 < minImageLen := by
    unfold minImageLen
    omega
  have hflag : read16 kernelHeader offBootFlag = 0xaa55 := by decide
  have hmagic : rmRead32 kernelHeader offHeader = 0x53726448#32 := by decide
  have hversion : read16 kernelHeader offVersion = 0x20f := by decide
  have hsize : rmRead32 kernelHeader offCmdlineSize = 2047#32 := by decide
  simp [parseBzimage, kernelOf, hlen, hflag, hmagic, hversion, hsize]

/-- The default command line and region size on a card that loads at 64 MiB. -/
def requestOf (kernel : Image) (initrd : Option Image) (ringBase : Nat) (h : ringBase < 2 ^ 64) :
    Request where
  download := 0x4000001#32
  kernel := kernel
  initrd := initrd
  cmdline := text "earlyprintk=phiring,keep loglevel=8"
  raw := false
  ringBase := ringBase
  ringSize := 16777216
  base_lt := h
  size_lt := by decide

/-- A kernel of 8 MiB and an initramfs of 32 MiB, with the default region. -/
def usual : Request :=
  requestOf (kernelOf 8 (by decide)) (some (kernelOf 32 (by decide))) 0x10000000 (by decide)

/-- A kernel of 80 MiB with its initramfs built in, and a region at 128 MiB. -/
def builtIn : Request := requestOf (kernelOf 80 (by decide)) none 0x8000000 (by decide)

theorem placedApart_usual : ∃ l, doBoot idleMachine usual = .ok l ∧ PlacedApart usual l := by
  have hinitrd : ∀ r, usual.initrd = some r → usual.initrdAddr + r.len ≤ gddrBytes := by
    intro r hr
    obtain rfl := Option.some.inj hr
    decide
  obtain ⟨l, hl⟩ := exists_doBoot_eq_ok (h := idleMachine) (b := usual)
    (checkRequest_eq_ok (by decide) (by decide) (parse_kernelOf (by decide)) (by decide)
      (checkInitrd_eq_ok rfl (by decide) (by decide)) rfl) rfl (by decide)
    (by decide) (by decide) (by decide) (by decide) hinitrd
  have hroom : usual.Roomy := ⟨by decide, by decide, by decide⟩
  exact ⟨l, hl, (placedApart_iff hl).mpr hroom⟩

/-- The region at 128 MiB lies in the middle of the kernel. -/
theorem region_in_kernel :
    ∃ l, doBoot idleMachine builtIn = .ok l ∧ ¬ PlacedApart builtIn l := by
  have hinitrd : ∀ r, builtIn.initrd = some r → builtIn.initrdAddr + r.len ≤ gddrBytes := by
    intro r hr
    cases hr
  obtain ⟨l, hl⟩ := exists_doBoot_eq_ok (h := idleMachine) (b := builtIn)
    (checkRequest_eq_ok (by decide) (by decide) (parse_kernelOf (by decide)) (by decide)
      (by rfl) (by rfl)) rfl (by decide)
    (by decide) (by decide) (by decide) (by decide) hinitrd
  refine ⟨l, hl, fun hp => ?_⟩
  obtain ⟨-, -, hclear⟩ := roomy_of_placedApart (accepted_of_ok hl) hp
  revert hclear
  decide

end Phi.Boot
