import Orion.Legacy.Image

/-!
# The second stage (`compat/i686-bios/stage2.S`)

The loader reads the header sector and then the kernel, one sector at a time, into the staging area
at `0x10000`; it chooses a video mode, describes the memory and, in protected mode, copies the kernel
to `0x100000`.  Registers and variables have the widths of the code.  Memory is addressed physically;
code, stack and variables of the loader lie elsewhere.  The BIOS is a parameter.
-/

namespace Orion.Legacy

/-! ## Memory -/

abbrev Mem := ℕ → UInt8

/-- The `len` bytes from `base` on become those of `f`. -/
def Mem.fill (m : Mem) (base len : ℕ) (f : ℕ → UInt8) : Mem :=
  fun a => if base ≤ a ∧ a < base + len then f (a - base) else m a

def Mem.word (m : Mem) (a : ℕ) : UInt16 := (m a).toUInt16 + (m (a + 1)).toUInt16 <<< 8

def Mem.dword (m : Mem) (a : ℕ) : UInt32 := (m.word a).toUInt32 + (m.word (a + 2)).toUInt32 <<< 16

/-- `movl $v, a` -/
def Mem.poke (m : Mem) (a : ℕ) (v : UInt32) : Mem :=
  m.fill a 4 fun i => (v >>> (UInt32.ofNat (8 * i))).toUInt8

/-- `rep movsb` with `n` in `ecx`. -/
def repMovsb : ℕ → ℕ → ℕ → Mem → Mem
  | 0, _, _, m => m
  | n + 1, esi, edi, m => repMovsb n (esi + 1) (edi + 1) (m.fill edi 1 fun _ => m esi)

/-! ## The BIOS -/

/-- The disk address packet. -/
structure Dap where
  count : UInt16
  offset : UInt16
  segment : UInt16
  lba : ℕ
  deriving Repr, DecidableEq

/-- Cylinder, head and sector in the registers of the call. -/
structure Chs where
  ch : UInt8
  cl : UInt8
  dh : UInt8
  deriving Repr, DecidableEq

/-- The calls of the loader.  A `Bool` in a result is the carry flag. -/
structure Bios where
  /-- `AH=41`: carry, `BX` and `CX`. -/
  checkExtensions : UInt8 → Bool × UInt16 × UInt16
  /-- `AH=08`: carry, `CL` and `DH`. -/
  driveParameters : UInt8 → Bool × UInt8 × UInt8
  /-- `AH=42` -/
  readExtended : UInt8 → Dap → Mem → Bool × Mem
  /-- `AH=02`: drive, number of sectors, address, `ES` and `BX`. -/
  readSectors : UInt8 → UInt8 → Chs → UInt16 → UInt16 → Mem → Bool × Mem
  /-- `AX=4F01`: `AX` and the mode information block. -/
  vbeModeInfo : UInt16 → Mem → UInt16 × (ℕ → UInt8)
  /-- `AX=4F02` -/
  vbeSetMode : UInt16 → UInt16
  /-- `AX=E801`: carry, `AX`, `BX` and `DX`. -/
  memorySize : Bool × UInt16 × UInt16 × UInt16

/-! ## The disk -/

def hdrBuf : ℕ := 0x4000

def vbeBuf : ℕ := 0x5000

def memdescBuf : ℕ := 0x6000

def bootinfoBuf : ℕ := 0x7000

def kernelTmpSeg : UInt16 := 0x1000

/-- The variables at the end of the loader. -/
structure Vars where
  bootDrive : UInt8
  eddOk : Bool
  sectorsPerTrack : UInt16
  headCount : UInt16
  currentLba : UInt16
  deriving Repr, DecidableEq

section

variable (bios : Bios)

/-- The test for the extensions. -/
def eddCheck (drive : UInt8) : Bool :=
  if drive < 0x80 then false
  else
    let (carry, bx, cx) := bios.checkExtensions drive
    if carry then false else if bx ≠ 0xaa55 then false else cx &&& 1 ≠ 0

def diskInit (drive : UInt8) : Vars :=
  let v : Vars := ⟨drive, eddCheck bios drive, 18, 2, 0⟩
  let (carry, cl, dh) := bios.driveParameters drive
  let ax := cl.toUInt16 &&& 0x003f
  if carry then v
  else if ax = 0 then v
  else { v with sectorsPerTrack := ax, headCount := dh.toUInt16 + 1 }

/-- The address in the fallback; `none` is a divide error. -/
def chsOf (v : Vars) : Option Chs :=
  if v.sectorsPerTrack = 0 ∨ v.headCount = 0 then none
  else
    let ax := v.currentLba / v.sectorsPerTrack
    let cx := v.currentLba % v.sectorsPerTrack + 1
    let dx := ax % v.headCount
    let ax := ax / v.headCount
    let ah := ((ax >>> 8).toUInt8 &&& 0x03) <<< 6
    some ⟨ax.toUInt8, cx.toUInt8 ||| ah, dx.toUInt8⟩

/-- `read_one` into `ES:BX`: the carry flag and the memory. -/
def readOne (v : Vars) (es bx : UInt16) (m : Mem) : Option (Bool × Mem) :=
  let first :=
    if v.eddOk then bios.readExtended v.bootDrive ⟨1, bx, es, v.currentLba.toNat⟩ m else (true, m)
  if first.1 = false then some first
  else (chsOf v).map fun chs => bios.readSectors v.bootDrive 1 chs es bx first.2

/-! ## The kernel -/

/-- Where the loader gives up. -/
inductive Stop where
  | divideError
  | diskFail
  | headerFail
  | vbeFail
  deriving Repr, DecidableEq

/-- A sector that was read, and where it was put. -/
structure Staged where
  lba : ℕ
  address : ℕ
  deriving Repr, DecidableEq

/-- The load loop with `cx` rounds left. -/
def loadLoop : ℕ → Vars → UInt16 → Mem → List Staged → Except Stop (Mem × List Staged)
  | 0, _, _, m, staged => .ok (m, staged)
  | cx + 1, v, es, m, staged =>
    match readOne bios v es 0 m with
    | none => .error .divideError
    | some (true, _) => .error .diskFail
    | some (false, m) =>
      loadLoop cx { v with currentLba := v.currentLba + 1 } (es + 0x20) m
        (staged ++ [⟨v.currentLba.toNat, es.toNat * 16⟩])

/-- From the start to the end of the load loop. -/
def loadKernel (drive : UInt8) (m : Mem) : Except Stop (Mem × List Staged) :=
  let v := diskInit bios drive
  match readOne bios { v with currentLba := 17 } 0x0400 0 m with
  | none => .error .divideError
  | some (true, _) => .error .diskFail
  | some (false, m) =>
    if m.word hdrBuf ≠ 0x524f then .error .headerFail
    else if m.word (hdrBuf + 2) ≠ 0x324b then .error .headerFail
    else
      let cx := m.word (hdrBuf + 8)
      if cx = 0 then .error .headerFail
      else loadLoop bios cx.toNat { v with currentLba := UInt16.ofNat kernelLba } kernelTmpSeg m []

/-! ## Video mode and memory -/

/-- A mode that the kernel can draw in: 32 bits per pixel, or RGB565. -/
def modeOk (m : Mem) : Bool :=
  m.word vbeBuf &&& 0x0080 ≠ 0 &&
    (m (vbeBuf + 25) = 32 ||
      (m (vbeBuf + 25) = 16 && m (vbeBuf + 31) = 5 && m (vbeBuf + 32) = 11 && m (vbeBuf + 33) = 6 &&
        m (vbeBuf + 34) = 5 && m (vbeBuf + 35) = 5 && m (vbeBuf + 36) = 0))

/-- `try_vbe`: the carry flag and the memory. -/
def tryVbe (mode : UInt16) (m : Mem) : Bool × Mem :=
  let (ax, block) := bios.vbeModeInfo mode m
  let m := m.fill vbeBuf 256 block
  if ax ≠ 0x004f then (true, m)
  else if modeOk m = false then (true, m)
  else (bios.vbeSetMode (mode ||| 0x4000) ≠ 0x004f, m)

/-- The modes in turn; `none` if there is none. -/
def chooseMode : List UInt16 → Mem → Option Mem
  | [], _ => none
  | mode :: modes, m =>
    match tryVbe bios mode m with
    | (false, m) => some m
    | (true, m) => chooseMode modes m

def vbeModes : List UInt16 := [0x144, 0x143, 0x142, 0x117, 0x114, 0x111]

/-- The end of memory. -/
def memTop : UInt32 :=
  let (carry, ax, bx, dx) := bios.memorySize
  if carry then 0x04000000
  else if bx ≠ 0 then bx.toUInt32 <<< 16 + 0x01000000
  else if dx ≠ 0 then dx.toUInt32 <<< 16 + 0x01000000
  else
    let eax := ax.toUInt32 <<< 10 + 0x00100000
    if eax > 0x01000000 then eax else 0x04000000

/-- The stores to the memory descriptor. -/
def memdescStores : List (ℕ × UInt32) :=
  [(memdescBuf, 0), (memdescBuf + 4, 0), (memdescBuf, 7), (memdescBuf + 8, 0x01000000),
    (memdescBuf + 12, 0), (memdescBuf + 16, 0), (memdescBuf + 20, 0), (memdescBuf + 24, 0),
    (memdescBuf + 28, 0), (memdescBuf + 32, 0), (memdescBuf + 36, 0),
    (memdescBuf + 24, (memTop bios - 0x01000000) >>> 12)]

/-- The stores to `OrionBootInfo`. -/
def bootinfoStores (m : Mem) : List (ℕ × UInt32) :=
  let pitch := if m.word (vbeBuf + 50) ≠ 0 then m.word (vbeBuf + 50) else m.word (vbeBuf + 16)
  let height := m.word (vbeBuf + 20)
  let rgb565 : Bool := m (vbeBuf + 25) = 16
  [(bootinfoBuf, m.dword (vbeBuf + 40)), (bootinfoBuf + 4, 0),
    (bootinfoBuf + 8, pitch.toUInt32 * height.toUInt32), (bootinfoBuf + 12, 0),
    (bootinfoBuf + 16, (m.word (vbeBuf + 18)).toUInt32), (bootinfoBuf + 20, height.toUInt32),
    (bootinfoBuf + 24, if rgb565 then pitch.toUInt32 >>> 1 else pitch.toUInt32 >>> 2),
    (bootinfoBuf + 28, if rgb565 then 0x100 else 1),
    (bootinfoBuf + 32, UInt32.ofNat memdescBuf), (bootinfoBuf + 36, 0), (bootinfoBuf + 40, 40),
    (bootinfoBuf + 44, 0), (bootinfoBuf + 48, 40), (bootinfoBuf + 52, 0), (bootinfoBuf + 56, 1),
    (bootinfoBuf + 60, 0)]

def Mem.store (m : Mem) (stores : List (ℕ × UInt32)) : Mem :=
  stores.foldl (fun m s => m.poke s.1 s.2) m

/-- Everything between the load loop and protected mode. -/
def prepare (m : Mem) : Option Mem :=
  (chooseMode bios vbeModes m).map fun m =>
    let m := m.store (memdescStores bios)
    m.store (bootinfoStores m)

/-- `pm_entry`, up to the jump to the kernel. -/
def pmEntry (m : Mem) : Mem := repMovsb (m.dword (hdrBuf + 4)).toNat 0x00010000 0x00100000 m

/-- The memory when the kernel is entered. -/
def stage2 (drive : UInt8) (m : Mem) : Except Stop Mem :=
  match loadKernel bios drive m with
  | .error stop => .error stop
  | .ok (m, _) =>
    match prepare bios m with
    | none => .error .vbeFail
    | some m => .ok (pmEntry m)

end

end Orion.Legacy
