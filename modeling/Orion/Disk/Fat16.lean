import Orion.Machine

/-!
# Block devices and FAT16 volumes (`kernel/blockdev.c`, `kernel/fat16.c`)

A driver's `read` gets a block number and a count; it fails, or it fills the caller's buffer.  What
it does may depend on all calls before, so the functions pass the list of these calls along: it is
both the past that the driver knows and the record of what was asked of it.
-/

namespace Orion.Disk

/-! ## Block devices -/

/-- One call of a driver's `read`. -/
structure Call where
  lba : ℕ
  count : ℕ
  deriving Repr, DecidableEq

/-- The contents of a buffer. -/
abbrev Bytes := ℕ → UInt8

/-- `orion_blockdev_t`; `none` is a missing `read` function. -/
structure Blockdev where
  named : Bool
  blockSize : ℕ
  blockCount : ℕ
  read : Option (List Call → ℕ → ℕ → Option Bytes)
  blockSize_lt : blockSize < 2 ^ 32
  blockCount_lt : blockCount < 2 ^ 64

def blockdevRangeValid (dev : Blockdev) (lba count : ℕ) : Bool :=
  count ≠ 0 && lba < dev.blockCount && count ≤ dev.blockCount - lba

def blockdevValidate (dev : Blockdev) : Bool :=
  dev.named && dev.blockSize ≠ 0 && dev.blockCount ≠ 0 && dev.read.isSome

def blockdevRead (dev : Blockdev) (lba count : ℕ) (calls : List Call) :
    Option Bytes × List Call :=
  if blockdevValidate dev && blockdevRangeValid dev lba count then
    match dev.read with
    | none => (none, calls)
    | some read => (read calls lba count, calls ++ [⟨lba, count⟩])
  else (none, calls)

/-! ## Mounting -/

def readLe16 (b : Bytes) (i : ℕ) : ℕ := (b i).toNat + (b (i + 1)).toNat * 2 ^ 8

def readLe32 (b : Bytes) (i : ℕ) : ℕ :=
  (b i).toNat + (b (i + 1)).toNat * 2 ^ 8 + (b (i + 2)).toNat * 2 ^ 16 + (b (i + 3)).toNat * 2 ^ 24

def isPowerOfTwoU8 (value : UInt8) : Bool := value ≠ 0 && value &&& (value - 1) = 0

/-- `orion_fat16_t`. -/
structure Fat16 where
  dev : Blockdev
  volumeStartLba : ℕ
  totalSectors : ℕ
  bytesPerSector : ℕ
  sectorsPerCluster : ℕ
  reservedSectors : ℕ
  fatCount : ℕ
  rootEntryCount : ℕ
  sectorsPerFat : ℕ
  rootDirSectors : ℕ
  dataClusterCount : ℕ
  firstFatLba : ℕ
  firstRootLba : ℕ
  firstDataLba : ℕ

def bootTotalSectors (boot : Bytes) : ℕ :=
  if readLe16 boot 19 ≠ 0 then readLe16 boot 19 else readLe32 boot 32

/-- The volume that a boot sector describes, if it passes the checks. -/
def mountBoot (dev : Blockdev) (volumeStartLba : ℕ) (boot : Bytes) : Option Fat16 :=
  let bytesPerSector := readLe16 boot 11
  let sectorsPerCluster := boot 13
  let reservedSectors := readLe16 boot 14
  let fatCount := (boot 16).toNat
  let rootEntryCount := readLe16 boot 17
  let sectorsPerFat := readLe16 boot 22
  let totalSectors := bootTotalSectors boot
  if boot 510 ≠ 0x55 ∨ boot 511 ≠ 0xaa then none
  else if bytesPerSector ≠ dev.blockSize then none
  else if isPowerOfTwoU8 sectorsPerCluster = false ∨ sectorsPerCluster > 128 then none
  else if reservedSectors = 0 ∨ fatCount = 0 ∨ rootEntryCount = 0 ∨ sectorsPerFat = 0 ∨
      totalSectors = 0 then none
  else
    let rootDirSectors := (rootEntryCount * 32 + bytesPerSector - 1) / bytesPerSector
    let overheadSectors := u64 (reservedSectors + fatCount * sectorsPerFat + rootDirSectors)
    if totalSectors ≤ overheadSectors then none
    else
      let dataSectors := totalSectors - overheadSectors
      let clusterCount := u32 (dataSectors / sectorsPerCluster.toNat)
      if clusterCount < 4085 ∨ clusterCount ≥ 65525 then none
      else if volumeStartLba ≥ dev.blockCount then none
      else if totalSectors > dev.blockCount - volumeStartLba then none
      else
        let firstFatLba := u64 (volumeStartLba + reservedSectors)
        let firstRootLba := u64 (firstFatLba + fatCount * sectorsPerFat)
        some {
          dev := dev
          volumeStartLba := volumeStartLba
          totalSectors := totalSectors
          bytesPerSector := bytesPerSector
          sectorsPerCluster := sectorsPerCluster.toNat
          reservedSectors := reservedSectors
          fatCount := fatCount
          rootEntryCount := rootEntryCount
          sectorsPerFat := sectorsPerFat
          rootDirSectors := rootDirSectors
          dataClusterCount := clusterCount
          firstFatLba := firstFatLba
          firstRootLba := firstRootLba
          firstDataLba := u64 (firstRootLba + rootDirSectors) }

/-- Returns 0 or -1, and `*out`. -/
def fat16Mount (dev : Blockdev) (volumeStartLba : ℕ) (out : Fat16) (calls : List Call) :
    ℤ × Fat16 × List Call :=
  if blockdevValidate dev = false ∨ dev.blockSize ≠ 512 then (-1, out, calls)
  else
    match blockdevRead dev volumeStartLba 1 calls with
    | (none, calls) => (-1, out, calls)
    | (some boot, calls) =>
      match mountBoot dev volumeStartLba boot with
      | none => (-1, out, calls)
      | some mounted => (0, mounted, calls)

/-! ## The root directory -/

def fat16ReadRootSector (fs : Fat16) (sectorIndex : ℕ) (calls : List Call) :
    Option Bytes × List Call :=
  if sectorIndex ≥ fs.rootDirSectors then (none, calls)
  else blockdevRead fs.dev (u64 (fs.firstRootLba + sectorIndex)) 1 calls

/-- `orion_fat16_dirent_t`. -/
structure Dirent where
  name : List UInt8
  attributes : UInt8
  firstCluster : ℕ
  size : ℕ
  deriving Repr, DecidableEq

/-- -1, 1, and 0 with the entry. -/
inductive Found where
  | error
  | absent
  | entry (d : Dirent)
  deriving Repr, DecidableEq

/-- The 11 bytes of the name of the entry at `e`. -/
def entryName (sector : Bytes) (e : ℕ) : List UInt8 := (List.range 11).map fun i => sector (e + i)

def direntAt (sector : Bytes) (e : ℕ) : Dirent :=
  ⟨entryName sector e, sector (e + 11), readLe16 sector (e + 26), readLe32 sector (e + 28)⟩

/-- The loop over the entries of a sector, with the number of entries left in the sector: a result,
or the number of entries seen. -/
def findEntries (name83 : List UInt8) (rootEntryCount : ℕ) (sector : Bytes) :
    ℕ → ℕ → ℕ → Found ⊕ ℕ
  | 0, _, seen => .inr seen
  | left + 1, entryIndex, seen =>
    if seen < rootEntryCount then
      let e := entryIndex * 32
      let attributes := sector (e + 11)
      if sector e = 0 then .inl .absent
      else if sector e = 0xe5 ∨ attributes = 0x0f ∨ attributes &&& 0x08 ≠ 0 ∨
          entryName sector e ≠ name83 then
        findEntries name83 rootEntryCount sector left (entryIndex + 1) (seen + 1)
      else .inl (.entry (direntAt sector e))
    else .inr seen

/-- The loop over the sectors of the root directory, with the number of sectors left. -/
def findSectors (fs : Fat16) (name83 : List UInt8) : ℕ → ℕ → ℕ → List Call → Found × List Call
  | 0, _, _, calls => (.absent, calls)
  | left + 1, sectorIndex, seen, calls =>
    if seen < fs.rootEntryCount then
      match fat16ReadRootSector fs sectorIndex calls with
      | (none, calls) => (.error, calls)
      | (some sector, calls) =>
        match findEntries name83 fs.rootEntryCount sector (fs.bytesPerSector / 32) 0 seen with
        | .inl found => (found, calls)
        | .inr seen => findSectors fs name83 left (sectorIndex + 1) seen calls
    else (.absent, calls)

def fat16FindRoot (fs : Fat16) (name83 : List UInt8) (calls : List Call) : Found × List Call :=
  if fs.bytesPerSector ≠ 512 then (.error, calls)
  else findSectors fs name83 fs.rootDirSectors 0 0 calls

end Orion.Disk
