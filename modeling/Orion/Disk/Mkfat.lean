import Orion.Disk.Fat16
import Orion.Lib.Splice
import Orion.Lib.Text

/-!
# The image builder (`tools/mkfat.py`)

Byte arrays are lists, `buf[off:off + len(blob)] = blob` is `splice` and several of them in a row are
a `layout`.  `math.ceil` of a quotient by a
power of two is exact for the sizes that occur, and every value that is packed into 16 or 32 bits
fits there.  A `SystemExit` is `none`.
-/

namespace Orion.Disk.Mkfat

open Orion.Lib

/-! ## Geometry -/

def bps : ℕ := 512

def reserved : ℕ := 4

def nfats : ℕ := 2

def rootEntries : ℕ := 512

def rootSecs : ℕ := (rootEntries * 32 + bps - 1) / bps

def fat16MinClusters : ℕ := 4085

def fat16MaxClusters : ℕ := 65524

/-- `math.ceil(a / b)`. -/
def ceilDiv (a b : ℕ) : ℕ := (a + b - 1) / b

/-- What `geometry` returns. -/
structure Geometry where
  totalSectors : ℕ
  spc : ℕ
  fatSectors : ℕ
  clusters : ℕ
  deriving Repr, DecidableEq

/-- `data_sectors`, with 0 for a negative number. -/
def dataSectors (totalSectors fatSectors : ℕ) : ℕ :=
  totalSectors - reserved - nfats * fatSectors - rootSecs

/-- The inner loop of `geometry`, with the rounds left; `none` when no round breaks out of it. -/
def searchFatSectors (totalSectors spc : ℕ) : ℕ → ℕ → Option ℕ
  | 0, _ => none
  | left + 1, fatSectors =>
    if dataSectors totalSectors fatSectors ≤ 0 then some fatSectors
    else
      let clusters := dataSectors totalSectors fatSectors / spc
      let neededFat := ceilDiv ((clusters + 2) * 2) bps
      if neededFat = fatSectors then some fatSectors
      else searchFatSectors totalSectors spc left neededFat

/-- One round of the outer loop. -/
def geometryFor (totalSectors spc : ℕ) : Option Geometry :=
  match searchFatSectors totalSectors spc 16 1 with
  | none => none
  | some fatSectors =>
    if dataSectors totalSectors fatSectors ≤ 0 then none
    else
      let clusters := dataSectors totalSectors fatSectors / spc
      if fat16MinClusters ≤ clusters ∧ clusters ≤ fat16MaxClusters then
        some ⟨totalSectors, spc, fatSectors, clusters⟩
      else none

def geometry (totalBytes : ℕ) : Option Geometry :=
  [1, 2, 4, 8, 16, 32, 64, 128].findSome? (geometryFor (totalBytes / bps))

/-- The clusters of a file of `len` bytes. -/
def fileClusters (len clusterBytes : ℕ) : ℕ := max 1 (ceilDiv len clusterBytes)

/-- One round of `choose_geometry`. -/
def geometryFits (boot kernel : List UInt8) (sizeMib : ℕ) : Option Geometry :=
  match geometry (sizeMib * 1024 * 1024) with
  | none => none
  | some g =>
    let clusterBytes := bps * g.spc
    let requiredClusters :=
      2 + fileClusters boot.length clusterBytes + fileClusters kernel.length clusterBytes
    if requiredClusters * 4 ≤ g.clusters * 3 then some g else none

/-- The values of `size_mib` from `MIN_IMAGE_MIB` to `MAX_IMAGE_MIB`. -/
def imageSizes : List ℕ := [4, 8, 16, 32, 64, 128, 256, 512]

def chooseGeometry (boot kernel : List UInt8) : Option Geometry :=
  imageSizes.findSome? (geometryFits boot kernel)

namespace Geometry

variable (g : Geometry)

/-- `CB`. -/
def cb : ℕ := bps * g.spc

/-- `DATA_START`. -/
def dataStart : ℕ := reserved + nfats * g.fatSectors + rootSecs

def rootOff : ℕ := (reserved + nfats * g.fatSectors) * bps

def dataOff : ℕ := g.dataStart * bps

end Geometry

/-! ## The boot sector -/

/-- `struct.pack_into('<H', …)`. -/
def packH (v : ℕ) : List UInt8 := [UInt8.ofNat v, UInt8.ofNat (v / 2 ^ 8)]

/-- `struct.pack_into('<I', …)`. -/
def packI (v : ℕ) : List UInt8 :=
  [UInt8.ofNat v, UInt8.ofNat (v / 2 ^ 8), UInt8.ofNat (v / 2 ^ 16), UInt8.ofNat (v / 2 ^ 24)]

/-- The 16-bit and the 32-bit count of sectors. -/
def sectorCounts (totsec : ℕ) : ℕ × ℕ := if totsec < 0x10000 then (totsec, 0) else (0, totsec)

/-- The writes to `bs`, with their offsets. -/
def bootFields (g : Geometry) : List (ℕ × List UInt8) :=
  [(0, [0xeb, 0x3c, 0x90]),
    (3, [0x4f, 0x52, 0x49, 0x4f, 0x4e, 0x46, 0x53, 0x20]),
    (11, packH bps),
    (13, [UInt8.ofNat g.spc]),
    (14, packH reserved),
    (16, [UInt8.ofNat nfats]),
    (17, packH rootEntries),
    (19, packH (sectorCounts g.totalSectors).1),
    (32, packI (sectorCounts g.totalSectors).2),
    (21, [0xf8]),
    (22, packH g.fatSectors),
    (24, packH 32),
    (26, packH 64),
    (36, [0x80]),
    (38, [0x29]),
    (39, packI 0x4f52494f),
    (43, [0x55, 0x4e, 0x5f, 0x4f, 0x52, 0x49, 0x4f, 0x4e, 0x20, 0x20, 0x20]),
    (54, [0x46, 0x41, 0x54, 0x31, 0x36, 0x20, 0x20, 0x20]),
    (510, [0x55, 0xaa])]

def bootSector (g : Geometry) : List UInt8 := layout (List.replicate bps 0) (bootFields g)

/-! ## The file allocation table -/

/-- The globals `fat` and `nextcl`. -/
structure Table where
  fat : List ℕ
  nextcl : ℕ
  deriving Repr, DecidableEq

def Table.init (g : Geometry) : Table :=
  ⟨((List.replicate (g.fatSectors * bps / 2) 0).set 0 0xfff8).set 1 0xffff, 2⟩

def ensureClusters (g : Geometry) (t : Table) (count : ℕ) : Bool :=
  1 ≤ count && t.nextcl + count ≤ g.clusters + 2 && t.nextcl + count ≤ t.fat.length

def allocDir (g : Geometry) (t : Table) : Option (ℕ × Table) :=
  if ensureClusters g t 1 then some (t.nextcl, ⟨t.fat.set t.nextcl 0xffff, t.nextcl + 1⟩) else none

/-- The loop of `alloc`. -/
def linkClusters (fat : List ℕ) (start n : ℕ) : List ℕ :=
  (List.range n).foldl
    (fun fat i => fat.set (start + i) (if i = n - 1 then 0xffff else start + i + 1)) fat

/-- Returns the first cluster; the number of clusters is `fileClusters`. -/
def alloc (g : Geometry) (t : Table) (blob : List UInt8) : Option (ℕ × Table) :=
  let n := fileClusters blob.length g.cb
  if ensureClusters g t n then
    some (t.nextcl, ⟨linkClusters t.fat t.nextcl n, t.nextcl + n⟩)
  else none

def fatBytes (g : Geometry) (fat : List ℕ) : List UInt8 :=
  fat.zipIdx.foldl (fun buf entry => splice buf (entry.2 * 2) (packH entry.1))
    (List.replicate (g.fatSectors * bps) 0)

/-! ## Directories and the image -/

/-- `ent`, with the padded names as bytes. -/
def ent (name83 : List UInt8) (attr : UInt8) (cluster size : ℕ) : List UInt8 :=
  layout (List.replicate 32 0)
    [(0, name83), (11, [attr]), (26, packH cluster), (28, packI size)]

def writeCluster (g : Geometry) (image : List UInt8) (cluster : ℕ) (blob : List UInt8) :
    List UInt8 :=
  splice image (g.dataOff + (cluster - 2) * g.cb) blob

/-- The loop that writes the clusters of a file. -/
def writeFile (g : Geometry) (image : List UInt8) (start : ℕ) (blob : List UInt8) : List UInt8 :=
  (List.range (fileClusters blob.length g.cb)).foldl
    (fun image i => writeCluster g image (start + i) ((blob.drop (i * g.cb)).take g.cb)) image

/-- A cluster with three directory entries. -/
def dirCluster (g : Geometry) (e0 e1 e2 : List UInt8) : List UInt8 :=
  layout (List.replicate g.cb 0) [(0, e0), (32, e1), (64, e2)]

/-- The image, with the geometry and the first clusters that the builder chose. -/
structure Built where
  geom : Geometry
  cefi : ℕ
  cbootdir : ℕ
  cboot : ℕ
  ckernel : ℕ
  image : List UInt8

def writeImage (g : Geometry) (fat : List ℕ) (cefi cbootdir cboot ckernel : ℕ)
    (boot kernel : List UInt8) : List UInt8 :=
  let image := List.replicate (g.totalSectors * bps) 0
  let image := splice image 0 (bootSector g)
  let image := (List.range nfats).foldl
    (fun image fi => splice image ((reserved + fi * g.fatSectors) * bps) (fatBytes g fat)) image
  let image := splice image g.rootOff (ent (ascii "EFI        ") 0x10 cefi 0)
  let image := splice image (g.rootOff + 32)
    (ent (ascii "KERNEL  ELF") 0x20 ckernel kernel.length)
  let image := writeCluster g image cefi (dirCluster g
    (ent (ascii ".          ") 0x10 cefi 0)
    (ent (ascii "..         ") 0x10 0 0)
    (ent (ascii "BOOT       ") 0x10 cbootdir 0))
  let image := writeCluster g image cbootdir (dirCluster g
    (ent (ascii ".          ") 0x10 cbootdir 0)
    (ent (ascii "..         ") 0x10 cefi 0)
    (ent (ascii "BOOTX64 EFI") 0x20 cboot boot.length))
  let image := writeFile g image cboot boot
  writeFile g image ckernel kernel

def mkfat (boot kernel : List UInt8) : Option Built := do
  let g ← chooseGeometry boot kernel
  let (cefi, t) ← allocDir g (Table.init g)
  let (cbootdir, t) ← allocDir g t
  let (cboot, t) ← alloc g t boot
  let (ckernel, t) ← alloc g t kernel
  return ⟨g, cefi, cbootdir, cboot, ckernel,
    writeImage g t.fat cefi cbootdir cboot ckernel boot kernel⟩

end Orion.Disk.Mkfat
