import Orion.Disk.Mkfat
import Orion.Lib.Text

/-!
# The builder of the install medium (`tools/mkiso.py`)

A disc with one directory, in sectors of 2048 bytes: volume descriptors, path tables, the directory, the
boot catalog, a text and the disk image.  `struct.pack` raises an exception for a value that does not fit.
-/

namespace Orion.Disk.Mkiso

open Orion.Lib
open Orion.Disk.Mkfat (packH packI ceilDiv)

/-- `BS`. -/
def bs : ℕ := 2048

/-- `struct.pack('<I', …)` -/
def packLittle (v : ℕ) : Option (List UInt8) := if v < 2 ^ 32 then some (packI v) else none

/-- `struct.pack('>I', …)` -/
def packBig (v : ℕ) : Option (List UInt8) := if v < 2 ^ 32 then some (packI v).reverse else none

def both16 (v : ℕ) : Option (List UInt8) :=
  if v < 2 ^ 16 then some (packH v ++ (packH v).reverse) else none

def both32 (v : ℕ) : Option (List UInt8) := do
  let l ← packLittle v
  let b ← packBig v
  return l ++ b

/-- `s.ljust(n, b' ')` -/
def ljust (n : ℕ) (s : List UInt8) : List UInt8 := s ++ List.replicate (n - s.length) 0x20

def zeros (n : ℕ) : List UInt8 := List.replicate n 0

def cd001 : List UInt8 := ascii "CD001"

def dirrec (lba size : ℕ) (flags : UInt8) (fid : List UInt8) : Option (List UInt8) := do
  let n := 33 + fid.length
  let n := if n % 2 ≠ 0 then n + 1 else n
  -- a byte is less than 256
  if n ≥ 256 then none
  let l ← both32 lba
  let s ← both32 size
  let v ← both16 1
  return layout (zeros n) [(0, [UInt8.ofNat n]), (1, [0]), (2, l), (10, s), (18, [126, 9, 6, 16, 0, 0, 0]),
    (25, [flags]), (28, v), (32, [UInt8.ofNat fid.length]), (33, fid)]

def date : List UInt8 := ascii "2026090616000000" ++ [0]

def pvd (total rootLba pathL pathM : ℕ) : Option (List UInt8) := do
  let space ← both32 total
  let one ← both16 1
  let block ← both16 bs
  let ten ← both32 10
  let l ← packLittle pathL
  let m ← packBig pathM
  let root ← dirrec rootLba bs 2 [0]
  return layout (zeros bs) [(0, [1]), (1, cd001), (6, [1]), (8, ljust 32 (ascii "UN_ORION")),
    (40, ljust 32 (ascii "UN_ORION_INSTALL")), (80, space), (120, one), (124, one), (128, block), (132, ten),
    (140, l), (148, m), (156, root), (318, ljust 128 (ascii "UN Project")),
    (446, ljust 128 (ascii "UN_Orion build tooling")), (574, ljust 128 (ascii "UN_Orion UEFI Installer")),
    (813, date), (830, date), (847, List.replicate 16 0x30 ++ [0]), (864, List.replicate 16 0x30 ++ [0]),
    (881, [1])]

def bootRecord (catalogLba : ℕ) : Option (List UInt8) := do
  let l ← packLittle catalogLba
  return layout (zeros bs) [(0, [0]), (1, cd001), (6, [1]), (7, ljust 32 (ascii "EL TORITO SPECIFICATION")), (71, l)]

def terminator : List UInt8 := layout (zeros bs) [(0, [255]), (1, cd001), (6, [1])]

def pathtable (rootLba : ℕ) (big : Bool) : Option (List UInt8) := do
  let lba ← if big then packBig rootLba else packLittle rootLba
  return layout (zeros bs) [(0, [1]), (2, lba), (6, if big then (packH 1).reverse else packH 1)]

/-- `sum(struct.unpack('<16H', v))` -/
def sumLittle : List UInt8 → ℕ
  | a :: b :: v => a.toNat + 256 * b.toNat + sumLittle v
  | _ => 0

/-- The validation entry without its checksum. -/
def validation : List UInt8 :=
  layout (zeros 32) [(0, [1]), (1, [0xEF]), (4, ljust 24 (ascii "UN_Orion UEFI")), (30, [0x55]), (31, [0xAA])]

def catalog (bootLba : ℕ) : Option (List UInt8) := do
  -- `-sum & 0xffff`
  let v := splice validation 28 (packH ((65536 - sumLittle validation % 65536) % 65536))
  let l ← packLittle bootLba
  let e := layout (zeros 32) [(0, [0x88]), (1, [0]), (6, packH 1), (8, l)]
  return layout (zeros bs) [(0, v), (32, e)]

def readme : List UInt8 :=
  ascii "UN_Orion v0.0.5 UEFI install/live media\r\nBoots the current system image through El Torito EFI.\r\n"

/-- The records of the directory, one behind the other. -/
def place (root : List UInt8) (pos : ℕ) : List (List UInt8) → List UInt8
  | [] => root
  | rec :: recs => place (splice root pos rec) (pos + rec.length) recs

def build (img : List UInt8) : Option (List UInt8) := do
  let pathL := 19
  let pathM := 20
  let rootLba := 21
  let catalogLba := 22
  let readmeLba := 23
  let bootLba := 24
  let total := bootLba + ceilDiv img.length bs
  let volume ← pvd total rootLba pathL pathM
  let boot ← bootRecord catalogLba
  let tableL ← pathtable rootLba false
  let tableM ← pathtable rootLba true
  let self ← dirrec rootLba bs 2 [0]
  let parent ← dirrec rootLba bs 2 [1]
  let text ← dirrec readmeLba readme.length 0 (ascii "README.TXT;1")
  let image ← dirrec bootLba img.length 0 (ascii "ORION.IMG;1")
  let root := place (zeros bs) 0 [self, parent, text, image]
  let cat ← catalog bootLba
  return layout (zeros (total * bs)) [(16 * bs, volume), (17 * bs, boot), (18 * bs, terminator), (pathL * bs, tableL),
    (pathM * bs, tableM), (rootLba * bs, root), (catalogLba * bs, cat), (readmeLba * bs, readme),
    (bootLba * bs, img)]

end Orion.Disk.Mkiso
