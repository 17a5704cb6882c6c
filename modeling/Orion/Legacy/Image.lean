import Orion.Disk.Image

/-!
# The legacy image (`tools/mklegacy.py`)

A floppy image with a boot sector, the second stage behind it, a header sector and the kernel.  An
image that is written holds the header fields (`header_field`) and the kernel (`image_kernel`) where
the second stage looks for them.
-/

namespace Orion.Legacy

open Orion.Lib
open Orion.Disk.Mkfat (packH packI ceilDiv)

def floppySize : ℕ := 1440 * 1024

def stage2Sectors : ℕ := 16

def headerLba : ℕ := 17

def kernelLba : ℕ := 18

/-- The staging area at `0x10000` stays below the ceiling of conventional memory. -/
def kernelTmpMax : ℕ := 0x80000

/-- `struct.pack("<4sIHH", b"ORK2", len(kernel), sectors, 1)` -/
def header (kernel : List UInt8) : List UInt8 :=
  ascii "ORK2" ++ packI kernel.length ++ packH (ceilDiv kernel.length 512) ++ packH 1

/-- The image with the boot sector and the second stage. -/
def bootImage (boot stage2 : List UInt8) : List UInt8 :=
  splice (splice (List.replicate floppySize 0) 0 boot) 512 stage2

/-- The image that is written; a `SystemExit` is its text. -/
def mklegacy (boot stage2 : List UInt8) (kernel : Option (List UInt8)) :
    Except String (List UInt8) :=
  if boot.length ≠ 512 ∨ (boot.drop 510).take 2 ≠ [0x55, 0xaa] then
    .error "legacy boot sector must be exactly 512 bytes with 55aa signature"
  else if stage2.length > stage2Sectors * 512 then
    .error ("stage2 too large: " ++ toString stage2.length ++ " > " ++ toString (stage2Sectors * 512))
  else
    match kernel with
    | none => .ok (bootImage boot stage2)
    | some kernel =>
      if kernel.length > kernelTmpMax then
        .error ("i686 kernel too large for BIOS staging area: " ++ toString kernel.length ++ " > " ++
          toString kernelTmpMax)
      else if (kernelLba + ceilDiv kernel.length 512) * 512 > floppySize then
        .error "i686 kernel does not fit floppy image"
      else
        .ok (splice (splice (bootImage boot stage2) (headerLba * 512) (header kernel))
          (kernelLba * 512) kernel)

/-! ## What it holds -/

/-- The sectors of a kernel that is accepted. -/
theorem ceilDiv_sectors {n : ℕ} (hpos : 1 ≤ n) (hle : n ≤ kernelTmpMax) :
    n ≤ ceilDiv n 512 * 512 ∧ 1 ≤ ceilDiv n 512 ∧ ceilDiv n 512 ≤ 1024 := by
  have hmax : kernelTmpMax = 524288 := rfl
  unfold ceilDiv
  omega

theorem length_header (kernel : List UInt8) : (header kernel).length = 12 := rfl

theorem length_bootImage {boot stage2 : List UInt8} (hboot : boot.length = 512)
    (hstage2 : stage2.length ≤ stage2Sectors * 512) : (bootImage boot stage2).length = floppySize := by
  have hzero : (List.replicate floppySize (0 : UInt8)).length = floppySize := List.length_replicate
  have hsize : floppySize = 1474560 := rfl
  have hsectors : stage2Sectors = 16 := rfl
  have hfirst : (splice (List.replicate floppySize (0 : UInt8)) 0 boot).length = floppySize := by
    rw [length_splice (by omega), hzero]
  rw [bootImage, length_splice (by omega), hfirst]

/-- Every kernel that fits the staging area is embedded. -/
theorem mklegacy_accepts {boot stage2 kernel : List UInt8} (hboot : boot.length = 512)
    (hsign : (boot.drop 510).take 2 = [0x55, 0xaa]) (hstage2 : stage2.length ≤ stage2Sectors * 512)
    (hkernel : kernel.length ≤ kernelTmpMax) :
    mklegacy boot stage2 (some kernel) =
      .ok (splice (splice (bootImage boot stage2) (headerLba * 512) (header kernel))
        (kernelLba * 512) kernel) := by
  have hfits : ¬ (kernelLba + ceilDiv kernel.length 512) * 512 > floppySize := by
    have hsize : floppySize = 1474560 := rfl
    have hmax : kernelTmpMax = 524288 := rfl
    have hlba : kernelLba = 18 := rfl
    rw [hlba, hsize, ceilDiv]
    omega
  have hvalid : ¬ (boot.length ≠ 512 ∨ (boot.drop 510).take 2 ≠ [0x55, 0xaa]) := by
    rw [hboot, hsign]
    simp
  simp only [mklegacy, if_neg hvalid, if_neg (Nat.not_lt.mpr hstage2), if_neg (Nat.not_lt.mpr hkernel),
    if_neg hfits]

section

variable {boot stage2 kernel image : List UInt8} (himage : mklegacy boot stage2 (some kernel) = .ok image)

include himage

/-- Every image with a kernel has the same form. -/
theorem mklegacy_ok : boot.length = 512 ∧ stage2.length ≤ stage2Sectors * 512 ∧
    kernel.length ≤ kernelTmpMax ∧
    image = splice (splice (bootImage boot stage2) (headerLba * 512) (header kernel))
      (kernelLba * 512) kernel := by
  unfold mklegacy at himage
  split at himage
  · simp at himage
  · rename_i hboot
    split at himage
    · simp at himage
    · rename_i hstage2
      simp only at himage
      split at himage
      · simp at himage
      · rename_i hkernel
        split at himage
        · simp at himage
        · refine ⟨?_, by omega, by omega, (Except.ok.inj himage).symm⟩
          by_contra hlen
          exact hboot (.inl hlen)

theorem length_image : image.length = floppySize := by
  obtain ⟨hboot, hstage2, hkernel, rfl⟩ := mklegacy_ok himage
  have hlen := length_bootImage hboot hstage2
  have hhdr := length_header kernel
  have hsize : floppySize = 1474560 := rfl
  have hmax : kernelTmpMax = 524288 := rfl
  have hlba : headerLba = 17 ∧ kernelLba = 18 := ⟨rfl, rfl⟩
  rw [length_splice, length_splice, hlen]
  · omega
  · rw [length_splice] <;> omega

/-- The fields of the header. -/
theorem header_field {i : ℕ} (hi : i < 12) :
    image.getD (headerLba * 512 + i) 0 = (header kernel).getD i 0 := by
  obtain ⟨hboot, hstage2, hkernel, rfl⟩ := mklegacy_ok himage
  have hlen := length_bootImage hboot hstage2
  have hhdr := length_header kernel
  have hsize : floppySize = 1474560 := rfl
  have hlba : headerLba = 17 ∧ kernelLba = 18 := ⟨rfl, rfl⟩
  have hmid : (splice (bootImage boot stage2) (headerLba * 512) (header kernel)).length = floppySize := by
    rw [length_splice (by omega), hlen]
  rw [getD_splice_out (by omega) (by omega), getD_splice_in (by omega) (by omega)]

/-- The kernel. -/
theorem image_kernel {i : ℕ} (hi : i < kernel.length) :
    image.getD (kernelLba * 512 + i) 0 = kernel.getD i 0 := by
  obtain ⟨hboot, hstage2, hkernel, rfl⟩ := mklegacy_ok himage
  have hlen := length_bootImage hboot hstage2
  have hhdr := length_header kernel
  have hsize : floppySize = 1474560 := rfl
  have hlba : headerLba = 17 ∧ kernelLba = 18 := ⟨rfl, rfl⟩
  have hmid : (splice (bootImage boot stage2) (headerLba * 512) (header kernel)).length = floppySize := by
    rw [length_splice (by omega), hlen]
  rw [getD_splice_in (by omega) hi]

end

end Orion.Legacy
