import Orion.Disk.Agree
import Orion.Disk.Mount

/-!
# Does the FAT of a mounted volume cover its clusters?

A FAT copy needs a 16-bit entry for each data cluster and two more in front.  `fat16_mount` checks only
that it has a sector, so whether it is large enough depends on the other fields of the boot sector
(`fat16_mount_covers_iff`): 256 sectors are always enough, 15 never, and the volumes of the image
builder are covered.
-/

namespace Orion.Disk

open Mkfat

/-! ## What was mounted -/

/-- A mount that succeeds has read a boot sector that passes the checks. -/
theorem fat16Mount_ok {dev : Blockdev} {volumeStartLba : ℕ} {out : Fat16} {calls : List Call}
    (h : (fat16Mount dev volumeStartLba out calls).1 = 0) :
    blockdevValidate dev = true ∧ dev.blockSize = 512 ∧
      ∃ boot, (blockdevRead dev volumeStartLba 1 calls).1 = some boot ∧
        mountBoot dev volumeStartLba boot = some (fat16Mount dev volumeStartLba out calls).2.1 := by
  unfold fat16Mount at h ⊢
  split at h
  · simp at h
  next hvalid =>
  rw [if_neg hvalid]
  simp only [not_or, not_not, Bool.not_eq_false] at hvalid
  rcases hread : blockdevRead dev volumeStartLba 1 calls with ⟨boot, calls'⟩
  rw [hread] at h
  cases boot with
  | none => simp at h
  | some boot =>
    cases hm : mountBoot dev volumeStartLba boot with
    | none => simp [hm] at h
    | some fs => exact ⟨hvalid.1, hvalid.2, boot, rfl, by simp only [hm]⟩

/-! ## The size of the FAT -/

/-- Each FAT copy has an entry for every data cluster, so that the entry of a valid cluster number lies
inside the first copy. -/
structure FatCovers (fs : Fat16) : Prop where
  size : 2 * (fs.dataClusterCount + 2) ≤ fs.sectorsPerFat * 512
  entries : ∀ c, 2 ≤ c → c < fs.dataClusterCount + 2 →
    fs.firstFatLba + (c * 2 + 1) / 512 < fs.firstFatLba + fs.sectorsPerFat

theorem fatCovers_iff {fs : Fat16} :
    FatCovers fs ↔ 2 * (fs.dataClusterCount + 2) ≤ fs.sectorsPerFat * 512 := by
  constructor
  · intro h
    exact h.size
  · intro h
    refine ⟨h, fun c _ hc => ?_⟩
    have hsector : (c * 2 + 1) / 512 < fs.sectorsPerFat := by
      rw [Nat.div_lt_iff_lt_mul (by norm_num)]
      omega
    omega

/-- Clusters and FAT sectors, without the division. -/
theorem clusters_fit_iff {total overhead spc spf : ℕ} (hspc : 0 < spc) (hspf : 0 < spf)
    (hlt : overhead < total) :
    2 * ((total - overhead) / spc + 2) ≤ spf * 512 ↔ total < overhead + (256 * spf - 1) * spc := by
  have hdiv : (total - overhead) / spc < 256 * spf - 1 ↔ total - overhead < (256 * spf - 1) * spc :=
    Nat.div_lt_iff_lt_mul hspc
  constructor
  · intro h
    have := hdiv.mp (by omega)
    omega
  · intro h
    have := hdiv.mpr (by omega)
    omega

/-- The sectors of the volume are fewer than those that a FAT of this size can number. -/
def FatLargeEnough (boot : Bytes) : Prop :=
  bootTotalSectors boot <
    overheadSectors boot + (256 * readLe16 boot 22 - 1) * (boot 13).toNat

instance (boot : Bytes) : Decidable (FatLargeEnough boot) := Nat.decLt _ _

theorem mountBoot_covers_iff {dev : Blockdev} {volumeStartLba : ℕ} {boot : Bytes} {fs : Fat16}
    (hsize : dev.blockSize = 512) (h : mountBoot dev volumeStartLba boot = some fs) :
    FatCovers fs ↔ FatLargeEnough boot := by
  obtain ⟨hpass, rfl⟩ := mountBoot_some hsize h
  rw [fatCovers_iff]
  exact clusters_fit_iff hpass.cluster hpass.fat hpass.overhead

/-- A FAT of 256 sectors has all the entries that there can be, one of 15 never enough. -/
theorem FatCovers.of_sectors {dev : Blockdev} {volumeStartLba : ℕ} {fs : Fat16}
    (h : Contained dev volumeStartLba fs) :
    (256 ≤ fs.sectorsPerFat → FatCovers fs) ∧ (fs.sectorsPerFat ≤ 15 → ¬ FatCovers fs) := by
  obtain ⟨hmin, hmax⟩ := h.clusters
  constructor
  · intro hspf
    exact fatCovers_iff.mpr (by omega)
  · intro hspf hcovers
    have := hcovers.size
    omega

/-- **The FAT of an accepted volume covers its clusters exactly if the volume is small enough for it**,
by the fields of its boot sector. -/
theorem fat16_mount_covers_iff (dev : Blockdev) (volumeStartLba : ℕ) (out : Fat16) (calls : List Call)
    (boot : Bytes) (hboot : (blockdevRead dev volumeStartLba 1 calls).1 = some boot)
    (h : (fat16Mount dev volumeStartLba out calls).1 = 0) :
    FatCovers (fat16Mount dev volumeStartLba out calls).2.1 ↔ FatLargeEnough boot := by
  obtain ⟨-, hsize, boot', hboot', hm⟩ := fat16Mount_ok h
  obtain rfl : boot = boot' := Option.some.inj (hboot.symm.trans hboot')
  exact mountBoot_covers_iff hsize hm

/-- The boot sector of a volume of 5000 sectors with one FAT of a single sector. -/
def thinBoot : Bytes := fun i =>
  if i = 510 then 0x55 else if i = 511 then 0xaa
  else if i = 12 then 2 else if i = 13 then 1 else if i = 14 then 1 else if i = 16 then 1
  else if i = 17 then 16 else if i = 19 then 0x88 else if i = 20 then 0x13 else if i = 22 then 1
  else 0

theorem sectorSize_lt : 512 < 2 ^ 32 := by norm_num

theorem sectorCount_lt : 5000 < 2 ^ 64 := by norm_num

def thinDev : Blockdev :=
  ⟨true, 512, 5000, some fun _ _ _ => some thinBoot, sectorSize_lt, sectorCount_lt⟩

def noVolume : Fat16 := ⟨thinDev, 0, 0, 0, 0, 0, 0, 0, 0, 0, 0, 0, 0, 0⟩

/-- Its FAT has 256 entries for 4997 clusters, and the volume is accepted. -/
theorem thin_not_covered : (fat16Mount thinDev 0 noVolume []).1 = 0 ∧
    ¬ FatCovers (fat16Mount thinDev 0 noVolume []).2.1 := by
  refine ⟨by decide +kernel, fun h => ?_⟩
  have hsize := h.size
  revert hsize
  decide +kernel

theorem fat16_mount_covers_iff_thin :
    FatCovers (fat16Mount thinDev 0 noVolume []).2.1 ↔ FatLargeEnough thinBoot :=
  fat16_mount_covers_iff thinDev 0 noVolume [] thinBoot (by rfl) (by decide +kernel)

/-- The volumes of the image builder are covered. -/
theorem mkfat_covers {boot kernel : List UInt8} {built : Built} (h : mkfat boot kernel = some built)
    {dev : Blockdev} (hdev : Holds dev built.image) (out : Fat16) (calls : List Call) :
    FatCovers (fat16Mount dev 0 out calls).2.1 := by
  cases hg : chooseGeometry boot kernel with
  | none => simp [mkfat, hg] at h
  | some g =>
    rw [mkfat_eq hg] at h
    obtain rfl := Option.some.inj h
    have hfat := (chooseGeometry_spec hg).1.fat_ge
    rw [bps] at hfat
    have hmount : (fat16Mount dev 0 out calls).2.1 = volumeOf dev g := by
      rw [fat16Mount_image hg hdev out calls]
    rw [hmount, fatCovers_iff]
    show 2 * (g.clusters + 2) ≤ g.fatSectors * 512
    omega

end Orion.Disk
