import Orion.Disk.Fat16

/-!
# Mounted volumes lie inside their device

A volume that passes `fat16_mount` has its regions in order, inside the volume, and the volume inside
the device, as plain numbers: none of the 64-bit sums wraps (`mountBoot_contained`).  Every read of
the root directory is one block of its region (`findSectors_calls`).
-/

namespace Orion.Disk

/-! ## Fields -/

theorem readLe16_lt (b : Bytes) (i : ℕ) : readLe16 b i < 2 ^ 16 := by
  have h0 := (b i).toNat_lt
  have h1 := (b (i + 1)).toNat_lt
  unfold readLe16
  omega

theorem readLe32_lt (b : Bytes) (i : ℕ) : readLe32 b i < 2 ^ 32 := by
  have h0 := (b i).toNat_lt
  have h1 := (b (i + 1)).toNat_lt
  have h2 := (b (i + 2)).toNat_lt
  have h3 := (b (i + 3)).toNat_lt
  unfold readLe32
  omega

theorem bootTotalSectors_lt (boot : Bytes) : bootTotalSectors boot < 2 ^ 32 := by
  unfold bootTotalSectors
  have h16 := readLe16_lt boot 19
  have h32 := readLe32_lt boot 32
  split <;> omega

/-! ## Mounting -/

/-- What `fat16_mount` guarantees about a volume. -/
structure Contained (dev : Blockdev) (volumeStartLba : ℕ) (fs : Fat16) : Prop where
  dev_eq : fs.dev = dev
  firstFat : fs.firstFatLba = volumeStartLba + fs.reservedSectors
  firstRoot : fs.firstRootLba = fs.firstFatLba + fs.fatCount * fs.sectorsPerFat
  firstData : fs.firstDataLba = fs.firstRootLba + fs.rootDirSectors
  start_lt : volumeStartLba < fs.firstFatLba
  fat_lt : fs.firstFatLba < fs.firstRootLba
  root_lt : fs.firstRootLba < fs.firstDataLba
  data_le : fs.firstDataLba + fs.dataClusterCount * fs.sectorsPerCluster
    ≤ volumeStartLba + fs.totalSectors
  volume_le : volumeStartLba + fs.totalSectors ≤ dev.blockCount
  root_entries : fs.rootEntryCount ≤ fs.rootDirSectors * 16
  clusters : 4085 ≤ fs.dataClusterCount ∧ fs.dataClusterCount < 65525

/-- Sectors before the data: the reserved ones, the FATs and the root directory. -/
def overheadSectors (boot : Bytes) : ℕ :=
  readLe16 boot 14 + (boot 16).toNat * readLe16 boot 22 + (readLe16 boot 17 * 32 + 511) / 512

/-- The clusters of the data. -/
def bootClusters (boot : Bytes) : ℕ :=
  (bootTotalSectors boot - overheadSectors boot) / (boot 13).toNat

/-- The checks of `fat16_mount` on the fields of a boot sector, in plain numbers. -/
structure Passes (dev : Blockdev) (volumeStartLba : ℕ) (boot : Bytes) : Prop where
  cluster : 0 < (boot 13).toNat
  reserved : 0 < readLe16 boot 14
  fats : 0 < (boot 16).toNat
  root : 0 < readLe16 boot 17
  fat : 0 < readLe16 boot 22
  overhead : overheadSectors boot < bootTotalSectors boot
  clusters : 4085 ≤ bootClusters boot ∧ bootClusters boot < 65525
  fits : volumeStartLba + bootTotalSectors boot ≤ dev.blockCount

/-- The volume as the fields give it, in sectors of 512 bytes. -/
def volumeOfBoot (dev : Blockdev) (volumeStartLba : ℕ) (boot : Bytes) : Fat16 where
  dev := dev
  volumeStartLba := volumeStartLba
  totalSectors := bootTotalSectors boot
  bytesPerSector := 512
  sectorsPerCluster := (boot 13).toNat
  reservedSectors := readLe16 boot 14
  fatCount := (boot 16).toNat
  rootEntryCount := readLe16 boot 17
  sectorsPerFat := readLe16 boot 22
  rootDirSectors := (readLe16 boot 17 * 32 + 511) / 512
  dataClusterCount := bootClusters boot
  firstFatLba := volumeStartLba + readLe16 boot 14
  firstRootLba := volumeStartLba + readLe16 boot 14 + (boot 16).toNat * readLe16 boot 22
  firstDataLba := volumeStartLba + overheadSectors boot

section

variable {dev : Blockdev} {volumeStartLba : ℕ} {boot : Bytes} {fs : Fat16}

/-- The product of two small fields. -/
theorem fatSectors_lt (boot : Bytes) : (boot 16).toNat * readLe16 boot 22 < 2 ^ 24 := by
  have hfat := (boot 16).toNat_lt
  have hspf := readLe16_lt boot 22
  calc (boot 16).toNat * readLe16 boot 22
      ≤ (boot 16).toNat * 2 ^ 16 := Nat.mul_le_mul_left _ hspf.le
    _ < 2 ^ 8 * 2 ^ 16 := Nat.mul_lt_mul_of_pos_right hfat (by norm_num)
    _ = 2 ^ 24 := by norm_num

/-- **A boot sector that is accepted passes the checks, and none of the sums wraps.** -/
theorem mountBoot_some (hsize : dev.blockSize = 512)
    (h : mountBoot dev volumeStartLba boot = some fs) :
    Passes dev volumeStartLba boot ∧ fs = volumeOfBoot dev volumeStartLba boot := by
  have hdev := dev.blockCount_lt
  have htotal := bootTotalSectors_lt boot
  have hres := readLe16_lt boot 14
  have hroot := readLe16_lt boot 17
  have hprod := fatSectors_lt boot
  unfold mountBoot at h
  simp only at h
  split at h
  · simp at h
  split at h
  · simp at h
  next hbps =>
  split at h
  · simp at h
  next hspc =>
  split at h
  · simp at h
  next hzero =>
  simp only [not_or] at hzero
  obtain ⟨hres0, hfat0, hroot0, hspf0, -⟩ := hzero
  have hbps512 : readLe16 boot 11 = 512 := by
    rw [not_not] at hbps
    rw [hbps, hsize]
  have hspcPos : 0 < (boot 13).toNat := by
    rw [Nat.pos_iff_ne_zero]
    intro hzero
    have hnull : boot 13 = 0 := UInt8.toNat_inj.mp hzero
    rw [hnull] at hspc
    exact hspc (.inl (by decide))
  have hover : u64 (readLe16 boot 14 + (boot 16).toNat * readLe16 boot 22 +
      (readLe16 boot 17 * 32 + 512 - 1) / 512) = overheadSectors boot :=
    u64_of_lt (by omega)
  rw [hbps512, hover] at h
  split at h
  · simp at h
  next hle =>
  have hdiv := Nat.div_le_self (bootTotalSectors boot - overheadSectors boot) (boot 13).toNat
  have hcount : u32 ((bootTotalSectors boot - overheadSectors boot) / (boot 13).toNat) =
      bootClusters boot := u32_of_lt (by omega)
  rw [hcount] at h
  split at h
  · simp at h
  next hclusters =>
  split at h
  · simp at h
  next hstart =>
  split at h
  · simp at h
  next hfit =>
  have hparts : overheadSectors boot = readLe16 boot 14 + (boot 16).toNat * readLe16 boot 22 +
      (readLe16 boot 17 * 32 + 511) / 512 := rfl
  -- the volume fits on the device, so none of the three sums wraps
  have hfirst : u64 (volumeStartLba + readLe16 boot 14) = volumeStartLba + readLe16 boot 14 :=
    u64_of_lt (by omega)
  have hsecond : u64 (volumeStartLba + readLe16 boot 14 + (boot 16).toNat * readLe16 boot 22) =
      volumeStartLba + readLe16 boot 14 + (boot 16).toNat * readLe16 boot 22 := u64_of_lt (by omega)
  have hthird : u64 (volumeStartLba + readLe16 boot 14 + (boot 16).toNat * readLe16 boot 22 +
      (readLe16 boot 17 * 32 + 512 - 1) / 512) = volumeStartLba + overheadSectors boot := by
    rw [u64_of_lt (by omega), hparts]
    omega
  rw [hfirst, hsecond, hthird] at h
  exact ⟨⟨hspcPos, by omega, by omega, by omega, by omega, by omega, by omega, by omega⟩,
    (Option.some.inj h).symm⟩

/-- **A boot sector that passes the checks describes a volume inside the device.** -/
theorem mountBoot_contained (hsize : dev.blockSize = 512)
    (h : mountBoot dev volumeStartLba boot = some fs) : Contained dev volumeStartLba fs := by
  obtain ⟨hpass, rfl⟩ := mountBoot_some hsize h
  have hfats : 0 < (boot 16).toNat * readLe16 boot 22 := Nat.mul_pos hpass.fats hpass.fat
  have hdata : bootClusters boot * (boot 13).toNat ≤ bootTotalSectors boot - overheadSectors boot :=
    Nat.div_mul_le_self _ _
  have hres := hpass.reserved
  have hroot := hpass.root
  have hover := hpass.overhead
  have hfits := hpass.fits
  have hclusters := hpass.clusters
  have hparts : overheadSectors boot = readLe16 boot 14 + (boot 16).toNat * readLe16 boot 22 +
      (readLe16 boot 17 * 32 + 511) / 512 := rfl
  constructor
  all_goals simp only [volumeOfBoot]
  all_goals omega

end

/-- **`fat16_mount` succeeds only with a contained volume, and else leaves `*out` alone.** -/
theorem fat16Mount_cases (dev : Blockdev) (volumeStartLba : ℕ) (out : Fat16) (calls : List Call) :
    ((fat16Mount dev volumeStartLba out calls).1 = 0 ∧
      Contained dev volumeStartLba (fat16Mount dev volumeStartLba out calls).2.1) ∨
    ((fat16Mount dev volumeStartLba out calls).1 = -1 ∧
      (fat16Mount dev volumeStartLba out calls).2.1 = out) := by
  unfold fat16Mount
  split
  · exact .inr ⟨rfl, rfl⟩
  · next hvalid =>
    simp only [not_or, not_not] at hvalid
    rcases hread : blockdevRead dev volumeStartLba 1 calls with ⟨boot, calls'⟩
    cases boot with
    | none => exact .inr ⟨rfl, rfl⟩
    | some boot =>
      simp only
      cases hm : mountBoot dev volumeStartLba boot with
      | none => exact .inr ⟨rfl, rfl⟩
      | some fs => exact .inl ⟨rfl, mountBoot_contained hvalid.2 hm⟩

/-! ## Reading the root directory -/

/-- What a call of the volume may ask of the driver: one block of the root directory. -/
def RootCall (fs : Fat16) (c : Call) : Prop :=
  c.count = 1 ∧ fs.firstRootLba ≤ c.lba ∧ c.lba < fs.firstDataLba

theorem blockdevRead_calls (dev : Blockdev) (lba count : ℕ) (calls : List Call) :
    (blockdevRead dev lba count calls).2 = calls ∨
      (blockdevRead dev lba count calls).2 = calls ++ [⟨lba, count⟩] := by
  unfold blockdevRead
  split
  · split
    · exact .inl rfl
    · exact .inr rfl
  · exact .inl rfl

section

variable {dev : Blockdev} {volumeStartLba : ℕ} {fs : Fat16}

theorem readRootSector_calls (hfs : Contained dev volumeStartLba fs) (sectorIndex : ℕ)
    (calls : List Call) :
    ∃ more, (fat16ReadRootSector fs sectorIndex calls).2 = calls ++ more ∧
      ∀ c ∈ more, RootCall fs c := by
  unfold fat16ReadRootSector
  split
  · exact ⟨[], by simp, by simp⟩
  · next hlt =>
    have hdev := dev.blockCount_lt
    have hdata := hfs.data_le
    have hvol := hfs.volume_le
    have hfirst := hfs.firstData
    have hlba : u64 (fs.firstRootLba + sectorIndex) = fs.firstRootLba + sectorIndex := by
      unfold u64
      omega
    rw [hlba]
    rcases blockdevRead_calls fs.dev (fs.firstRootLba + sectorIndex) 1 calls with h | h
    · exact ⟨[], by simpa using h, by simp⟩
    · refine ⟨[⟨fs.firstRootLba + sectorIndex, 1⟩], h, ?_⟩
      intro c hc
      rw [List.mem_singleton.mp hc]
      exact ⟨rfl, Nat.le_add_right _ _, by show fs.firstRootLba + sectorIndex < _; omega⟩

/-- The loop over the sectors asks for blocks of the root directory only. -/
theorem findSectors_calls (hfs : Contained dev volumeStartLba fs) (name83 : List UInt8) :
    ∀ (left sectorIndex seen : ℕ) (calls : List Call),
      ∃ more, (findSectors fs name83 left sectorIndex seen calls).2 = calls ++ more ∧
        ∀ c ∈ more, RootCall fs c := by
  intro left
  induction left with
  | zero =>
    intro sectorIndex seen calls
    exact ⟨[], by simp [findSectors], by simp⟩
  | succ left ih =>
    intro sectorIndex seen calls
    rw [findSectors]
    split
    · obtain ⟨more, hmore, hroot⟩ := readRootSector_calls hfs sectorIndex calls
      rcases hread : fat16ReadRootSector fs sectorIndex calls with ⟨sector, calls'⟩
      rw [hread] at hmore
      obtain rfl : calls' = calls ++ more := hmore
      cases sector with
      | none => exact ⟨more, rfl, hroot⟩
      | some sector =>
        simp only
        split
        · exact ⟨more, rfl, hroot⟩
        · next seen' _ =>
          obtain ⟨more', hmore', hroot'⟩ := ih (sectorIndex + 1) seen' (calls ++ more)
          refine ⟨more ++ more', by rw [hmore', List.append_assoc], ?_⟩
          intro c hc
          rcases List.mem_append.mp hc with hc | hc
          · exact hroot c hc
          · exact hroot' c hc
    · exact ⟨[], by simp, by simp⟩

theorem findRoot_calls (hfs : Contained dev volumeStartLba fs) (name83 : List UInt8)
    (calls : List Call) :
    ∃ more, (fat16FindRoot fs name83 calls).2 = calls ++ more ∧ ∀ c ∈ more, RootCall fs c := by
  unfold fat16FindRoot
  split
  · exact ⟨[], by simp, by simp⟩
  · exact findSectors_calls hfs name83 _ _ _ _

end

/-- **Mount soundness and containment**, for every device, every contents and every start: a mounted
volume lies inside the device, every later access to its root directory is one block of it, and a
failed mount changes nothing. -/
theorem fat16_mount_contained (dev : Blockdev) (volumeStartLba : ℕ) (out : Fat16)
    (calls : List Call) :
    let r := fat16Mount dev volumeStartLba out calls
    (r.1 = 0 → Contained dev volumeStartLba r.2.1 ∧
      (∀ sectorIndex later, ∃ more, (fat16ReadRootSector r.2.1 sectorIndex later).2 = later ++ more ∧
        ∀ c ∈ more, RootCall r.2.1 c) ∧
      (∀ name83 later, ∃ more, (fat16FindRoot r.2.1 name83 later).2 = later ++ more ∧
        ∀ c ∈ more, RootCall r.2.1 c)) ∧
    (r.1 ≠ 0 → r.2.1 = out) := by
  intro r
  rcases fat16Mount_cases dev volumeStartLba out calls with ⟨hok, hfs⟩ | ⟨hfail, hout⟩
  · refine ⟨fun _ => ⟨hfs, readRootSector_calls hfs, findRoot_calls hfs⟩, fun hne => absurd hok hne⟩
  · refine ⟨fun h0 => ?_, fun _ => hout⟩
    rw [show r.1 = -1 from hfail] at h0
    exact absurd h0 (by decide)

end Orion.Disk
