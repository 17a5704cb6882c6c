import Orion.Disk.Image

/-!
# The builder and the reader agree

A device that holds an image of the builder mounts with the builder's numbers, the root directory
lists the kernel with its length, and the chain of the table from there leads through the kernel's
bytes (`mkfat_mounts`).  The reader has no code of its own for the table and the clusters, so what
they mean is stated here (`fatEntry`, `chainFrom`, `clusterBytes`).
-/

namespace Orion.Disk

open Mkfat Orion.Lib

/-! ## Devices, tables and clusters -/

/-- A device of 512-byte blocks that holds an image. -/
structure Holds (dev : Blockdev) (image : List UInt8) : Prop where
  named : dev.named = true
  blockSize : dev.blockSize = 512
  blocks : image.length ≤ dev.blockCount * 512
  read : ∃ read, dev.read = some read ∧ ∀ calls lba, (lba + 1) * 512 ≤ image.length →
    ∃ b, read calls lba 1 = some b ∧ ∀ i < 512, b i = image.getD (lba * 512 + i) 0

/-- The bytes of an image from an offset on. -/
def bytesFrom (image : List UInt8) (off : ℕ) : Bytes := fun i => image.getD (off + i) 0

/-- The entry of a cluster in one of the tables. -/
def fatEntry (image : List UInt8) (fs : Fat16) (copy c : ℕ) : ℕ :=
  readLe16 (bytesFrom image ((fs.firstFatLba + copy * fs.sectorsPerFat) * 512)) (c * 2)

/-- The chain of clusters from a first one up to an end mark, in at most `left` clusters. -/
def chainFrom (fat : ℕ → ℕ) : ℕ → ℕ → Option (List ℕ)
  | 0, _ => none
  | left + 1, c => if 0xfff8 ≤ fat c then some [c] else (chainFrom fat left (fat c)).map (c :: ·)

def clusterOff (fs : Fat16) (c : ℕ) : ℕ := (fs.firstDataLba + (c - 2) * fs.sectorsPerCluster) * 512

/-- The sectors of a cluster. -/
def clusterBytes (image : List UInt8) (fs : Fat16) (c : ℕ) : List UInt8 :=
  (List.range (fs.sectorsPerCluster * 512)).map (bytesFrom image (clusterOff fs c))

/-- The entry of a directory that lies in cluster `c`. -/
def dirEntry (image : List UInt8) (fs : Fat16) (c i : ℕ) : Dirent :=
  direntAt (bytesFrom image (clusterOff fs c)) (i * 32)

/-- A row of linked clusters is a chain. -/
theorem chainFrom_row {fat : ℕ → ℕ} : ∀ {n start left : ℕ}, 1 ≤ n → n ≤ left →
    start + n ≤ 0xfff8 →
    (∀ c, start ≤ c → c < start + n → fat c = if c = start + n - 1 then 0xffff else c + 1) →
    chainFrom fat left start = some (List.range' start n) := by
  intro n
  induction n with
  | zero =>
    intro start left hn
    omega
  | succ n ih =>
    intro start left _ hleft hbound hfat
    obtain ⟨left, rfl⟩ : ∃ k, left = k + 1 := ⟨left - 1, by omega⟩
    have hstart := hfat start le_rfl (by omega)
    rw [chainFrom, List.range'_succ]
    by_cases hlast : n = 0
    · subst hlast
      rw [if_pos (by omega)] at hstart
      rw [if_pos (by omega)]
      rfl
    · rw [if_neg (by omega)] at hstart
      rw [if_neg (by omega), hstart, ih (by omega) (by omega) (by omega)]
      · rfl
      · intro c hc hc'
        rw [hfat c (by omega) (by omega), show start + (n + 1) - 1 = start + 1 + n - 1 by omega]

/-- Consecutive blocks of a sequence, one after the other. -/
theorem flatMap_blocks {α : Type*} (f : ℕ → α) (size start : ℕ) :
    ∀ n, (List.range' start n).flatMap (fun c =>
        (List.range size).map fun j => f ((c - start) * size + j))
      = (List.range (n * size)).map f := by
  intro n
  induction n with
  | zero => simp
  | succ n ih =>
    rw [List.range'_concat, List.flatMap_append, ih, show (n + 1) * size = n * size + size by ring,
      List.range_add, List.map_append]
    simp [Function.comp_def]

/-! ## Packed numbers -/

theorem readLe16_packH {b : Bytes} {i v : ℕ} (hv : v < 2 ^ 16)
    (h : ∀ j < 2, b (i + j) = (packH v).getD j 0) : readLe16 b i = v := by
  have h0 := h 0 (by decide)
  have h1 := h 1 (by decide)
  simp only [packH, Nat.add_zero, List.getD_cons_zero, List.getD_cons_succ] at h0 h1
  rw [readLe16, h0, h1]
  simp only [UInt8.toNat_ofNat']
  omega

theorem readLe32_packI {b : Bytes} {i v : ℕ} (hv : v < 2 ^ 32)
    (h : ∀ j < 4, b (i + j) = (packI v).getD j 0) : readLe32 b i = v := by
  have h0 := h 0 (by decide)
  have h1 := h 1 (by decide)
  have h2 := h 2 (by decide)
  have h3 := h 3 (by decide)
  simp only [packI, Nat.add_zero, List.getD_cons_zero, List.getD_cons_succ] at h0 h1 h2 h3
  rw [readLe32, h0, h1, h2, h3]
  simp only [UInt8.toNat_ofNat']
  omega

/-- A directory entry reads back as what `ent` was given. -/
theorem direntAt_ent {b : Bytes} {e : ℕ} {name83 : List UInt8} {attr : UInt8} {cluster size : ℕ}
    (hname : name83.length = 11) (hcluster : cluster < 2 ^ 16) (hsize : size < 2 ^ 32)
    (h : ∀ j < 32, b (e + j) = (ent name83 attr cluster size).getD j 0) :
    direntAt b e = ⟨name83, attr, cluster, size⟩ := by
  have hfield : ∀ off blob,
      (off, blob) ∈ [(0, name83), (11, [attr]), (26, packH cluster), (28, packI size)] →
      off + blob.length ≤ 32 → ∀ j < blob.length, b (e + off + j) = blob.getD j 0 := by
    intro off blob hmem hle j hj
    rw [Nat.add_assoc, h _ (by omega), ent_getD hname attr cluster size hmem hj]
  have hnameAt : entryName b e = name83 := by
    apply List.ext_getElem
    · simp [entryName, hname]
    · intro i hi hi'
      have hb := hfield 0 name83 (by simp) (by omega) i hi'
      simp only [entryName, List.getElem_map, List.getElem_range]
      rw [Nat.add_zero] at hb
      rw [hb, List.getD_eq_getElem?_getD, List.getElem?_eq_getElem hi']
      rfl
  have hattr : b (e + 11) = attr := hfield 11 [attr] (by simp) (by simp) 0 (by simp)
  have hclusterAt : readLe16 b (e + 26) = cluster :=
    readLe16_packH hcluster fun j hj =>
      hfield 26 (packH cluster) (by simp) (by rw [length_packH]; omega) j hj
  have hsizeAt : readLe32 b (e + 28) = size :=
    readLe32_packI hsize fun j hj =>
      hfield 28 (packI size) (by simp) (by rw [length_packI]) j hj
  rw [direntAt, hnameAt, hattr, hclusterAt, hsizeAt]

/-! ## The entries of a sector -/

section

variable {sector : Bytes} {entryIndex : ℕ} {name83 : List UInt8} {attr : UInt8} {cluster size : ℕ}

/-- A live entry, neither a long name nor a label. -/
def Live (name83 : List UInt8) (attr : UInt8) : Prop :=
  name83.headD 0 ≠ 0 ∧ name83.headD 0 ≠ 0xe5 ∧ attr ≠ 0x0f ∧ attr &&& 0x08 = 0

theorem entryName_head (b : Bytes) (e : ℕ) : (entryName b e).headD 0 = b e := rfl

theorem findEntries_hit (hlive : Live name83 attr)
    (h : direntAt sector (entryIndex * 32) = ⟨name83, attr, cluster, size⟩) {rootEntryCount : ℕ}
    {left seen : ℕ} (hseen : seen < rootEntryCount) :
    findEntries name83 rootEntryCount sector (left + 1) entryIndex seen
      = .inl (.entry ⟨name83, attr, cluster, size⟩) := by
  obtain ⟨hzero, hdeleted, hlong, hlabel⟩ := hlive
  have hname : entryName sector (entryIndex * 32) = name83 := congrArg Dirent.name h
  have hattr : sector (entryIndex * 32 + 11) = attr := congrArg Dirent.attributes h
  rw [← hname, entryName_head] at hzero hdeleted
  rw [findEntries, if_pos hseen]
  simp only [hattr, hname, h]
  rw [if_neg hzero, if_neg (by simp [hdeleted, hlong, hlabel])]

theorem findEntries_skip (hlive : Live name83 attr)
    (h : direntAt sector (entryIndex * 32) = ⟨name83, attr, cluster, size⟩) {other : List UInt8}
    (hne : name83 ≠ other) {rootEntryCount : ℕ} {left seen : ℕ} (hseen : seen < rootEntryCount) :
    findEntries other rootEntryCount sector (left + 1) entryIndex seen
      = findEntries other rootEntryCount sector left (entryIndex + 1) (seen + 1) := by
  have hname : entryName sector (entryIndex * 32) = name83 := congrArg Dirent.name h
  have hzero := hlive.1
  rw [← hname, entryName_head] at hzero
  rw [findEntries, if_pos hseen]
  simp only
  rw [if_neg hzero, if_pos (by simp [hname, hne])]

end

/-! ## Mounting an image -/

/-- The volume of a geometry. -/
def volumeOf (dev : Blockdev) (g : Geometry) : Fat16 where
  dev := dev
  volumeStartLba := 0
  totalSectors := g.totalSectors
  bytesPerSector := 512
  sectorsPerCluster := g.spc
  reservedSectors := 4
  fatCount := 2
  rootEntryCount := 512
  sectorsPerFat := g.fatSectors
  rootDirSectors := 32
  dataClusterCount := g.clusters
  firstFatLba := 4
  firstRootLba := 4 + 2 * g.fatSectors
  firstDataLba := g.dataStart

theorem isPowerOfTwoU8_spc {g : Geometry} (hg : Sound g) :
    isPowerOfTwoU8 (UInt8.ofNat g.spc) = true ∧ ¬UInt8.ofNat g.spc > 128 ∧
      (UInt8.ofNat g.spc).toNat = g.spc := by
  have h : ∀ spc ∈ [1, 2, 4, 8, 16, 32, 64, 128], isPowerOfTwoU8 (UInt8.ofNat spc) = true ∧
      ¬UInt8.ofNat spc > 128 ∧ (UInt8.ofNat spc).toNat = spc := by decide
  exact h g.spc hg.spc_mem

/-- **The boot sector of a geometry describes its volume.** -/
theorem mountBoot_bootSector {dev : Blockdev} {g : Geometry} {boot : Bytes} (hg : Sound g)
    (htotal : g.totalSectors ≤ 2 ^ 20) (hsize : dev.blockSize = 512)
    (hblocks : g.totalSectors ≤ dev.blockCount)
    (hboot : ∀ i < 512, boot i = (bootSector g).getD i 0) :
    mountBoot dev 0 boot = some (volumeOf dev g) := by
  have hfield : ∀ off blob, (off, blob) ∈ bootFields g →
      ∀ j < blob.length, boot (off + j) = blob.getD j 0 := by
    intro off blob hmem j hj
    have hin := bootFields_in g _ hmem
    rw [List.length_replicate, bps] at hin
    rw [hboot _ (by simp only at hin; omega), bootSector_getD hmem hj]
  have hfat := hg.fat_le
  have hfatPos := hg.fat_pos
  have hdata := hg.data_le
  have hstart : g.dataStart = 4 + 2 * g.fatSectors + 32 := rfl
  have hmin := hg.min
  have hmax := hg.max
  unfold fat16MinClusters at hmin
  unfold fat16MaxClusters at hmax
  have hpos : 0 < g.clusters * g.spc := Nat.mul_pos (by omega) hg.spc_pos
  obtain ⟨hpow, hle128, hspc⟩ := isPowerOfTwoU8_spc hg
  -- the fields as the reader sees them
  have h11 : readLe16 boot 11 = 512 :=
    readLe16_packH (by decide) (hfield 11 (packH bps) (by simp [bootFields]))
  have h13 : boot 13 = UInt8.ofNat g.spc :=
    hfield 13 [UInt8.ofNat g.spc] (by simp [bootFields]) 0 (by simp)
  have h14 : readLe16 boot 14 = 4 :=
    readLe16_packH (by decide) (hfield 14 (packH reserved) (by simp [bootFields]))
  have h16 : boot 16 = 2 := hfield 16 [UInt8.ofNat nfats] (by simp [bootFields]) 0 (by simp)
  have h17 : readLe16 boot 17 = 512 :=
    readLe16_packH (by decide) (hfield 17 (packH rootEntries) (by simp [bootFields]))
  have h22 : readLe16 boot 22 = g.fatSectors :=
    readLe16_packH (by omega) (hfield 22 (packH g.fatSectors) (by simp [bootFields]))
  have hcounts : (sectorCounts g.totalSectors).1 < 2 ^ 16 ∧
      (sectorCounts g.totalSectors).2 < 2 ^ 32 := by
    unfold sectorCounts
    split <;> simp only <;> omega
  have h19 : readLe16 boot 19 = (sectorCounts g.totalSectors).1 :=
    readLe16_packH hcounts.1 (hfield 19 (packH _) (by simp [bootFields]))
  have h32 : readLe32 boot 32 = (sectorCounts g.totalSectors).2 :=
    readLe32_packI hcounts.2 (hfield 32 (packI _) (by simp [bootFields]))
  have htot : bootTotalSectors boot = g.totalSectors := by
    rw [bootTotalSectors, h19, h32]
    unfold sectorCounts
    split
    · rw [if_pos (by simp only; omega)]
    · rw [if_neg (by simp)]
  have h510 : boot 510 = 0x55 := hfield 510 [0x55, 0xaa] (by simp [bootFields]) 0 (by simp)
  have h511 : boot 511 = 0xaa := hfield 510 [0x55, 0xaa] (by simp [bootFields]) 1 (by simp)
  have hclusters : (g.totalSectors - (4 + 2 * g.fatSectors + 32)) / g.spc = g.clusters := by
    have hsectors : dataSectors g.totalSectors g.fatSectors
        = g.totalSectors - (4 + 2 * g.fatSectors + 32) := by
      have hroot : rootSecs = 32 := by decide
      unfold dataSectors reserved nfats
      omega
    rw [hg.clusters_eq, hsectors]
  have hover : u64 (4 + 2 * g.fatSectors + 32) = 4 + 2 * g.fatSectors + 32 :=
    u64_of_lt (by omega)
  unfold mountBoot
  simp only [h11, h13, h14, h16, h17, h22, htot, h510, h511, hspc, hpow, hsize]
  rw [if_neg (by decide), if_neg (by simp), if_neg (by simpa using hle128),
    if_neg (by simp only [show (2 : UInt8).toNat = 2 from rfl]; omega)]
  simp only [show (2 : UInt8).toNat = 2 from rfl, show (512 * 32 + 512 - 1) / 512 = 32 from rfl,
    hover, hclusters, Nat.zero_add, Nat.sub_zero]
  rw [if_neg (by omega), u32_of_lt (by omega), if_neg (by omega), if_neg (by omega),
    if_neg (by omega), u64_of_lt (show 4 < 2 ^ 64 by decide),
    u64_of_lt (show 4 + 2 * g.fatSectors < 2 ^ 64 by omega), hover]
  rfl

/-- One block of the image. -/
theorem Holds.blockdevRead {dev : Blockdev} {image : List UInt8} (hdev : Holds dev image)
    (lba : ℕ) (hlba : (lba + 1) * 512 ≤ image.length) (calls : List Call) :
    ∃ b, Disk.blockdevRead dev lba 1 calls = (some b, calls ++ [⟨lba, 1⟩]) ∧
      ∀ i < 512, b i = image.getD (lba * 512 + i) 0 := by
  obtain ⟨read, hread, hblock⟩ := hdev.read
  obtain ⟨b, hb, hbytes⟩ := hblock calls lba hlba
  have hblocks := hdev.blocks
  have hvalid : (blockdevValidate dev && blockdevRangeValid dev lba 1) = true := by
    simp only [blockdevValidate, blockdevRangeValid, hdev.named, hdev.blockSize, hread,
      Bool.and_eq_true, decide_eq_true_eq, Option.isSome_some]
    refine ⟨⟨⟨⟨trivial, by decide⟩, by omega⟩, trivial⟩, ⟨by decide, by omega⟩, by omega⟩
  refine ⟨b, ?_, hbytes⟩
  rw [Disk.blockdevRead, if_pos hvalid, hread]
  simp only [hb]

section

variable {g : Geometry} {boot kernel : List UInt8} (h : chooseGeometry boot kernel = some g)

/-- The image of a payload. -/
def imageOf (g : Geometry) (boot kernel : List UInt8) : List UInt8 :=
  writeImage g (tableOf g boot kernel) 2 3 4 (4 + fileClusters boot.length g.cb) boot kernel

include h

/-- The boot loader and the kernel are small enough for the fields of their entries. -/
theorem sizes_lt : boot.length < 2 ^ 32 ∧ kernel.length < 2 ^ 32 ∧
    4 + fileClusters boot.length g.cb + fileClusters kernel.length g.cb < 2 ^ 16 := by
  obtain ⟨hg, htotal, hreq⟩ := chooseGeometry_spec h
  have hcb := hg.cb_ge
  have hboot := fileClusters_mul_ge boot.length (show 0 < g.cb by omega)
  have hkernel := fileClusters_mul_ge kernel.length (show 0 < g.cb by omega)
  have hend := files_le h
  have hmax := hg.max
  unfold fat16MaxClusters at hmax
  simp only [Nat.add_mul] at hend
  omega

/-- Both tables hold the entries of the builder. -/
theorem fatEntry_image (dev : Blockdev) {copy c : ℕ} (hcopy : copy < 2)
    (hc : c < g.fatSectors * bps / 2) :
    fatEntry (imageOf g boot kernel) (volumeOf dev g) copy c
      = (tableOf g boot kernel).getD c 0 % 2 ^ 16 := by
  have hlen := length_tableOf g boot kernel
  have hfat := length_fatBytes hlen
  have hbps : g.fatSectors * bps = g.fatSectors * 512 := rfl
  have hbyte : ∀ j < 2, bytesFrom (imageOf g boot kernel)
      (((volumeOf dev g).firstFatLba + copy * (volumeOf dev g).sectorsPerFat) * 512) (c * 2 + j)
      = (packH ((tableOf g boot kernel).getD c 0)).getD j 0 := by
    intro j hj
    rw [← fatBytes_getD hlen (by rw [hlen]; exact hc) hj]
    have hcopies : copy = 0 ∨ copy = 1 := by omega
    rcases hcopies with rfl | rfl
    · simp only [volumeOf, bytesFrom, Nat.zero_mul, Nat.add_zero]
      exact image_field h (by simp [imageFields]) (by rw [hfat]; omega)
    · simp only [volumeOf, bytesFrom, Nat.one_mul]
      exact image_field h (by simp [imageFields]) (by rw [hfat]; omega)
  have hpack : packH ((tableOf g boot kernel).getD c 0)
      = packH ((tableOf g boot kernel).getD c 0 % 2 ^ 16) := by
    unfold packH
    generalize (tableOf g boot kernel).getD c 0 = v
    simp only [List.cons.injEq, and_true, ← UInt8.toNat_inj, UInt8.toNat_ofNat']
    omega
  rw [fatEntry]
  refine readLe16_packH (Nat.mod_lt _ (by decide)) ?_
  rw [← hpack]
  exact hbyte

/-- **The chains of the tables**: the directories, the boot loader and the kernel. -/
theorem chains_image (dev : Blockdev) {copy : ℕ} (hcopy : copy < 2) :
    let chain := chainFrom (fatEntry (imageOf g boot kernel) (volumeOf dev g) copy) g.clusters
    chain 2 = some [2] ∧ chain 3 = some [3] ∧
    chain 4 = some (List.range' 4 (fileClusters boot.length g.cb)) ∧
    chain (4 + fileClusters boot.length g.cb)
      = some (List.range' (4 + fileClusters boot.length g.cb) (fileClusters kernel.length g.cb)) := by
  obtain ⟨hg, -, hreq⟩ := chooseGeometry_spec h
  have hmax := hg.max
  have hfat := hg.fat_ge
  unfold fat16MaxClusters at hmax
  have hboot := fileClusters_pos boot.length g.cb
  have hkernel := fileClusters_pos kernel.length g.cb
  have hentry : ∀ {c : ℕ}, 2 ≤ c → c < g.clusters + 2 →
      fatEntry (imageOf g boot kernel) (volumeOf dev g) copy c
        = (tableOf g boot kernel).getD c 0 % 2 ^ 16 := by
    intro c _ hc
    exact fatEntry_image h dev hcopy (by omega)
  have htable : ∀ {c : ℕ}, 2 ≤ c → _ := fun {c} hc => tableOf_getD h (c := c) hc
  generalize fileClusters boot.length g.cb = nboot at *
  generalize fileClusters kernel.length g.cb = nkernel at *
  refine ⟨?_, ?_, ?_, ?_⟩
  · refine chainFrom_row (n := 1) le_rfl (by omega) (by omega) fun c hc hc' => ?_
    rw [hentry hc (by omega), htable hc, if_pos (by omega), if_pos (by omega)]
    rfl
  · refine chainFrom_row (n := 1) le_rfl (by omega) (by omega) fun c hc hc' => ?_
    rw [hentry (by omega) (by omega), htable (by omega), if_pos (by omega), if_pos (by omega)]
    rfl
  · refine chainFrom_row hboot (by omega) (by omega) fun c hc hc' => ?_
    rw [hentry (by omega) (by omega), htable (by omega), if_neg (by omega), if_pos (by omega)]
    split
    · rfl
    · omega
  · refine chainFrom_row hkernel (by omega) (by omega) fun c hc hc' => ?_
    rw [hentry (by omega) (by omega), htable (by omega), if_neg (by omega), if_neg (by omega),
      if_pos (by omega)]
    split
    · rfl
    · omega

/-- **The clusters of the kernel hold its bytes, and zeros behind them.** -/
theorem kernel_clusters (dev : Blockdev) :
    (List.range' (4 + fileClusters boot.length g.cb) (fileClusters kernel.length g.cb)).flatMap
        (clusterBytes (imageOf g boot kernel) (volumeOf dev g))
      = kernel ++ List.replicate (fileClusters kernel.length g.cb * g.cb - kernel.length) 0 := by
  obtain ⟨hg, -, -⟩ := chooseGeometry_spec h
  have hcb := hg.cb_ge
  have hfit := fileClusters_mul_ge kernel.length (show 0 < g.cb by omega)
  -- the clusters are consecutive in the image
  have hbytes : ∀ c ∈ List.range' (4 + fileClusters boot.length g.cb)
        (fileClusters kernel.length g.cb),
      clusterBytes (imageOf g boot kernel) (volumeOf dev g) c = (List.range g.cb).map fun j =>
        bytesFrom (imageOf g boot kernel) (g.dataOff + (2 + fileClusters boot.length g.cb) * g.cb)
          ((c - (4 + fileClusters boot.length g.cb)) * g.cb + j) := by
    intro c hc
    obtain ⟨i, -, rfl⟩ := List.mem_range'.mp hc
    have hsize : (volumeOf dev g).sectorsPerCluster * 512 = g.cb := Nat.mul_comm _ _
    rw [clusterBytes, hsize]
    apply List.map_congr_left
    intro j _
    have hoff : clusterOff (volumeOf dev g) (4 + fileClusters boot.length g.cb + 1 * i) + j
        = g.dataOff + (2 + fileClusters boot.length g.cb) * g.cb
          + ((4 + fileClusters boot.length g.cb + 1 * i
            - (4 + fileClusters boot.length g.cb)) * g.cb + j) := by
      generalize fileClusters boot.length g.cb = nboot
      rw [show 4 + nboot + 1 * i - (4 + nboot) = i by omega, clusterOff,
        show 4 + nboot + 1 * i - 2 = 2 + nboot + i by omega]
      simp only [volumeOf, Geometry.dataOff, Geometry.cb, bps]
      ring
    rw [bytesFrom, hoff, bytesFrom]
  rw [List.flatMap_congr hbytes, flatMap_blocks]
  apply List.ext_getElem
  · simp only [List.length_map, List.length_range, List.length_append, List.length_replicate]
    omega
  · intro i hi hi'
    simp only [List.getElem_map, List.getElem_range, bytesFrom]
    by_cases hin : i < kernel.length
    · rw [List.getElem_append_left hin]
      have hread : (imageOf g boot kernel).getD
          (g.dataOff + (2 + fileClusters boot.length g.cb) * g.cb + i) 0 = kernel.getD i 0 :=
        image_field h (by simp [imageFields]) hin
      rw [hread, List.getD_eq_getElem?_getD, List.getElem?_eq_getElem hin]
      rfl
    · rw [List.getElem_append_right (by omega), List.getElem_replicate]
      exact image_padding h (by omega)

/-- The directory entries behind the root directory. -/
theorem dirEntry_image (dev : Blockdev) :
    dirEntry (imageOf g boot kernel) (volumeOf dev g) 2 2 = ⟨ascii "BOOT       ", 0x10, 3, 0⟩ ∧
    dirEntry (imageOf g boot kernel) (volumeOf dev g) 3 2
      = ⟨ascii "BOOTX64 EFI", 0x20, 4, boot.length⟩ := by
  obtain ⟨hg, -, -⟩ := chooseGeometry_spec h
  obtain ⟨hboot, -, -⟩ := sizes_lt h
  have hcb := hg.cb_ge
  have hlen : ∀ (name83 : List UInt8) (attr : UInt8) (cluster size : ℕ), name83.length = 11 →
      (ent name83 attr cluster size).length = 32 :=
    fun name83 attr cluster size hname => length_ent hname attr cluster size
  constructor
  · refine direntAt_ent (by decide) (by decide) (by decide) fun j hj => ?_
    rw [← dirCluster_getD hg (hlen (ascii ".          ") 0x10 2 0 (by decide))
      (hlen (ascii "..         ") 0x10 0 0 (by decide)) (hlen _ _ _ _ (by decide)) hj]
    have hoff : clusterOff (volumeOf dev g) 2 = g.dataOff := by
      simp [clusterOff, volumeOf, Geometry.dataOff, bps]
    rw [bytesFrom, hoff]
    exact image_field h (by simp [imageFields]) (by
      rw [length_dirCluster hg (hlen _ _ _ _ (by decide)) (hlen _ _ _ _ (by decide))
        (hlen _ _ _ _ (by decide))]
      omega)
  · refine direntAt_ent (by decide) (by decide) hboot fun j hj => ?_
    rw [← dirCluster_getD hg (hlen (ascii ".          ") 0x10 3 0 (by decide))
      (hlen (ascii "..         ") 0x10 2 0 (by decide)) (hlen _ _ _ _ (by decide)) hj]
    have hoff : clusterOff (volumeOf dev g) 3 = g.dataOff + g.cb := by
      simp only [clusterOff, volumeOf, Geometry.dataOff, Geometry.cb, bps]
      ring
    rw [bytesFrom, hoff]
    exact image_field h (by simp [imageFields]) (by
      rw [length_dirCluster hg (hlen _ _ _ _ (by decide)) (hlen _ _ _ _ (by decide))
        (hlen _ _ _ _ (by decide))]
      omega)

variable {dev : Blockdev} (hdev : Holds dev (imageOf g boot kernel))

include hdev

/-- **A device that holds the image mounts, with the builder's numbers.** -/
theorem fat16Mount_image (out : Fat16) (calls : List Call) :
    fat16Mount dev 0 out calls = (0, volumeOf dev g, calls ++ [⟨0, 1⟩]) := by
  obtain ⟨hg, htotal, -⟩ := chooseGeometry_spec h
  have hlen : (imageOf g boot kernel).length = g.totalSectors * 512 := length_image h
  have hblocks := hdev.blocks
  have hdata := hg.data_le
  have hstart : g.dataStart = 4 + 2 * g.fatSectors + 32 := rfl
  obtain ⟨b, hb, hbytes⟩ := hdev.blockdevRead 0 (by omega) calls
  obtain ⟨read, hread, -⟩ := hdev.read
  have hvalid : ¬(blockdevValidate dev = false ∨ dev.blockSize ≠ 512) := by
    simp only [blockdevValidate, hdev.named, hdev.blockSize, hread, Option.isSome_some]
    have hcount : dev.blockCount ≠ 0 := by omega
    simp [hcount]
  have hsector : ∀ i < 512, b i = (bootSector g).getD i 0 := by
    intro i hi
    rw [hbytes i hi, Nat.zero_mul]
    exact image_field h (by simp [imageFields]) (by rw [length_bootSector]; exact hi)
  rw [fat16Mount, if_neg hvalid, hb]
  simp only
  rw [mountBoot_bootSector hg htotal hdev.blockSize (by omega) hsector]

/-- The first sector of the root directory. -/
theorem rootSector_image (calls : List Call) :
    ∃ b, fat16ReadRootSector (volumeOf dev g) 0 calls
        = (some b, calls ++ [⟨4 + 2 * g.fatSectors, 1⟩]) ∧
      (∀ j < 32, b (0 + j) = (ent (ascii "EFI        ") 0x10 2 0).getD j 0) ∧
      ∀ j < 32, b (32 + j) = (ent (ascii "KERNEL  ELF") 0x20
        (4 + fileClusters boot.length g.cb) kernel.length).getD j 0 := by
  obtain ⟨hg, -, -⟩ := chooseGeometry_spec h
  have hlen : (imageOf g boot kernel).length = g.totalSectors * 512 := length_image h
  have hdata := hg.data_le
  have hstart : g.dataStart = 4 + 2 * g.fatSectors + 32 := rfl
  have hfat := hg.fat_le
  have hroot : (4 + 2 * g.fatSectors) * 512 = g.rootOff := rfl
  obtain ⟨b, hb, hbytes⟩ := hdev.blockdevRead (4 + 2 * g.fatSectors) (by omega) calls
  refine ⟨b, ?_, ?_, ?_⟩
  · rw [fat16ReadRootSector, if_neg (by simp [volumeOf])]
    simp only [volumeOf, Nat.add_zero]
    rw [u64_of_lt (by omega), hb]
  · intro j hj
    rw [hbytes _ (by omega), hroot, Nat.zero_add]
    exact image_field h (by simp [imageFields]) (by rw [length_ent (by decide)]; exact hj)
  · intro j hj
    rw [hbytes _ (by omega), hroot, ← Nat.add_assoc]
    exact image_field h (by simp [imageFields]) (by rw [length_ent (by decide)]; exact hj)

/-- **The root directory lists the two entries.** -/
theorem fat16FindRoot_image (calls : List Call) :
    fat16FindRoot (volumeOf dev g) (ascii "KERNEL  ELF") calls
      = (.entry ⟨ascii "KERNEL  ELF", 0x20, 4 + fileClusters boot.length g.cb, kernel.length⟩,
        calls ++ [⟨4 + 2 * g.fatSectors, 1⟩]) ∧
    fat16FindRoot (volumeOf dev g) (ascii "EFI        ") calls
      = (.entry ⟨ascii "EFI        ", 0x10, 2, 0⟩, calls ++ [⟨4 + 2 * g.fatSectors, 1⟩]) := by
  obtain ⟨-, hsize, hcluster⟩ := sizes_lt h
  obtain ⟨b, hread, hefi, hkernel⟩ := rootSector_image h hdev calls
  have h0 : direntAt b (0 * 32) = ⟨ascii "EFI        ", 0x10, 2, 0⟩ :=
    direntAt_ent (by decide) (by decide) (by decide) hefi
  have h1 : direntAt b (1 * 32) = ⟨ascii "KERNEL  ELF", 0x20, 4 + fileClusters boot.length g.cb,
      kernel.length⟩ := direntAt_ent (by decide) (by omega) hsize hkernel
  have hliveEfi : Live (ascii "EFI        ") 0x10 := by
    unfold Live
    decide
  have hliveKernel : Live (ascii "KERNEL  ELF") 0x20 := by
    unfold Live
    decide
  have hsectors : ∀ name83 found, findEntries name83 512 b 16 0 0 = .inl found →
      fat16FindRoot (volumeOf dev g) name83 calls
        = (found, calls ++ [⟨4 + 2 * g.fatSectors, 1⟩]) := by
    intro name83 found hfound
    have hleft : (volumeOf dev g).rootDirSectors = 31 + 1 := rfl
    have hcount : (volumeOf dev g).rootEntryCount = 512 := rfl
    have hper : (volumeOf dev g).bytesPerSector / 32 = 16 := by simp [volumeOf]
    rw [fat16FindRoot, if_neg (by simp [volumeOf]), hleft, findSectors, hcount, hper,
      if_pos (by decide), hread]
    simp only [hfound]
  constructor
  · apply hsectors
    rw [findEntries_skip hliveEfi h0 (by decide) (by decide),
      findEntries_hit hliveKernel h1 (by decide)]
  · exact hsectors _ _ (findEntries_hit hliveEfi h0 (by decide))

end

/-- **The builder and the reader agree.**  On a device that holds an image of the builder, mounting at
block 0 gives the builder's numbers, the root directory lists the kernel with its length, and the
chain from there, the same in both tables, leads through the kernel's bytes and disjoint from the
chains of the directories `EFI` and `EFI/BOOT` and of `BOOTX64.EFI`. -/
theorem mkfat_mounts {boot kernel : List UInt8} {built : Built} (h : mkfat boot kernel = some built)
    {dev : Blockdev} (hdev : Holds dev built.image) (out : Fat16) (calls : List Call) :
    ∃ fs mounted, fat16Mount dev 0 out calls = (0, fs, mounted) ∧
      fs.totalSectors = built.geom.totalSectors ∧ fs.sectorsPerCluster = built.geom.spc ∧
      fs.sectorsPerFat = built.geom.fatSectors ∧ fs.dataClusterCount = built.geom.clusters ∧
      fs.firstDataLba = built.geom.dataStart ∧
      -- the directories on the way to the boot loader
      (∃ d later, fat16FindRoot fs (ascii "EFI        ") mounted = (.entry d, later) ∧
        d.firstCluster = built.cefi) ∧
      dirEntry built.image fs built.cefi 2 = ⟨ascii "BOOT       ", 0x10, built.cbootdir, 0⟩ ∧
      dirEntry built.image fs built.cbootdir 2
        = ⟨ascii "BOOTX64 EFI", 0x20, built.cboot, boot.length⟩ ∧
      -- the two tables
      (∀ c < built.geom.fatSectors * 512 / 2,
        fatEntry built.image fs 0 c = fatEntry built.image fs 1 c) ∧
      -- the kernel
      ∃ d later chain, fat16FindRoot fs (ascii "KERNEL  ELF") mounted = (.entry d, later) ∧
        d.size = kernel.length ∧
        (∀ copy < 2, chainFrom (fatEntry built.image fs copy) built.geom.clusters d.firstCluster
          = some chain) ∧
        (∃ pad, chain.flatMap (clusterBytes built.image fs) = kernel ++ List.replicate pad 0) ∧
        ∀ c ∈ [built.cefi, built.cbootdir, built.cboot], ∃ other,
          (∀ copy < 2, chainFrom (fatEntry built.image fs copy) built.geom.clusters c
            = some other) ∧ List.Disjoint chain other := by
  cases hg : chooseGeometry boot kernel with
  | none => simp [mkfat, hg] at h
  | some g =>
    rw [mkfat_eq hg] at h
    obtain rfl := Option.some.inj h
    change Holds dev (imageOf g boot kernel) at hdev
    have hboot := fileClusters_pos boot.length g.cb
    have hroot := fat16FindRoot_image hg hdev (calls ++ [⟨0, 1⟩])
    have hdirs := dirEntry_image hg dev
    refine ⟨volumeOf dev g, _, fat16Mount_image hg hdev out calls, rfl, rfl, rfl, rfl, rfl,
      ⟨_, _, hroot.2, rfl⟩, hdirs.1, hdirs.2, ?_, _, _, _, hroot.1, rfl, ?_,
      ⟨_, kernel_clusters hg dev⟩, ?_⟩
    · intro c hc
      exact (fatEntry_image hg dev (by decide) hc).trans (fatEntry_image hg dev (by decide) hc).symm
    · intro copy hcopy
      exact (chains_image hg dev hcopy).2.2.2
    · intro c hc
      simp only [List.mem_cons, List.not_mem_nil, or_false] at hc
      rcases hc with rfl | rfl | rfl
      · refine ⟨_, fun copy hcopy => (chains_image hg dev hcopy).1, ?_⟩
        intro x hx hx'
        simp only [List.mem_range'_1, List.mem_singleton] at hx hx'
        omega
      · refine ⟨_, fun copy hcopy => (chains_image hg dev hcopy).2.1, ?_⟩
        intro x hx hx'
        simp only [List.mem_range'_1, List.mem_singleton] at hx hx'
        omega
      · refine ⟨_, fun copy hcopy => (chains_image hg dev hcopy).2.2.1, ?_⟩
        intro x hx hx'
        simp only [List.mem_range'_1] at hx hx'
        omega

/-- A boot loader of two sectors and a kernel of three, on a device of just the image's size. -/
theorem mkfat_mounts_smoke :
    let boot := List.replicate 700 (0x4d : UInt8)
    let kernel := List.replicate 1300 (0x7f : UInt8)
    ∃ built dev, mkfat boot kernel = some built ∧ Holds dev built.image ∧
    ∃ fs mounted, fat16Mount dev 0 (volumeOf dev ⟨0, 0, 0, 0⟩) [] = (0, fs, mounted) ∧
      fs.totalSectors = 8192 ∧ fs.sectorsPerCluster = 1 ∧ fs.dataClusterCount = 8092 ∧
      dirEntry built.image fs built.cbootdir 2 = ⟨ascii "BOOTX64 EFI", 0x20, 4, 700⟩ ∧
      ∃ d later chain, fat16FindRoot fs (ascii "KERNEL  ELF") mounted = (.entry d, later) ∧
        d.size = 1300 ∧
        (∀ copy < 2, chainFrom (fatEntry built.image fs copy) 8092 d.firstCluster = some chain) ∧
        ∃ pad, chain.flatMap (clusterBytes built.image fs) = kernel ++ List.replicate pad 0 := by
  intro boot kernel
  have hg : chooseGeometry boot kernel = some ⟨8192, 1, 32, 8092⟩ := by
    have hsmall : geometry (4 * 1024 * 1024) = some ⟨8192, 1, 32, 8092⟩ := by decide
    have hfits : geometryFits boot kernel 4 = some ⟨8192, 1, 32, 8092⟩ := by
      unfold geometryFits
      generalize geometry (4 * 1024 * 1024) = g at hsmall ⊢
      rw [hsmall, List.length_replicate, List.length_replicate]
      rfl
    unfold chooseGeometry imageSizes
    rw [List.findSome?_cons_of_isSome (by rw [hfits]; rfl), hfits]
  have h := mkfat_eq hg
  generalize hbuilt : (⟨⟨8192, 1, 32, 8092⟩, 2, 3, 4, _, _⟩ : Built) = built at h
  let dev : Blockdev :=
    ⟨true, 512, 8192, some fun _ lba _ => some fun i => built.image.getD (lba * 512 + i) 0,
      by decide, by decide⟩
  have hlen : built.image.length = 8192 * 512 := by
    rw [← hbuilt]
    exact length_image hg
  have hdev : Holds dev built.image :=
    ⟨rfl, rfl, by rw [hlen], _, rfl, fun _ _ _ => ⟨_, rfl, fun _ _ => rfl⟩⟩
  obtain ⟨fs, mounted, hmount, htotal, hspc, -, hclusters, -, -, -, hloader, -, d, later, chain, hfind, hsize,
    hchain, hbytes, -⟩ := mkfat_mounts h hdev (volumeOf dev ⟨0, 0, 0, 0⟩) []
  have hgeom : built.geom = ⟨8192, 1, 32, 8092⟩ := by rw [← hbuilt]
  have hcboot : built.cboot = 4 := by rw [← hbuilt]
  rw [hgeom] at htotal hspc hclusters hchain
  rw [hcboot, List.length_replicate] at hloader
  rw [List.length_replicate] at hsize
  exact ⟨built, dev, h, hdev, fs, mounted, hmount, htotal, hspc, hclusters, hloader, d, later, chain, hfind,
    hsize, hchain, hbytes⟩

end Orion.Disk
