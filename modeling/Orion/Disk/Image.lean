import Orion.Disk.Geometry

/-!
# What the image holds

The image of the builder is one layout of nine disjoint fields: the boot sector, the two tables, the
two entries of the root directory, the two directories and the two files (`writeImage_eq`).  So every
byte of the image is known (`image_field`, `image_padding`).
-/

namespace Orion.Disk.Mkfat

open Orion.Lib

/-! ## The parts -/

theorem length_packH (v : ℕ) : (packH v).length = 2 := rfl

theorem length_packI (v : ℕ) : (packI v).length = 4 := rfl

theorem bootFields_in (g : Geometry) :
    ∀ f ∈ bootFields g, f.1 + f.2.length ≤ (List.replicate bps (0 : UInt8)).length := by
  rw [List.length_replicate, bps]
  simp [bootFields, length_packH, length_packI]

theorem bootFields_apart (g : Geometry) : (bootFields g).Pairwise Apart := by
  simp [bootFields, length_packH, length_packI, Apart]

theorem length_bootSector (g : Geometry) : (bootSector g).length = 512 := by
  rw [bootSector, length_layout (bootFields_in g), List.length_replicate]
  rfl

/-- Every field of the boot sector is there. -/
theorem bootSector_getD {g : Geometry} {off : ℕ} {blob : List UInt8}
    (h : (off, blob) ∈ bootFields g) {i : ℕ} (hi : i < blob.length) :
    (bootSector g).getD (off + i) 0 = blob.getD i 0 :=
  getD_layout (bootFields_in g) (bootFields_apart g) h hi 0

section

variable {name83 : List UInt8} (hname : name83.length = 11) (attr : UInt8) (cluster size : ℕ)

include hname

theorem entFields_in : ∀ f ∈ [(0, name83), (11, [attr]), (26, packH cluster), (28, packI size)],
    f.1 + f.2.length ≤ (List.replicate 32 (0 : UInt8)).length := by
  simp [length_packH, length_packI, hname]

theorem entFields_apart :
    [(0, name83), (11, [attr]), (26, packH cluster), (28, packI size)].Pairwise Apart := by
  simp [length_packH, length_packI, Apart, hname]

theorem length_ent : (ent name83 attr cluster size).length = 32 := by
  rw [ent, length_layout (entFields_in hname attr cluster size), List.length_replicate]

theorem ent_getD {off : ℕ} {blob : List UInt8}
    (h : (off, blob) ∈ [(0, name83), (11, [attr]), (26, packH cluster), (28, packI size)]) {i : ℕ}
    (hi : i < blob.length) : (ent name83 attr cluster size).getD (off + i) 0 = blob.getD i 0 :=
  getD_layout (entFields_in hname attr cluster size) (entFields_apart hname attr cluster size) h hi 0

end

/-- The writes to `fatbytes`. -/
theorem fatBytes_eq (g : Geometry) (fat : List ℕ) :
    fatBytes g fat = layout (List.replicate (g.fatSectors * bps) 0)
      (fat.zipIdx.map fun entry => (entry.2 * 2, packH entry.1)) := by
  rw [fatBytes, layout, List.foldl_map]

section

variable {g : Geometry} {fat : List ℕ} (hlen : fat.length = g.fatSectors * bps / 2)

include hlen

theorem fatFields_in : ∀ f ∈ fat.zipIdx.map fun entry => (entry.2 * 2, packH entry.1),
    f.1 + f.2.length ≤ (List.replicate (g.fatSectors * bps) (0 : UInt8)).length := by
  intro f hf
  obtain ⟨⟨v, i⟩, hmem, rfl⟩ := List.mem_map.mp hf
  have hi := List.snd_lt_of_mem_zipIdx hmem
  simp only [length_packH, List.length_replicate]
  omega

theorem length_fatBytes : (fatBytes g fat).length = g.fatSectors * 512 := by
  rw [fatBytes_eq, length_layout (fatFields_in hlen), List.length_replicate]
  rfl

omit hlen in
theorem fatFields_apart :
    (fat.zipIdx.map fun entry => (entry.2 * 2, packH entry.1)).Pairwise Apart := by
  rw [List.pairwise_map, List.pairwise_iff_getElem]
  intro i j hi hj hij
  left
  simp only [List.getElem_zipIdx, length_packH]
  omega

/-- The table holds its entries. -/
theorem fatBytes_getD {c : ℕ} (hc : c < fat.length) {i : ℕ} (hi : i < 2) :
    (fatBytes g fat).getD (c * 2 + i) 0 = (packH (fat.getD c 0)).getD i 0 := by
  rw [fatBytes_eq]
  refine getD_layout (fatFields_in hlen) fatFields_apart (f := (c * 2, packH (fat.getD c 0))) ?_ hi 0
  refine List.mem_map.mpr ⟨(fat.getD c 0, c), ?_, rfl⟩
  rw [List.mem_zipIdx_iff_getElem?, List.getD_eq_getElem?_getD, List.getElem?_eq_getElem hc]
  rfl

end

theorem length_dirCluster {g : Geometry} (hg : Sound g) {e0 e1 e2 : List UInt8}
    (h0 : e0.length = 32) (h1 : e1.length = 32) (h2 : e2.length = 32) :
    (dirCluster g e0 e1 e2).length = g.cb := by
  have hcb := hg.cb_ge
  rw [dirCluster, length_layout, List.length_replicate]
  simp only [List.length_replicate, List.mem_cons, List.not_mem_nil, or_false, forall_eq_or_imp,
    forall_eq, h0, h1, h2]
  omega

/-- The third entry of a directory. -/
theorem dirCluster_getD {g : Geometry} (hg : Sound g) {e0 e1 e2 : List UInt8}
    (h0 : e0.length = 32) (h1 : e1.length = 32) (h2 : e2.length = 32) {i : ℕ} (hi : i < 32) :
    (dirCluster g e0 e1 e2).getD (64 + i) 0 = e2.getD i 0 := by
  have hcb := hg.cb_ge
  refine getD_layout (f := (64, e2)) ?_ ?_ (by simp) (by rw [h2]; exact hi) 0
  · simp only [List.length_replicate, List.mem_cons, List.not_mem_nil, or_false, forall_eq_or_imp,
      forall_eq, h0, h1, h2]
    omega
  · simp [Apart, h0, h1]

/-! ## Files -/

theorem fileClusters_mul_ge (len : ℕ) {clusterBytes : ℕ} (h : 0 < clusterBytes) :
    len ≤ fileClusters len clusterBytes * clusterBytes :=
  le_trans (ceilDiv_mul_ge len h) (Nat.mul_le_mul_right _ (le_max_right _ _))

theorem fileClusters_pred_mul_le (len : ℕ) {clusterBytes : ℕ} (h : 0 < clusterBytes) :
    (fileClusters len clusterBytes - 1) * clusterBytes ≤ len := by
  unfold fileClusters
  rcases Nat.eq_zero_or_pos len with rfl | hpos
  · have hzero : ceilDiv 0 clusterBytes = 0 := by
      unfold ceilDiv
      rw [Nat.zero_add]
      exact Nat.div_eq_of_lt (by omega)
    rw [hzero]
    simp
  · have hlt := ceilDiv_pred_mul_lt hpos h
    rcases le_total 1 (ceilDiv len clusterBytes) with hone | hone
    · rw [max_eq_right hone]
      exact hlt.le
    · rw [max_eq_left hone]
      simp

/-- **Writing a file cluster by cluster is writing it at once.** -/
theorem writeFile_eq {g : Geometry} (hg : Sound g) {image blob : List UInt8} {start : ℕ}
    (hstart : 2 ≤ start)
    (hfits : g.dataOff + (start - 2) * g.cb + blob.length ≤ image.length) :
    writeFile g image start blob = splice image (g.dataOff + (start - 2) * g.cb) blob := by
  have hcb : 0 < g.cb := by
    have h := hg.cb_ge
    omega
  have hchunks := foldl_splice_chunks hfits (fileClusters blob.length g.cb)
    (fileClusters_pred_mul_le blob.length hcb)
  rw [List.take_of_length_le (fileClusters_mul_ge blob.length hcb)] at hchunks
  have hstep : (fun image i =>
        writeCluster g image (start + i) ((blob.drop (i * g.cb)).take g.cb))
      = fun image i => splice image (g.dataOff + (start - 2) * g.cb + i * g.cb)
        ((blob.drop (i * g.cb)).take g.cb) := by
    funext image i
    rw [writeCluster, show start + i - 2 = start - 2 + i by omega, Nat.add_mul, Nat.add_assoc]
  rw [writeFile, hstep, hchunks]

/-! ## The layout -/

/-- The writes to `image`. -/
def imageFields (g : Geometry) (fat : List ℕ) (nboot : ℕ) (boot kernel : List UInt8) :
    List (ℕ × List UInt8) :=
  [(0, bootSector g),
    (4 * 512, fatBytes g fat),
    ((4 + g.fatSectors) * 512, fatBytes g fat),
    (g.rootOff, ent (ascii "EFI        ") 0x10 2 0),
    (g.rootOff + 32, ent (ascii "KERNEL  ELF") 0x20 (4 + nboot) kernel.length),
    (g.dataOff, dirCluster g
      (ent (ascii ".          ") 0x10 2 0)
      (ent (ascii "..         ") 0x10 0 0)
      (ent (ascii "BOOT       ") 0x10 3 0)),
    (g.dataOff + g.cb, dirCluster g
      (ent (ascii ".          ") 0x10 3 0)
      (ent (ascii "..         ") 0x10 2 0)
      (ent (ascii "BOOTX64 EFI") 0x20 4 boot.length)),
    (g.dataOff + 2 * g.cb, boot),
    (g.dataOff + (2 + nboot) * g.cb, kernel)]

section

variable {g : Geometry} {boot kernel : List UInt8} (h : chooseGeometry boot kernel = some g)

include h

/-- The files end inside the image. -/
theorem files_le : g.dataOff
    + (2 + fileClusters boot.length g.cb + fileClusters kernel.length g.cb) * g.cb
    ≤ g.totalSectors * 512 := by
  obtain ⟨hg, -, hreq⟩ := chooseGeometry_spec h
  have hdata := hg.data_le
  generalize 2 + fileClusters boot.length g.cb + fileClusters kernel.length g.cb = used at hreq
  have hused : used ≤ g.clusters := by omega
  calc g.dataOff + used * g.cb
      ≤ g.dataOff + g.clusters * g.cb := Nat.add_le_add_left (Nat.mul_le_mul_right _ hused) _
    _ = (g.dataStart + g.clusters * g.spc) * 512 := by
      unfold Geometry.dataOff Geometry.cb bps
      ring
    _ ≤ g.totalSectors * 512 := Nat.mul_le_mul_right _ hdata

theorem imageFields_chain :
    (imageFields g (tableOf g boot kernel) (fileClusters boot.length g.cb) boot kernel).IsChain
      fun f f' => f.1 + f.2.length ≤ f'.1 := by
  obtain ⟨hg, -, -⟩ := chooseGeometry_spec h
  have hcb := hg.cb_ge
  have hboot := fileClusters_mul_ge boot.length (show 0 < g.cb by omega)
  have hfat := length_fatBytes (length_tableOf g boot kernel)
  have hroot : g.rootOff = (4 + 2 * g.fatSectors) * 512 := rfl
  have hdata : g.dataOff = (4 + 2 * g.fatSectors + 32) * 512 := rfl
  simp only [imageFields, List.isChain_cons_cons, List.isChain_singleton, and_true,
    length_bootSector, hfat, Nat.add_mul (2 : ℕ)]
  rw [length_ent (by decide), length_ent (by decide),
    length_dirCluster hg (length_ent (by decide) _ _ _) (length_ent (by decide) _ _ _)
      (length_ent (by decide) _ _ _),
    length_dirCluster hg (length_ent (by decide) _ _ _) (length_ent (by decide) _ _ _)
      (length_ent (by decide) _ _ _)]
  omega

/-- The kernel is the last of the fields. -/
theorem imageFields_le : ∀ f ∈ imageFields g (tableOf g boot kernel)
      (fileClusters boot.length g.cb) boot kernel,
    f.1 + f.2.length ≤ g.dataOff + (2 + fileClusters boot.length g.cb) * g.cb + kernel.length := by
  have hsplit : imageFields g (tableOf g boot kernel) (fileClusters boot.length g.cb) boot kernel =
      (imageFields g (tableOf g boot kernel) (fileClusters boot.length g.cb) boot kernel).take 8 ++
        [(g.dataOff + (2 + fileClusters boot.length g.cb) * g.cb, kernel)] := rfl
  have hchain := imageFields_chain h
  rw [hsplit] at hchain ⊢
  intro f hf
  exact end_le_of_isChain hchain hf

theorem imageFields_in : ∀ f ∈ imageFields g (tableOf g boot kernel)
      (fileClusters boot.length g.cb) boot kernel,
    f.1 + f.2.length ≤ (List.replicate (g.totalSectors * bps) (0 : UInt8)).length := by
  obtain ⟨hg, -, -⟩ := chooseGeometry_spec h
  have hcb := hg.cb_ge
  have hkernel := fileClusters_mul_ge kernel.length (show 0 < g.cb by omega)
  have hend := files_le h
  have htotal : g.totalSectors * bps = g.totalSectors * 512 := rfl
  intro f hf
  have hle := imageFields_le h f hf
  rw [Nat.add_mul (2 + _)] at hend
  rw [List.length_replicate]
  omega

/-- **The image is the layout of its nine fields.** -/
theorem writeImage_eq : writeImage g (tableOf g boot kernel) 2 3 4
      (4 + fileClusters boot.length g.cb) boot kernel
    = layout (List.replicate (g.totalSectors * bps) 0) (imageFields g (tableOf g boot kernel)
      (fileClusters boot.length g.cb) boot kernel) := by
  obtain ⟨hg, -, -⟩ := chooseGeometry_spec h
  have hcb := hg.cb_ge
  have hin := imageFields_in h
  have hboot := fileClusters_mul_ge boot.length (show 0 < g.cb by omega)
  have hkernel := fileClusters_mul_ge kernel.length (show 0 < g.cb by omega)
  have hend := files_le h
  generalize tableOf g boot kernel = fat at hin ⊢
  generalize fileClusters boot.length g.cb = nboot at *
  generalize fileClusters kernel.length g.cb = nkernel at *
  simp only [Nat.add_mul] at hend
  generalize hbuf : List.replicate (g.totalSectors * bps) (0 : UInt8) = buf at hin
  have hlen : buf.length = g.totalSectors * 512 := by
    rw [← hbuf, List.length_replicate]
    rfl
  -- the first seven writes, then the two files
  have hseven : (layout buf ((imageFields g fat nboot boot kernel).take 7)).length = buf.length :=
    length_layout fun f hf => hin f (List.mem_of_mem_take hf)
  have height : (layout buf ((imageFields g fat nboot boot kernel).take 8)).length = buf.length :=
    length_layout fun f hf => hin f (List.mem_of_mem_take hf)
  have hfile : writeFile g (layout buf ((imageFields g fat nboot boot kernel).take 7)) 4 boot
      = layout buf ((imageFields g fat nboot boot kernel).take 8) := by
    rw [writeFile_eq hg (by omega) (by omega)]
    rfl
  have hlast : writeFile g (layout buf ((imageFields g fat nboot boot kernel).take 8)) (4 + nboot)
      kernel = layout buf (imageFields g fat nboot boot kernel) := by
    have hoff : 4 + nboot - 2 = 2 + nboot := by omega
    rw [writeFile_eq hg (by omega) (by rw [hoff, Nat.add_mul]; omega), hoff]
    rfl
  rw [← hlast, ← hfile, writeImage, hbuf]
  have hfirst : g.dataOff + (2 - 2) * g.cb = g.dataOff := by simp
  have hsecond : g.dataOff + (3 - 2) * g.cb = g.dataOff + g.cb := by simp
  have hfats : List.range nfats = [0, 1] := rfl
  have hfat0 : (reserved + 0 * g.fatSectors) * bps = 4 * 512 := by simp [reserved, bps]
  have hfat1 : (reserved + 1 * g.fatSectors) * bps = (4 + g.fatSectors) * 512 := by
    simp [reserved, bps]
  simp only [writeCluster, hfirst, hsecond, hfats, List.foldl_cons, List.foldl_nil, hfat0, hfat1,
    layout, imageFields, List.take_succ_cons, List.take_zero]

/-- Every field of the image is there. -/
theorem image_field {off : ℕ} {blob : List UInt8} (hf : (off, blob) ∈ imageFields g
      (tableOf g boot kernel) (fileClusters boot.length g.cb) boot kernel) {i : ℕ}
    (hi : i < blob.length) :
    (writeImage g (tableOf g boot kernel) 2 3 4 (4 + fileClusters boot.length g.cb) boot
      kernel).getD (off + i) 0 = blob.getD i 0 := by
  rw [writeImage_eq h]
  exact getD_layout (imageFields_in h) (pairwise_apart_of_isChain (imageFields_chain h)) hf hi 0

/-- The rest of the last cluster of the kernel is zero. -/
theorem image_padding {i : ℕ} (hi : kernel.length ≤ i) :
    (writeImage g (tableOf g boot kernel) 2 3 4 (4 + fileClusters boot.length g.cb) boot
      kernel).getD (g.dataOff + (2 + fileClusters boot.length g.cb) * g.cb + i) 0 = 0 := by
  rw [writeImage_eq h, getD_layout_out (imageFields_in h)]
  · rw [List.getD_eq_getElem?_getD, List.getElem?_replicate]
    split <;> rfl
  · intro f hf
    have hle := imageFields_le h f hf
    omega

theorem length_image : (writeImage g (tableOf g boot kernel) 2 3 4
    (4 + fileClusters boot.length g.cb) boot kernel).length = g.totalSectors * 512 := by
  rw [writeImage_eq h, length_layout (imageFields_in h), List.length_replicate]
  rfl

end

end Orion.Disk.Mkfat
