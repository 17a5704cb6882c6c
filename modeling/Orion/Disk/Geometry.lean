import Orion.Disk.Mkfat

/-!
# The geometry and the table that the builder chooses

`Sound` is what every geometry of the search satisfies: the clusters fill the volume behind the
reserved sectors, the tables and the root directory, there are as many as a FAT16 volume may have,
and one table has just enough sectors for them.  The four allocations of the builder then always fit
(`mkfat_eq`), and they link one chain after the other (`tableOf_getD`).
-/

namespace Orion.Disk.Mkfat

open Orion.Lib

/-! ## The search -/

theorem ceilDiv_mul_ge (a : ℕ) {b : ℕ} (hb : 0 < b) : a ≤ ceilDiv a b * b := by
  have h := Nat.div_add_mod (a + b - 1) b
  have hlt := Nat.mod_lt (a + b - 1) hb
  unfold ceilDiv
  rw [Nat.mul_comm]
  omega

theorem ceilDiv_pred_mul_lt {a b : ℕ} (ha : 0 < a) (hb : 0 < b) : (ceilDiv a b - 1) * b < a := by
  have h := Nat.div_mul_le_self (a + b - 1) b
  have hpos : 1 ≤ (a + b - 1) / b := (Nat.le_div_iff_mul_le hb).mpr (by omega)
  unfold ceilDiv
  rw [Nat.sub_mul]
  have hle : b ≤ (a + b - 1) / b * b := Nat.le_mul_of_pos_left _ hpos
  omega

/-- What the search guarantees about a geometry. -/
structure Sound (g : Geometry) : Prop where
  spc_mem : g.spc ∈ [1, 2, 4, 8, 16, 32, 64, 128]
  clusters_eq : g.clusters = dataSectors g.totalSectors g.fatSectors / g.spc
  min : fat16MinClusters ≤ g.clusters
  max : g.clusters ≤ fat16MaxClusters
  fat_eq : g.fatSectors = ceilDiv ((g.clusters + 2) * 2) bps

/-- A round that breaks out of the loop has found a fixed point, or no room for data. -/
theorem searchFatSectors_spec {totalSectors spc : ℕ} :
    ∀ {left fatSectors found : ℕ}, searchFatSectors totalSectors spc left fatSectors = some found →
      dataSectors totalSectors found ≤ 0 ∨
        found = ceilDiv ((dataSectors totalSectors found / spc + 2) * 2) bps := by
  intro left
  induction left with
  | zero =>
    intro fatSectors found h
    simp [searchFatSectors] at h
  | succ left ih =>
    intro fatSectors found h
    rw [searchFatSectors] at h
    split at h
    · next hdata =>
      obtain rfl := Option.some.inj h
      exact .inl hdata
    · simp only at h
      split at h
      · next hfix =>
        obtain rfl := Option.some.inj h
        exact .inr hfix.symm
      · exact ih h

theorem geometryFor_sound {totalSectors spc : ℕ} {g : Geometry}
    (hspc : spc ∈ [1, 2, 4, 8, 16, 32, 64, 128]) (h : geometryFor totalSectors spc = some g) :
    Sound g ∧ g.totalSectors = totalSectors := by
  unfold geometryFor at h
  split at h
  · simp at h
  · next found hfound =>
    split at h
    · simp at h
    · next hdata =>
      simp only at h
      split at h
      · next hrange =>
        obtain rfl := Option.some.inj h
        rcases searchFatSectors_spec hfound with h0 | hfix
        · exact absurd h0 hdata
        · exact ⟨⟨hspc, rfl, hrange.1, hrange.2, hfix⟩, rfl⟩
      · simp at h

/-- **Every geometry of the search is sound.** -/
theorem geometry_sound {totalBytes : ℕ} {g : Geometry} (h : geometry totalBytes = some g) :
    Sound g ∧ g.totalSectors = totalBytes / bps := by
  obtain ⟨spc, hspc, hg⟩ := List.exists_of_findSome?_eq_some h
  exact geometryFor_sound hspc hg

namespace Sound

variable {g : Geometry} (hg : Sound g)

include hg

theorem spc_pos : 0 < g.spc := by
  have h := hg.spc_mem
  simp only [List.mem_cons, List.not_mem_nil, or_false] at h
  omega

theorem cb_ge : 512 ≤ g.cb := by
  have h := hg.spc_pos
  unfold Geometry.cb bps
  omega

/-- The regions and the data clusters fill the volume up to a rest. -/
theorem data_le : g.dataStart + g.clusters * g.spc ≤ g.totalSectors := by
  have hdiv := Nat.div_mul_le_self (dataSectors g.totalSectors g.fatSectors) g.spc
  rw [← hg.clusters_eq] at hdiv
  have hmin := hg.min
  have hpos : 0 < g.clusters * g.spc := Nat.mul_pos (by unfold fat16MinClusters at hmin; omega)
    hg.spc_pos
  have hroot : rootSecs = 32 := by decide
  unfold dataSectors at hdiv
  unfold Geometry.dataStart
  omega

theorem fat_ge : (g.clusters + 2) * 2 ≤ g.fatSectors * bps := by
  conv_rhs => rw [hg.fat_eq]
  exact ceilDiv_mul_ge _ (by decide)

theorem fat_le : g.fatSectors ≤ 256 := by
  have hmax := hg.max
  rw [hg.fat_eq]
  unfold ceilDiv bps
  unfold fat16MaxClusters at hmax
  omega

theorem fat_pos : 0 < g.fatSectors := by
  have h := hg.fat_ge
  unfold bps at h
  omega

end Sound

/-- What the choice adds: the payload fits, and the number of sectors fits 32 bits. -/
theorem chooseGeometry_spec {boot kernel : List UInt8} {g : Geometry}
    (h : chooseGeometry boot kernel = some g) :
    Sound g ∧ g.totalSectors ≤ 2 ^ 20 ∧
      (2 + fileClusters boot.length g.cb + fileClusters kernel.length g.cb) * 4
        ≤ g.clusters * 3 := by
  obtain ⟨size, hsize, hfits⟩ := List.exists_of_findSome?_eq_some h
  unfold geometryFits at hfits
  split at hfits
  · simp at hfits
  · next g' hg' =>
    simp only at hfits
    split at hfits
    · next hreq =>
      obtain rfl := Option.some.inj hfits
      obtain ⟨hsound, htotal⟩ := geometry_sound hg'
      refine ⟨hsound, ?_, hreq⟩
      rw [htotal]
      simp only [imageSizes, List.mem_cons, List.not_mem_nil, or_false] at hsize
      unfold bps
      omega
    · simp at hfits

/-! ## The table -/

theorem length_linkClusters (fat : List ℕ) (start n : ℕ) :
    (linkClusters fat start n).length = fat.length :=
  length_foldl_set start n _ fat

/-- **The loop of `alloc` links `n` clusters in a row and touches no other.** -/
theorem linkClusters_getD {fat : List ℕ} {start n : ℕ} (h : start + n ≤ fat.length) (c : ℕ) :
    (linkClusters fat start n).getD c 0 =
      if start ≤ c ∧ c < start + n then (if c = start + n - 1 then 0xffff else c + 1)
      else fat.getD c 0 := by
  rw [linkClusters, getD_foldl_set _ h]
  by_cases hin : start ≤ c ∧ c < start + n
  · rw [if_pos hin, if_pos hin]
    by_cases hlast : c = start + n - 1
    · rw [if_pos hlast, if_pos (by omega)]
    · rw [if_neg hlast, if_neg (by omega)]
      omega
  · rw [if_neg hin, if_neg hin]

/-- The table after the four allocations. -/
def tableOf (g : Geometry) (boot kernel : List UInt8) : List ℕ :=
  linkClusters
    (linkClusters (((Table.init g).fat.set 2 0xffff).set 3 0xffff) 4 (fileClusters boot.length g.cb))
    (4 + fileClusters boot.length g.cb) (fileClusters kernel.length g.cb)

theorem fileClusters_pos (len clusterBytes : ℕ) : 1 ≤ fileClusters len clusterBytes :=
  le_max_left _ _

theorem length_init (g : Geometry) : (Table.init g).fat.length = g.fatSectors * bps / 2 := by
  simp [Table.init]

theorem length_tableOf (g : Geometry) (boot kernel : List UInt8) :
    (tableOf g boot kernel).length = g.fatSectors * bps / 2 := by
  simp only [tableOf, length_linkClusters, List.length_set, length_init]

/-- **The allocations never fail**: the builder makes an image whenever it finds a geometry, with the
first clusters 2, 3, 4 and the one behind the boot loader. -/
theorem mkfat_eq {boot kernel : List UInt8} {g : Geometry}
    (h : chooseGeometry boot kernel = some g) :
    mkfat boot kernel = some ⟨g, 2, 3, 4, 4 + fileClusters boot.length g.cb,
      writeImage g (tableOf g boot kernel) 2 3 4 (4 + fileClusters boot.length g.cb) boot kernel⟩ := by
  obtain ⟨hg, -, hreq⟩ := chooseGeometry_spec h
  have hfat := hg.fat_ge
  have hlen := length_init g
  have hboot := fileClusters_pos boot.length g.cb
  have hkernel := fileClusters_pos kernel.length g.cb
  generalize hnb : fileClusters boot.length g.cb = nboot at hreq hboot
  generalize hnk : fileClusters kernel.length g.cb = nkernel at hreq hkernel
  have hefi : allocDir g (Table.init g) = some (2, ⟨(Table.init g).fat.set 2 0xffff, 3⟩) := by
    have hfits : ensureClusters g (Table.init g) 1 = true := by
      simp only [ensureClusters, hlen, Bool.and_eq_true, decide_eq_true_eq]
      simp only [Table.init]
      omega
    rw [allocDir, if_pos hfits]
    rfl
  have hdir : allocDir g ⟨(Table.init g).fat.set 2 0xffff, 3⟩
      = some (3, ⟨((Table.init g).fat.set 2 0xffff).set 3 0xffff, 4⟩) := by
    have hfits : ensureClusters g ⟨(Table.init g).fat.set 2 0xffff, 3⟩ 1 = true := by
      simp only [ensureClusters, List.length_set, hlen, Bool.and_eq_true, decide_eq_true_eq]
      omega
    rw [allocDir, if_pos hfits]
  have hb : alloc g ⟨((Table.init g).fat.set 2 0xffff).set 3 0xffff, 4⟩ boot
      = some (4, ⟨linkClusters (((Table.init g).fat.set 2 0xffff).set 3 0xffff) 4 nboot,
        4 + nboot⟩) := by
    have hfits : ensureClusters g ⟨((Table.init g).fat.set 2 0xffff).set 3 0xffff, 4⟩ nboot
        = true := by
      simp only [ensureClusters, List.length_set, hlen, Bool.and_eq_true, decide_eq_true_eq]
      omega
    rw [alloc, hnb]
    exact if_pos hfits
  have hk : alloc g ⟨linkClusters (((Table.init g).fat.set 2 0xffff).set 3 0xffff) 4 nboot,
      4 + nboot⟩ kernel = some (4 + nboot, ⟨tableOf g boot kernel, 4 + nboot + nkernel⟩) := by
    have hfits : ensureClusters g
        ⟨linkClusters (((Table.init g).fat.set 2 0xffff).set 3 0xffff) 4 nboot, 4 + nboot⟩ nkernel
        = true := by
      simp only [ensureClusters, length_linkClusters, List.length_set, hlen, Bool.and_eq_true,
        decide_eq_true_eq]
      omega
    rw [alloc, hnk, tableOf, hnb, hnk]
    exact if_pos hfits
  simp only [mkfat, h, hefi, hdir, hb, hk, Option.bind_eq_bind, Option.bind_some]
  rfl

/-- The entry of a cluster: its successor in a file, or the mark of an end. -/
theorem tableOf_getD {boot kernel : List UInt8} {g : Geometry}
    (h : chooseGeometry boot kernel = some g) {c : ℕ} (hc : 2 ≤ c) :
    (tableOf g boot kernel).getD c 0 =
      if c < 4 then 0xffff
      else if c < 4 + fileClusters boot.length g.cb then
        (if c = 4 + fileClusters boot.length g.cb - 1 then 0xffff else c + 1)
      else if c < 4 + fileClusters boot.length g.cb + fileClusters kernel.length g.cb then
        (if c = 4 + fileClusters boot.length g.cb + fileClusters kernel.length g.cb - 1 then 0xffff
        else c + 1)
      else 0 := by
  obtain ⟨hg, -, hreq⟩ := chooseGeometry_spec h
  have hfat := hg.fat_ge
  have hlen := length_init g
  unfold tableOf
  generalize fileClusters boot.length g.cb = nboot at hreq
  generalize fileClusters kernel.length g.cb = nkernel at hreq
  have hdirs : (((Table.init g).fat.set 2 0xffff).set 3 0xffff).getD c 0
      = if c < 4 then 0xffff else 0 := by
    rw [List.getD_eq_getElem?_getD, List.getElem?_set, List.getElem?_set, List.length_set, hlen]
    by_cases h3 : 3 = c
    · rw [if_pos h3, if_pos (by omega), if_pos (by omega)]
      rfl
    · by_cases h2 : 2 = c
      · rw [if_neg h3, if_pos h2, if_pos (by omega), if_pos (by omega)]
        rfl
      · rw [if_neg h3, if_neg h2, if_neg (by omega)]
        simp only [Table.init]
        rw [List.getElem?_set_ne (by omega), List.getElem?_set_ne (by omega), List.getElem?_replicate]
        split <;> rfl
  rw [linkClusters_getD (by simp only [length_linkClusters, List.length_set, hlen]; omega),
    linkClusters_getD (by simp only [List.length_set, hlen]; omega), hdirs]
  by_cases hdir : c < 4
  · rw [if_neg (by omega), if_neg (by omega), if_pos hdir, if_pos hdir]
  · by_cases hboot : c < 4 + nboot
    · rw [if_neg (by omega), if_pos (by omega), if_neg hdir, if_pos hboot]
    · by_cases hkernel : c < 4 + nboot + nkernel
      · rw [if_pos (by omega), if_neg hdir, if_neg hboot, if_pos hkernel]
      · rw [if_neg (by omega), if_neg (by omega), if_neg hdir, if_neg hdir, if_neg hboot,
          if_neg hkernel]

end Orion.Disk.Mkfat
