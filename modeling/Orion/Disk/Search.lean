import Orion.Disk.Geometry

/-!
# The search for any number of bytes

`geometry` of `mkfat.py` takes any Python integer.  Its quotients are floating point, which is exact below
`2 ^ 53` and rounds above, and fails when it overflows (`trueDivCeil`).  Whatever the rounds in between
compute, a geometry that is returned is a fixed point among small numbers, so it is sound
(`geometry_search_sound`); and for all images that can be built the search is `Mkfat.geometry`
(`geometry_eq`).  The allocations of a run stay inside the table (`run_ok`).
-/

namespace Orion.Disk.Mkfat.Python

/-! ## Python's quotients -/

/-- An integer as a floating point number: 53 bits, to the nearest, ties to even. -/
def toFloat (a : ℕ) : ℕ :=
  let unit := 2 ^ (a.log2 - 52)
  let below := a / unit
  if 2 * (a % unit) > unit ∨ (2 * (a % unit) = unit ∧ below % 2 = 1) then (below + 1) * unit
  else below * unit

inductive Error where
  | overflow
  deriving Repr, DecidableEq

/-- The least number that is too large for a float, `2 ^ 1024`. -/
def floatLimit : ℕ := (2 ^ 256) ^ 4

/-- `math.ceil(a / BPS)`; the quotient by a power of two has the digits of its numerator. -/
def trueDivCeil (a : ℕ) : Except Error ℕ :=
  if toFloat a / bps ≥ floatLimit then .error .overflow else .ok (ceilDiv (toFloat a) bps)

/-! ## The search -/

def dataSectors (totalSectors : ℤ) (fatSectors : ℕ) : ℤ :=
  totalSectors - reserved - nfats * fatSectors - rootSecs

/-- The inner loop, with the rounds left; `none` when no round breaks out of it. -/
def searchFatSectors (totalSectors : ℤ) (spc : ℕ) : ℕ → ℕ → Except Error (Option ℕ)
  | 0, _ => .ok none
  | left + 1, fatSectors =>
    if dataSectors totalSectors fatSectors ≤ 0 then .ok (some fatSectors)
    else
      let clusters := (dataSectors totalSectors fatSectors).toNat / spc
      match trueDivCeil ((clusters + 2) * 2) with
      | .error e => .error e
      | .ok neededFat =>
        if neededFat = fatSectors then .ok (some fatSectors)
        else searchFatSectors totalSectors spc left neededFat

/-- One round of the outer loop. -/
def geometryFor (totalSectors : ℤ) (spc : ℕ) : Except Error (Option Geometry) :=
  match searchFatSectors totalSectors spc 16 1 with
  | .error e => .error e
  | .ok none => .ok none
  | .ok (some fatSectors) =>
    if dataSectors totalSectors fatSectors ≤ 0 then .ok none
    else
      let clusters := (dataSectors totalSectors fatSectors).toNat / spc
      if fat16MinClusters ≤ clusters ∧ clusters ≤ fat16MaxClusters then
        .ok (some ⟨totalSectors.toNat, spc, fatSectors, clusters⟩)
      else .ok none

def searchSpc (totalSectors : ℤ) : List ℕ → Except Error (Option Geometry)
  | [] => .ok none
  | spc :: rest =>
    match geometryFor totalSectors spc with
    | .error e => .error e
    | .ok (some g) => .ok (some g)
    | .ok none => searchSpc totalSectors rest

def geometry (totalBytes : ℤ) : Except Error (Option Geometry) :=
  searchSpc (totalBytes.fdiv bps) [1, 2, 4, 8, 16, 32, 64, 128]

/-! ## Exactness -/

theorem toFloat_of_lt {a : ℕ} (h : a < 2 ^ 53) : toFloat a = a := by
  have hunit : a.log2 - 52 = 0 := by
    have hlog : a.log2 < 53 := by
      by_cases ha : a = 0
      · rw [ha]
        decide
      · exact (Nat.log2_lt ha).mpr h
    omega
  rw [toFloat, hunit, pow_zero, Nat.mod_one, Nat.div_one]
  simp

theorem lt_floatLimit {a : ℕ} (h : a < 2 ^ 53) : a < floatLimit := h.trans (by decide)

theorem trueDivCeil_of_lt {a : ℕ} (h : a < 2 ^ 53) : trueDivCeil a = .ok (ceilDiv a bps) := by
  have hlt : a / bps < floatLimit := (Nat.div_le_self a bps).trans_lt (lt_floatLimit h)
  rw [trueDivCeil, toFloat_of_lt h, if_neg (not_le.mpr hlt)]

/-- A round that breaks out of the loop has found a fixed point of what it computes, or no room for data. -/
theorem searchFatSectors_spec {totalSectors : ℤ} {spc left fatSectors found : ℕ}
    (h : searchFatSectors totalSectors spc left fatSectors = .ok (some found)) :
    dataSectors totalSectors found ≤ 0 ∨
      trueDivCeil (((dataSectors totalSectors found).toNat / spc + 2) * 2) = .ok found := by
  induction left generalizing fatSectors with
  | zero => cases h
  | succ left ih =>
    rw [searchFatSectors] at h
    split at h
    · next hdata =>
      cases h
      exact .inl hdata
    · simp only at h
      split at h
      · cases h
      · next neededFat hneeded =>
        split at h
        · next hfix =>
          cases h
          exact .inr (hfix ▸ hneeded)
        · exact ih h

theorem geometryFor_sound {totalSectors : ℤ} {spc : ℕ} {g : Geometry}
    (hspc : spc ∈ [1, 2, 4, 8, 16, 32, 64, 128]) (h : geometryFor totalSectors spc = .ok (some g)) :
    Sound g ∧ (g.totalSectors : ℤ) = totalSectors := by
  rw [geometryFor] at h
  split at h
  · cases h
  · cases h
  · next found hfound =>
    split at h
    · cases h
    next hdata =>
    simp only at h
    split at h
    · next hrange =>
      cases h
      obtain ⟨hmin, hmax⟩ := hrange
      have hdata' : dataSectors totalSectors found
          = ((Mkfat.dataSectors totalSectors.toNat found : ℕ) : ℤ) := by
        rw [dataSectors, show (nfats : ℤ) = 2 from rfl] at hdata ⊢
        rw [Mkfat.dataSectors, show nfats = 2 from rfl]
        omega
      have hfix : trueDivCeil (((dataSectors totalSectors found).toNat / spc + 2) * 2) = .ok found :=
        (searchFatSectors_spec hfound).resolve_left hdata
      have hsmall : ((dataSectors totalSectors found).toNat / spc + 2) * 2 < 2 ^ 53 := by
        unfold fat16MaxClusters at hmax
        omega
      rw [trueDivCeil_of_lt hsmall] at hfix
      refine ⟨⟨hspc, ?_, hmin, hmax, (Except.ok.inj hfix).symm⟩, ?_⟩
      · rw [hdata', Int.toNat_natCast]
      · rw [dataSectors, show (nfats : ℤ) = 2 from rfl] at hdata
        show (totalSectors.toNat : ℤ) = totalSectors
        omega
    · cases h

theorem searchSpc_sound {totalSectors : ℤ} {spcs : List ℕ} {g : Geometry}
    (hspcs : ∀ spc ∈ spcs, spc ∈ [1, 2, 4, 8, 16, 32, 64, 128])
    (h : searchSpc totalSectors spcs = .ok (some g)) : Sound g ∧ (g.totalSectors : ℤ) = totalSectors := by
  induction spcs with
  | nil => cases h
  | cons spc rest ih =>
    rw [searchSpc] at h
    split at h
    · cases h
    · next g' hg' =>
      cases h
      exact geometryFor_sound (hspcs spc List.mem_cons_self) hg'
    · exact ih (fun s hs => hspcs s (List.mem_cons_of_mem spc hs)) h

/-! ## Images that can be built -/

section

variable {totalSectors : ℕ} (hsmall : totalSectors < 2 ^ 50)

theorem toNat_dataSectors (totalSectors fatSectors : ℕ) :
    (dataSectors totalSectors fatSectors).toNat = Mkfat.dataSectors totalSectors fatSectors := by
  rw [dataSectors, Mkfat.dataSectors, show (nfats : ℤ) = 2 from rfl, show nfats = 2 from rfl]
  omega

theorem dataSectors_le_iff (totalSectors fatSectors : ℕ) :
    dataSectors totalSectors fatSectors ≤ 0 ↔ Mkfat.dataSectors totalSectors fatSectors ≤ 0 := by
  rw [← toNat_dataSectors]
  omega

include hsmall

theorem searchFatSectors_eq (spc left fatSectors : ℕ) :
    searchFatSectors totalSectors spc left fatSectors =
      .ok (Mkfat.searchFatSectors totalSectors spc left fatSectors) := by
  induction left generalizing fatSectors with
  | zero => rfl
  | succ left ih =>
    have hdata : Mkfat.dataSectors totalSectors fatSectors ≤ totalSectors := by
      unfold Mkfat.dataSectors
      omega
    have hclusters := Nat.div_le_self (Mkfat.dataSectors totalSectors fatSectors) spc
    have hexact : (Mkfat.dataSectors totalSectors fatSectors / spc + 2) * 2 < 2 ^ 53 := by omega
    rw [searchFatSectors, Mkfat.searchFatSectors]
    simp only [dataSectors_le_iff, toNat_dataSectors, trueDivCeil_of_lt hexact, ih]
    split
    · rfl
    · split <;> rfl

theorem geometryFor_eq (spc : ℕ) :
    geometryFor totalSectors spc = .ok (Mkfat.geometryFor totalSectors spc) := by
  have hfound := searchFatSectors_eq hsmall spc 16 1
  unfold geometryFor Mkfat.geometryFor
  generalize Mkfat.searchFatSectors totalSectors spc 16 1 = found at hfound ⊢
  generalize searchFatSectors totalSectors spc 16 1 = result at hfound ⊢
  subst hfound
  cases found with
  | none => rfl
  | some fatSectors =>
    simp only [dataSectors_le_iff, toNat_dataSectors, Int.toNat_natCast]
    split
    · rfl
    · split <;> rfl

theorem searchSpc_eq (spcs : List ℕ) :
    searchSpc totalSectors spcs = .ok (spcs.findSome? (Mkfat.geometryFor totalSectors)) := by
  induction spcs with
  | nil => rfl
  | cons spc rest ih =>
    rw [searchSpc, geometryFor_eq hsmall, List.findSome?_cons]
    cases Mkfat.geometryFor totalSectors spc with
    | none => exact ih
    | some g => rfl

end

/-- **Below 512 TiB the search is the one with exact quotients.** -/
theorem geometry_eq {totalBytes : ℕ} (h : totalBytes < 2 ^ 59) :
    geometry totalBytes = .ok (Mkfat.geometry totalBytes) := by
  have hdiv : Int.fdiv (totalBytes : ℤ) (bps : ℤ) = ((totalBytes / bps : ℕ) : ℤ) := by
    rw [Int.fdiv_eq_ediv_of_nonneg _ (Int.natCast_nonneg bps), Int.natCast_ediv]
  have hsectors : totalBytes / bps < 2 ^ 50 := by
    rw [show bps = 512 from rfl]
    omega
  rw [geometry, Mkfat.geometry, hdiv]
  exact searchSpc_eq hsectors _

/-! ## Allocations -/

/-- What `mkfat.py` allocates clusters for. -/
inductive Request where
  | dir
  | blob (bytes : List UInt8)

/-- The number of clusters. -/
def Request.count (g : Geometry) : Request → ℕ
  | .dir => 1
  | .blob bytes => fileClusters bytes.length g.cb

/-- The first cluster, and the table afterwards. -/
def Request.run (g : Geometry) (t : Table) : Request → Option (ℕ × Table)
  | .dir => allocDir g t
  | .blob bytes => alloc g t bytes

/-- One allocation after the other. -/
def runAll (g : Geometry) : Table → List Request → Option Table
  | t, [] => some t
  | t, r :: rs =>
    match r.run g t with
    | none => none
    | some (_, t') => runAll g t' rs

/-- The table has its size, and its first two entries are not given away. -/
structure TableOk (g : Geometry) (t : Table) : Prop where
  nextcl : 2 ≤ t.nextcl
  length : t.fat.length = g.fatSectors * bps / 2

theorem init_ok (g : Geometry) : TableOk g (Table.init g) := ⟨le_rfl, length_init g⟩

/-- What `ensure_clusters` lets through, and what is written then. -/
structure Allocated (g : Geometry) (t : Table) (n c : ℕ) (t' : Table) : Prop where
  first : c = t.nextcl
  clusters : c + n ≤ g.clusters + 2
  inside : c + n ≤ t.fat.length
  nextcl : t'.nextcl = t.nextcl + n
  length : t'.fat.length = t.fat.length
  others : ∀ k, ¬ (c ≤ k ∧ k < c + n) → t'.fat[k]? = t.fat[k]?

theorem ensureClusters_spec {g : Geometry} {t : Table} {n : ℕ} (h : ensureClusters g t n = true) :
    t.nextcl + n ≤ g.clusters + 2 ∧ t.nextcl + n ≤ t.fat.length := by
  simp only [ensureClusters, Bool.and_eq_true, decide_eq_true_eq] at h
  exact ⟨h.1.2, h.2⟩

/-- **What an allocation uses.** -/
theorem run_spec {g : Geometry} {t t' : Table} {r : Request} {c : ℕ} (h : r.run g t = some (c, t')) :
    Allocated g t (r.count g) c t' := by
  cases r with
  | dir =>
    have h' : allocDir g t = some (c, t') := h
    rw [allocDir] at h'
    split at h'
    · next hfits =>
      cases h'
      obtain ⟨hclusters, hinside⟩ := ensureClusters_spec hfits
      refine ⟨rfl, hclusters, hinside, rfl, List.length_set .., fun k hk => ?_⟩
      have hne : t.nextcl ≠ k := fun heq => hk ⟨heq.le, by rw [← heq]; exact Nat.lt_succ_self _⟩
      exact List.getElem?_set_ne hne
    · cases h'
  | blob bytes =>
    have h' : alloc g t bytes = some (c, t') := h
    rw [alloc] at h'
    split at h'
    · next hfits =>
      cases h'
      obtain ⟨hclusters, hinside⟩ := ensureClusters_spec hfits
      exact ⟨rfl, hclusters, hinside, rfl, length_linkClusters ..,
        fun k hk => Lib.getElem?_foldl_set_of_not_mem _ _ hk⟩
    · cases h'

theorem run_ok {g : Geometry} {t t' : Table} {r : Request} {c : ℕ} (ht : TableOk g t)
    (h : r.run g t = some (c, t')) : TableOk g t' := by
  have hspec := run_spec h
  refine ⟨?_, hspec.length.trans ht.length⟩
  rw [hspec.nextcl]
  exact ht.nextcl.trans (Nat.le_add_right _ _)

theorem runAll_ok {g : Geometry} {t t' : Table} {rs : List Request} (ht : TableOk g t)
    (h : runAll g t rs = some t') : TableOk g t' := by
  induction rs generalizing t with
  | nil =>
    cases h
    exact ht
  | cons r rs ih =>
    rw [runAll] at h
    split at h
    · cases h
    · next c next hrun => exact ih (run_ok ht hrun) h

/-- **Every geometry that is found is consistent**, and all allocations stay inside the table. -/
theorem geometry_search_sound (totalBytes : ℤ) (g : Geometry) (h : geometry totalBytes = .ok (some g)) :
    ((g.totalSectors : ℤ) = totalBytes.fdiv 512 ∧
      (g.clusters : ℤ) = ((g.totalSectors : ℤ) - 4 - 2 * g.fatSectors - 32).fdiv g.spc ∧
      4085 ≤ g.clusters ∧ g.clusters ≤ 65524 ∧
      IsLeast {sectors : ℕ | (g.clusters + 2) * 16 ≤ sectors * (512 * 8)} g.fatSectors) ∧
    ∀ (rs : List Request) (t : Table), runAll g (Table.init g) rs = some t →
      ∀ (r : Request) (c : ℕ) (t' : Table), r.run g t = some (c, t') →
        (∀ k, c ≤ k → k < c + r.count g → 2 ≤ k ∧ k < g.clusters + 2 ∧ k < t.fat.length) ∧
        ∀ k, t'.fat[k]? ≠ t.fat[k]? → c ≤ k ∧ k < c + r.count g := by
  obtain ⟨hsound, htotal⟩ := searchSpc_sound (fun _ h => h) h
  refine ⟨⟨htotal, ?_, hsound.min, hsound.max, ?_⟩, fun rs t hrs r c t' hr => ?_⟩
  · have hdata : ((Mkfat.dataSectors g.totalSectors g.fatSectors : ℕ) : ℤ)
        = (g.totalSectors : ℤ) - 4 - 2 * g.fatSectors - 32 := by
      have hpos : Mkfat.dataSectors g.totalSectors g.fatSectors ≠ 0 := by
        intro hzero
        have hmin := hsound.min
        rw [hsound.clusters_eq, hzero, Nat.zero_div] at hmin
        exact absurd hmin (by decide)
      have hroot : rootSecs = 32 := by decide
      rw [Mkfat.dataSectors, hroot, show nfats = 2 from rfl, show reserved = 4 from rfl] at hpos ⊢
      omega
    rw [← hdata, Int.fdiv_eq_ediv_of_nonneg _ (Int.natCast_nonneg _), ← Int.natCast_ediv, hsound.clusters_eq]
  · have hfat := hsound.fat_eq
    rw [show bps = 512 from rfl] at hfat
    refine ⟨?_, fun sectors hsectors => ?_⟩
    · have hge := ceilDiv_mul_ge ((g.clusters + 2) * 2) (show 0 < 512 by decide)
      show (g.clusters + 2) * 16 ≤ g.fatSectors * (512 * 8)
      rw [← hfat] at hge
      omega
    · have hroom : (g.clusters + 2) * 16 ≤ sectors * (512 * 8) := hsectors
      have hlt := ceilDiv_pred_mul_lt (show 0 < (g.clusters + 2) * 2 by omega) (show 0 < 512 by decide)
      rw [← hfat] at hlt
      omega
  · have ht := runAll_ok (init_ok g) hrs
    have hspec := run_spec hr
    have hclusters := hspec.clusters
    have hinside := hspec.inside
    have hfirst := hspec.first
    have hnext := ht.nextcl
    refine ⟨fun k hk hk' => ⟨by omega, by omega, by omega⟩, fun k hk => ?_⟩
    by_contra hout
    exact hk (hspec.others k hout)

/-- The smallest image. -/
theorem geometry_smallest : geometry (4 * 1024 * 1024 : ℕ) = .ok (some ⟨8192, 1, 32, 8092⟩) := by
  rw [geometry_eq (by decide)]
  decide +kernel

theorem geometry_search_sound_smallest :
    (((8192 : ℕ) : ℤ) = ((4 * 1024 * 1024 : ℕ) : ℤ).fdiv 512 ∧
      ((8092 : ℕ) : ℤ) = (((8192 : ℕ) : ℤ) - 4 - 2 * (32 : ℕ) - 32).fdiv (1 : ℕ) ∧
      4085 ≤ 8092 ∧ 8092 ≤ 65524 ∧ IsLeast {sectors : ℕ | (8092 + 2) * 16 ≤ sectors * (512 * 8)} 32) ∧
    ∀ (rs : List Request) (t : Table), runAll ⟨8192, 1, 32, 8092⟩ (Table.init ⟨8192, 1, 32, 8092⟩) rs = some t →
      ∀ (r : Request) (c : ℕ) (t' : Table), r.run ⟨8192, 1, 32, 8092⟩ t = some (c, t') →
        (∀ k, c ≤ k → k < c + r.count ⟨8192, 1, 32, 8092⟩ → 2 ≤ k ∧ k < 8092 + 2 ∧ k < t.fat.length) ∧
        ∀ k, t'.fat[k]? ≠ t.fat[k]? → c ≤ k ∧ k < c + r.count ⟨8192, 1, 32, 8092⟩ :=
  geometry_search_sound (4 * 1024 * 1024 : ℕ) ⟨8192, 1, 32, 8092⟩ geometry_smallest

end Orion.Disk.Mkfat.Python
