import Orion.Disk.Covers

/-!
# What a root directory lookup finds

`fat16_find_root` walks sectors and, in each, entries; a running count cuts the last sector short.  The
specification knows neither: it takes the entries one by one, up to the first that decides
(`Searchable.fat16FindRoot`, `fat16_find_root_spec`).  What the driver answers may depend on all calls
before.
-/

namespace Orion.Disk

/-! ## The entries -/

/-- What the driver answers when it is asked for sector `i` of the root directory, the sectors before
having been asked for in order after `calls`. -/
def rootSector (fs : Fat16) (calls : List Call) (i : ℕ) : Option Bytes :=
  fs.dev.read.bind fun read =>
    read (calls ++ (List.range i).map fun j => ⟨fs.firstRootLba + j, 1⟩) (fs.firstRootLba + i) 1

section

variable (sectors : ℕ → Option Bytes) (name83 : List UInt8)

/-- Entry `k` lies in a sector that cannot be read. -/
def Unreadable (k : ℕ) : Prop := sectors (k / 16) = none

/-- Entry `k` is the end mark. -/
def EndMark (k : ℕ) : Prop := ∃ sector, sectors (k / 16) = some sector ∧ sector (k % 16 * 32) = 0

/-- A used entry that is neither deleted nor part of a long name nor a volume label, with this name. -/
def NamedAt (sector : Bytes) (e : ℕ) : Prop :=
  sector e ≠ 0xe5 ∧ sector (e + 11) ≠ 0x0f ∧ sector (e + 11) &&& 0x08 = 0 ∧ entryName sector e = name83

/-- Entry `k` is the wanted one, with the data `d`. -/
def Wanted (k : ℕ) (d : Dirent) : Prop :=
  ∃ sector, sectors (k / 16) = some sector ∧ sector (k % 16 * 32) ≠ 0 ∧
    NamedAt name83 sector (k % 16 * 32) ∧ d = direntAt sector (k % 16 * 32)

/-- Entry `k` can be read, and is neither the end mark nor the wanted one. -/
def Passed (k : ℕ) : Prop :=
  ∃ sector, sectors (k / 16) = some sector ∧ sector (k % 16 * 32) ≠ 0 ∧
    ¬ NamedAt name83 sector (k % 16 * 32)

/-! ## The specification -/

/-- What an entry of a sector decides, if it does. -/
def judgeIn (sector : Bytes) (e : ℕ) : Option Found :=
  if sector e = 0 then some .absent
  else if sector e = 0xe5 ∨ sector (e + 11) = 0x0f ∨ sector (e + 11) &&& 0x08 ≠ 0 ∨
      entryName sector e ≠ name83 then none
  else some (.entry (direntAt sector e))

def judge (k : ℕ) : Option Found :=
  match sectors (k / 16) with
  | none => some .error
  | some sector => judgeIn name83 sector (k % 16 * 32)

/-- The first of `left` entries from `k` on that decides. -/
def scanEntries : ℕ → ℕ → Found
  | 0, _ => .absent
  | left + 1, k =>
    match judge sectors name83 k with
    | some found => found
    | none => scanEntries left (k + 1)

end

section

variable {sectors : ℕ → Option Bytes} {name83 : List UInt8}

theorem judgeIn_none_iff {sector : Bytes} {e : ℕ} :
    judgeIn name83 sector e = none ↔ sector e ≠ 0 ∧ ¬ NamedAt name83 sector e := by
  unfold judgeIn NamedAt
  split
  · next hzero => simp [hzero]
  next hzero =>
  split
  · next hskip =>
    simp only [true_iff]
    refine ⟨hzero, fun hnamed => ?_⟩
    tauto
  · next htake =>
    simp only [not_or, not_not] at htake
    simp [hzero, htake]

theorem judgeIn_some_iff {sector : Bytes} {e : ℕ} {found : Found} :
    judgeIn name83 sector e = some found ↔ sector e = 0 ∧ found = .absent ∨
      sector e ≠ 0 ∧ NamedAt name83 sector e ∧ found = .entry (direntAt sector e) := by
  unfold judgeIn NamedAt
  split
  · next hzero => simp [hzero, eq_comm]
  next hzero =>
  split
  · next hskip =>
    simp only [reduceCtorEq, false_iff]
    tauto
  · next htake =>
    simp only [not_or, not_not] at htake
    simp [hzero, htake, eq_comm]

theorem judge_none_iff {k : ℕ} : judge sectors name83 k = none ↔ Passed sectors name83 k := by
  unfold judge Passed
  cases sectors (k / 16) with
  | none => simp
  | some sector => simp [judgeIn_none_iff]

theorem judge_some_iff {k : ℕ} {found : Found} : judge sectors name83 k = some found ↔
    (Unreadable sectors k ∧ found = .error) ∨ (EndMark sectors k ∧ found = .absent) ∨
      ∃ d, Wanted sectors name83 k d ∧ found = .entry d := by
  unfold judge Unreadable EndMark Wanted
  cases sectors (k / 16) with
  | none => simp [eq_comm]
  | some sector =>
    simp only [judgeIn_some_iff, Option.some.injEq, exists_eq_left', reduceCtorEq, false_and, false_or]
    constructor
    · rintro (h | ⟨hne, hnamed, rfl⟩)
      · exact .inl h
      · exact .inr ⟨_, ⟨hne, hnamed, rfl⟩, rfl⟩
    · rintro (h | ⟨d, ⟨hne, hnamed, rfl⟩, rfl⟩)
      · exact .inl h
      · exact .inr ⟨hne, hnamed, rfl⟩

/-- **The scan ends at the first entry that decides**, or finds nothing. -/
theorem scanEntries_eq_iff {left : ℕ} : ∀ {k : ℕ} {found : Found},
    scanEntries sectors name83 left k = found ↔
      (∃ i < left, (∀ j < i, judge sectors name83 (k + j) = none) ∧
        judge sectors name83 (k + i) = some found) ∨
      (∀ j < left, judge sectors name83 (k + j) = none) ∧ found = .absent := by
  induction left with
  | zero =>
    intro k found
    simp [scanEntries, eq_comm]
  | succ left ih =>
    intro k found
    rw [scanEntries]
    cases hjudge : judge sectors name83 k with
    | some f =>
      simp only
      constructor
      · rintro rfl
        exact .inl ⟨0, by omega, by simp, hjudge⟩
      · rintro (⟨i, -, hbefore, hi⟩ | ⟨hall, -⟩)
        · cases i with
          | zero => exact Option.some.inj (hjudge.symm.trans hi)
          | succ i => simp [show judge sectors name83 k = none from hbefore 0 (by omega)] at hjudge
        · simp [show judge sectors name83 k = none from hall 0 (by omega)] at hjudge
    | none =>
      simp only
      rw [ih]
      have hshift : ∀ j, k + 1 + j = k + (j + 1) := by
        intro j
        omega
      have hall : ∀ n, (∀ j < n, judge sectors name83 (k + 1 + j) = none) ↔
          ∀ j < n + 1, judge sectors name83 (k + j) = none := by
        intro n
        constructor
        · intro h j hj
          cases j with
          | zero => exact hjudge
          | succ j => exact hshift j ▸ h j (by omega)
        · intro h j hj
          exact (hshift j).symm ▸ h (j + 1) (by omega)
      constructor
      · rintro (⟨i, hi, hbefore, hfound⟩ | ⟨hbefore, rfl⟩)
        · exact .inl ⟨i + 1, by omega, (hall i).mp hbefore, hshift i ▸ hfound⟩
        · exact .inr ⟨(hall left).mp hbefore, rfl⟩
      · rintro (⟨i, hi, hbefore, hfound⟩ | ⟨hbefore, rfl⟩)
        · cases i with
          | zero => simp [show judge sectors name83 k = some found from hfound] at hjudge
          | succ i =>
            exact .inl ⟨i, by omega, (hall i).mpr hbefore, (hshift i).symm ▸ hfound⟩
        · exact .inr ⟨(hall left).mpr hbefore, rfl⟩

/-! ## The loops -/

theorem findEntries_succ {n left entryIndex seen : ℕ} {sector : Bytes} (hseen : seen < n) :
    findEntries name83 n sector (left + 1) entryIndex seen =
      match judgeIn name83 sector (entryIndex * 32) with
      | some found => .inl found
      | none => findEntries name83 n sector left (entryIndex + 1) (seen + 1) := by
  rw [findEntries, if_pos hseen]
  unfold judgeIn
  simp only
  split
  · rfl
  split
  · rfl
  · rfl

/-- The loop over a sector decides as the scan does, or leaves the scan behind the sector. -/
theorem findEntries_scan {n : ℕ} {sector : Bytes} : ∀ {left entryIndex seen : ℕ}, seen ≤ n →
    (∀ j < left, judge sectors name83 (seen + j) = judgeIn name83 sector ((entryIndex + j) * 32)) →
    findEntries name83 n sector left entryIndex seen = .inl (scanEntries sectors name83 (n - seen) seen) ∨
    findEntries name83 n sector left entryIndex seen = .inr (min n (seen + left)) ∧
      scanEntries sectors name83 (n - seen) seen =
        scanEntries sectors name83 (n - min n (seen + left)) (min n (seen + left)) := by
  intro left
  induction left with
  | zero =>
    intro entryIndex seen hseen _
    right
    rw [findEntries, Nat.add_zero, Nat.min_eq_right hseen]
    exact ⟨rfl, rfl⟩
  | succ left ih =>
    intro entryIndex seen hseen hjudge
    by_cases hlt : seen < n
    · obtain ⟨m, hm⟩ : ∃ m, n - seen = m + 1 := ⟨n - seen - 1, by omega⟩
      have hhere := hjudge 0 (by omega)
      rw [Nat.add_zero, Nat.add_zero] at hhere
      rw [findEntries_succ hlt, hm, scanEntries, hhere]
      cases judgeIn name83 sector (entryIndex * 32) with
      | some found => exact .inl rfl
      | none =>
        have hm' : m = n - (seen + 1) := by omega
        have hnext : seen + (left + 1) = seen + 1 + left := by omega
        simp only [hm', hnext]
        refine ih (by omega) fun j hj => ?_
        have := hjudge (j + 1) (by omega)
        rwa [show seen + (j + 1) = seen + 1 + j by omega,
          show entryIndex + (j + 1) = entryIndex + 1 + j by omega] at this
    · right
      obtain rfl : seen = n := by omega
      rw [findEntries, if_neg hlt, Nat.min_eq_left (by omega)]
      exact ⟨rfl, rfl⟩

end

/-- What the loop over the sectors needs of a volume. -/
structure Searchable (fs : Fat16) : Prop where
  valid : blockdevValidate fs.dev = true
  bytesPerSector : fs.bytesPerSector = 512
  entries : fs.rootEntryCount ≤ fs.rootDirSectors * 16
  inside : fs.firstRootLba + fs.rootDirSectors ≤ fs.dev.blockCount

theorem fat16Mount_searchable {dev : Blockdev} {volumeStartLba : ℕ} {out : Fat16} {calls : List Call}
    (h : (fat16Mount dev volumeStartLba out calls).1 = 0) :
    Searchable (fat16Mount dev volumeStartLba out calls).2.1 := by
  obtain ⟨hvalid, hsize, boot, -, hm⟩ := fat16Mount_ok h
  have hfs := mountBoot_contained hsize hm
  have hbps : (fat16Mount dev volumeStartLba out calls).2.1.bytesPerSector = 512 :=
    congrArg Fat16.bytesPerSector (mountBoot_some hsize hm).2
  have hfirst := hfs.firstData
  have hdata := hfs.data_le
  have hvol := hfs.volume_le
  have hdev := hfs.dev_eq
  exact ⟨by rw [hdev]; exact hvalid, hbps, hfs.root_entries, by rw [hdev]; omega⟩

section

variable {fs : Fat16}

/-- The calls for the first `i` sectors. -/
def rootCalls (fs : Fat16) (calls : List Call) (i : ℕ) : List Call :=
  calls ++ (List.range i).map fun j => ⟨fs.firstRootLba + j, 1⟩

theorem rootCalls_succ (calls : List Call) (i : ℕ) :
    rootCalls fs calls (i + 1) = rootCalls fs calls i ++ [⟨fs.firstRootLba + i, 1⟩] := by
  rw [rootCalls, List.range_succ, List.map_append, ← List.append_assoc, List.map_singleton]
  rfl

theorem Searchable.readRootSector (h : Searchable fs) {i : ℕ} (hi : i < fs.rootDirSectors)
    (calls : List Call) : fat16ReadRootSector fs i (rootCalls fs calls i) =
      (rootSector fs calls i, rootCalls fs calls (i + 1)) := by
  have hin := h.inside
  have hlt := fs.dev.blockCount_lt
  have hrange : blockdevRangeValid fs.dev (fs.firstRootLba + i) 1 = true := by
    unfold blockdevRangeValid
    simp only [Bool.and_eq_true, decide_eq_true_eq]
    omega
  have hvalid := h.valid
  rw [fat16ReadRootSector, if_neg (by omega), u64_of_lt (by omega), blockdevRead, hvalid, hrange,
    rootCalls_succ]
  unfold rootSector rootCalls
  cases hread : fs.dev.read with
  | none => simp [blockdevValidate, hread] at hvalid
  | some read => rfl

/-- **The loops are the scan**: the sectors are read in order, and the entries of each are judged. -/
theorem Searchable.findSectors (h : Searchable fs) (name83 : List UInt8) (calls : List Call) :
    ∀ {left i : ℕ}, left + i = fs.rootDirSectors →
      (Orion.Disk.findSectors fs name83 left i (min fs.rootEntryCount (i * 16)) (rootCalls fs calls i)).1 =
        scanEntries (rootSector fs calls) name83 (fs.rootEntryCount - min fs.rootEntryCount (i * 16))
          (min fs.rootEntryCount (i * 16)) := by
  have hentries := h.entries
  intro left
  induction left with
  | zero =>
    intro i hi
    have hall : min fs.rootEntryCount (i * 16) = fs.rootEntryCount := Nat.min_eq_left (by omega)
    rw [hall, Nat.sub_self, Orion.Disk.findSectors, scanEntries]
  | succ left ih =>
    intro i hi
    rw [Orion.Disk.findSectors]
    by_cases hlt : min fs.rootEntryCount (i * 16) < fs.rootEntryCount
    · have hseen : min fs.rootEntryCount (i * 16) = i * 16 := by omega
      rw [if_pos hlt, hseen, h.readRootSector (by omega), h.bytesPerSector]
      cases hsector : rootSector fs calls i with
      | none =>
        obtain ⟨m, hm⟩ : ∃ m, fs.rootEntryCount - i * 16 = m + 1 :=
          ⟨fs.rootEntryCount - i * 16 - 1, by omega⟩
        have hjudge : judge (rootSector fs calls) name83 (i * 16) = some .error := by
          rw [judge, Nat.mul_div_cancel _ (by norm_num), hsector]
        simp only [hm, scanEntries, hjudge]
      | some sector =>
        have hjudge : ∀ j < 16, judge (rootSector fs calls) name83 (i * 16 + j) =
            judgeIn name83 sector ((0 + j) * 32) := by
          intro j hj
          have hdiv : (i * 16 + j) / 16 = i := by omega
          have hmod : (i * 16 + j) % 16 = j := by omega
          rw [judge, hdiv, hsector, hmod, Nat.zero_add]
        have hnext := ih (i := i + 1) (by omega)
        rw [show (i + 1) * 16 = i * 16 + 16 by omega] at hnext
        obtain hfound | ⟨hseen', hscan⟩ := findEntries_scan (n := fs.rootEntryCount) (by omega) hjudge
        · simp only [show 512 / 32 = 16 from rfl, hfound]
        · simp only [show 512 / 32 = 16 from rfl, hseen', hscan]
          exact hnext
    · have hall : min fs.rootEntryCount (i * 16) = fs.rootEntryCount := by omega
      rw [if_neg hlt, hall, Nat.sub_self, scanEntries]

theorem Searchable.fat16FindRoot (h : Searchable fs) (name83 : List UInt8) (calls : List Call) :
    (Orion.Disk.fat16FindRoot fs name83 calls).1 =
      scanEntries (rootSector fs calls) name83 fs.rootEntryCount 0 := by
  have hloop := @Searchable.findSectors fs h name83 calls fs.rootDirSectors 0 rfl
  have hcalls : rootCalls fs calls 0 = calls := List.append_nil calls
  rw [Nat.zero_mul, Nat.min_zero, Nat.sub_zero, hcalls] at hloop
  rw [Orion.Disk.fat16FindRoot, if_neg (by simp [h.bytesPerSector]), hloop]

end

/-- The return value, and what `*out` holds then: it is written where 0 is returned. -/
def Found.result (out : Dirent) : Found → ℤ × Dirent
  | .error => (-1, out)
  | .absent => (1, out)
  | .entry d => (0, d)

/-- **Root directory lookup**, on every mounted volume, for every driver and every name: the entries in
front have been passed, and the first that has not is the wanted one, the end mark, or in a sector that
cannot be read. -/
theorem fat16_find_root_spec (dev : Blockdev) (volumeStartLba : ℕ) (fs₀ : Fat16) (before : List Call)
    (h : (fat16Mount dev volumeStartLba fs₀ before).1 = 0) (name83 : List UInt8) (out : Dirent)
    (calls : List Call) :
    let fs := (fat16Mount dev volumeStartLba fs₀ before).2.1
    let sectors := rootSector fs calls
    let r := (fat16FindRoot fs name83 calls).1.result out
    (r.1 = 0 ∨ r.1 = 1 ∨ r.1 = -1) ∧ (r.1 ≠ 0 → r.2 = out) ∧
    (∀ d, r = (0, d) ↔ ∃ k < fs.rootEntryCount, (∀ j < k, Passed sectors name83 j) ∧
      Wanted sectors name83 k d) ∧
    (r.1 = 1 ↔ (∃ k < fs.rootEntryCount, (∀ j < k, Passed sectors name83 j) ∧ EndMark sectors k) ∨
      ∀ j < fs.rootEntryCount, Passed sectors name83 j) ∧
    (r.1 = -1 ↔ ∃ k < fs.rootEntryCount, (∀ j < k, Passed sectors name83 j) ∧ Unreadable sectors k) := by
  intro fs sectors r
  have hscan := (fat16Mount_searchable h).fat16FindRoot name83 calls
  have hiff : ∀ found, (fat16FindRoot fs name83 calls).1 = found ↔
      (∃ k < fs.rootEntryCount, (∀ j < k, Passed sectors name83 j) ∧
        ((Unreadable sectors k ∧ found = .error) ∨ (EndMark sectors k ∧ found = .absent) ∨
          ∃ d, Wanted sectors name83 k d ∧ found = .entry d)) ∨
      (∀ j < fs.rootEntryCount, Passed sectors name83 j) ∧ found = .absent := by
    intro found
    rw [hscan, scanEntries_eq_iff]
    simp only [Nat.zero_add, judge_none_iff, judge_some_iff]
    rfl
  have hcode : ∀ found : Found, (found.result out).1 = 0 ∨ (found.result out).1 = 1 ∨
      (found.result out).1 = -1 := by
    intro found
    cases found <;> simp [Found.result]
  have hkeep : ∀ found : Found, (found.result out).1 ≠ 0 → (found.result out).2 = out := by
    intro found
    cases found <;> simp [Found.result]
  have hentry : ∀ (found : Found) d, found.result out = (0, d) ↔ found = .entry d := by
    intro found d
    cases found <;> simp [Found.result]
  have habsent : ∀ found : Found, (found.result out).1 = 1 ↔ found = .absent := by
    intro found
    cases found <;> simp [Found.result]
  have herror : ∀ found : Found, (found.result out).1 = -1 ↔ found = .error := by
    intro found
    cases found <;> simp [Found.result]
  refine ⟨hcode _, hkeep _, fun d => ?_, ?_, ?_⟩
  · rw [hentry, hiff]
    simp
  · rw [habsent, hiff]
    simp
  · rw [herror, hiff]
    simp

/-- A root directory with a kernel of no bytes behind a deleted entry. -/
def kernelSector : Bytes := fun i =>
  if i = 0 then 0xe5 else if 32 ≤ i ∧ i < 43 then (ascii "KERNEL  ELF").getD (i - 32) 0 else 0

/-- A volume like that of `thinDev`, with this directory. -/
def kernelDev : Blockdev :=
  ⟨true, 512, 5000, some fun _ lba _ => some (if lba = 0 then thinBoot else kernelSector),
    sectorSize_lt, sectorCount_lt⟩

theorem fat16_find_root_spec_kernel :
    (fat16FindRoot (fat16Mount kernelDev 0 noVolume []).2.1 (ascii "KERNEL  ELF") []).1.result
      ⟨[], 0, 0, 0⟩ = (0, direntAt kernelSector 32) := by
  refine ((fat16_find_root_spec kernelDev 0 noVolume [] (by decide +kernel) (ascii "KERNEL  ELF")
    ⟨[], 0, 0, 0⟩ []).2.2.1 _).mpr ⟨1, by decide +kernel, fun j hj => ?_, kernelSector, rfl,
      by decide +kernel, ⟨by decide +kernel, by decide +kernel, by decide +kernel, by decide +kernel⟩, rfl⟩
  obtain rfl : j = 0 := by omega
  exact ⟨kernelSector, rfl, by decide +kernel, fun hnamed => absurd hnamed.1 (by decide +kernel)⟩

end Orion.Disk
